import Wjetcd.Raft.Delivery

/-! Where an `int` is wide enough for the indices of a log.

Nothing in the source keeps an index from wrapping. A snapshot up to the largest `int` is
enough: the log that is left begins at the smallest one and ends at the largest, and is
empty. `InBounds` is the rule that keeps this from happening. No call brings the largest
index into the log, be it with a command, with a message or with a snapshot.

In a run that obeys it every index stays in range (`Feed.Sized`), and a call does to log
and queue what it would do if integers had no bound (`Effect.unbounded`). What
is proved of unbounded integers about an `Effect` then holds of the machine's. -/
namespace Wjetcd

variable {C : Type}

/-- The indices of a log, with room for one more. -/
structure Log.Sized (log : Log C) : Prop where
  first : 0 ≤ log.firstLogIndex ∧ log.firstLogIndex < 2 ^ 63
  last : -1 ≤ log.lastLogIndex ∧ log.lastLogIndex < 2 ^ 63 - 1

namespace Raft

structure Feed.Sized (f : Feed C) : Prop where
  log : f.log.Sized
  included : 0 ≤ f.included ∧ f.included < 2 ^ 63 - 1
  applied : -1 ≤ f.lastApplied ∧ f.lastApplied < 2 ^ 63 - 1
  item : f.helper.lastItemIndex = f.lastApplied

/-- Every index that a call brings into the log is below the largest `int`. -/
def InBounds (action : Leadership.Action C) (rf : Raft C) : Prop :=
  match action with
  | .start _ => rf.log.lastLogIndex + 1 < 2 ^ 63 - 1
  | .handleAppendEntriesRPC args =>
    -2 ^ 63 ≤ args.prevLogIndex ∧ args.prevLogIndex + args.entries.length < 2 ^ 63 - 1
  | .requestInstallSnapshot args => args.lastIncludeIndex < 2 ^ 63 - 1
  | _ => True

instance (action : Leadership.Action C) (rf : Raft C) : Decidable (InBounds action rf) := by
  unfold InBounds
  split <;> infer_instance

end Raft

/-- The rule on runs of a node. -/
def Leadership.Bounded (action : Action C) (s : Tenure C) : Prop := Raft.InBounds action s.node

instance (action : Leadership.Action C) (s : Leadership.Tenure C) : Decidable (Leadership.Bounded action s) :=
  inferInstanceAs (Decidable (Raft.InBounds action s.node))

/-! ### Indices stay in range -/

theorem Log.Sized.overwrite {log log' : Log C} (h : log.Sized) {idx : Int} {entry : Entry C}
    (hidx : idx < 2 ^ 63 - 1) (hlog : log.overwrite idx entry = some log') : log'.Sized := by
  obtain ⟨⟨hfirst, hfirst'⟩, hlast, hlast'⟩ := h
  unfold Log.overwrite at hlog
  simp only [Width.wrap_unbounded] at hlog
  split_ifs at hlog with hbefore hwithin
  · cases hlog
    exact ⟨⟨hfirst, hfirst'⟩, hlast, hlast'⟩
  · split at hlog
    · cases hlog
    · split_ifs at hlog with hterm
      · -- the log is cut at the index
        obtain ⟨kept, _, rfl⟩ := Option.map_eq_some_iff.mp hlog
        exact ⟨⟨hfirst, hfirst'⟩, by dsimp only; omega, by dsimp only; omega⟩
      · cases hlog
        exact ⟨⟨hfirst, hfirst'⟩, hlast, hlast'⟩
  · cases hlog
    exact ⟨⟨hfirst, hfirst'⟩, by dsimp only; omega, by dsimp only; omega⟩

theorem Log.Sized.overwriteFrom (entries : List (Entry C)) : ∀ {log : Log C} {idx : Int}, log.Sized →
    idx + entries.length < 2 ^ 63 - 1 → (log.overwriteFrom idx entries).1.Sized := by
  induction entries with
  | nil =>
    intro log idx h _
    exact h
  | cons entry rest ih =>
    intro log idx h hidx
    rw [List.length_cons] at hidx
    unfold Log.overwriteFrom
    rw [Width.wrap_unbounded]
    cases hlog : log.overwrite (idx + 1) entry with
    | none => exact h
    | some log' => exact ih (h.overwrite (by omega) hlog) (by omega)

namespace Raft

theorem compactTo_sized {rf : Raft C} (h : rf.log.Sized) {index : Int} {log : Log C} (hlow : 0 ≤ index)
    (hhigh : index < 2 ^ 63 - 1) (hlog : rf.compactTo index = some log) : log.Sized := by
  obtain ⟨_, hlast⟩ := h
  rcases compactTo_cases hlog with ⟨_, rfl⟩ | ⟨_, _, _, rfl⟩
  · exact ⟨⟨by dsimp only; omega, by dsimp only; omega⟩, by dsimp only; omega, hhigh⟩
  · exact ⟨⟨by dsimp only; omega, by dsimp only; omega⟩, hlast⟩

theorem make_sized (peers : List String) (me : Int) :
    (make peers me (makePersister : Persister C)).feed.Sized where
  log := ⟨⟨le_rfl, show (0 : Int) < 2 ^ 63 by decide⟩, le_rfl, show (-1 : Int) < 2 ^ 63 - 1 by decide⟩
  included := ⟨le_rfl, show (0 : Int) < 2 ^ 63 - 1 by decide⟩
  applied := ⟨le_rfl, show (-1 : Int) < 2 ^ 63 - 1 by decide⟩
  item := rfl

theorem Effect.sized {rf : Raft C} {action : Leadership.Action C} {f : Feed C} (h : rf.feed.Sized)
    (hb : InBounds action rf) (he : Effect rf action f) : f.Sized := by
  obtain ⟨hlog, hincluded, happlied, hitem⟩ := h
  have hfirst := hlog.first.1
  have hlast := hlog.last
  dsimp only [feed] at hlog hincluded happlied hitem hfirst hlast
  cases he with
  | idle => exact ⟨hlog, hincluded, happlied, hitem⟩
  | append ha =>
    obtain ⟨kept, _, rfl⟩ := Option.map_eq_some_iff.mp ha
    rw [InBounds] at hb
    exact ⟨⟨hlog.first, show -1 ≤ rf.log.lastLogIndex + 1 by omega, hb⟩, hincluded, happlied, hitem⟩
  | overwrite args _ => exact ⟨hlog.overwriteFrom _ hb.2, hincluded, happlied, hitem⟩
  | apply hnext _ ha =>
    simp only [hasNext, Width.wrap_unbounded, Bool.and_eq_true, decide_eq_true_eq] at hnext
    rw [Width.wrap_unbounded, ApplyHelper.tryApply, Width.wrap_unbounded, if_neg (by omega),
      if_pos (by omega)] at ha
    cases ha
    refine ⟨hlog, hincluded, ?_, ?_⟩
    · show -1 ≤ rf.lastApplied + 1 ∧ rf.lastApplied + 1 < 2 ^ 63 - 1
      omega
    · show rf.applyHelper.lastItemIndex + 1 = rf.lastApplied + 1
      omega
  | @compact index _ _ hle hindex hc =>
    rw [trimTo_eq] at hc
    have hhigh : index < 2 ^ 63 - 1 := by omega
    exact ⟨compactTo_sized hlog (hfirst.trans hle) hhigh hc, ⟨hfirst.trans hle, hhigh⟩, happlied, hitem⟩
  | install hnew _ hc =>
    have hindex := hincluded.1.trans hnew.le
    exact ⟨compactTo_sized hlog hindex hb hc, ⟨hindex, hb⟩, happlied, hitem⟩
  | deliver hnew hgt hc ha =>
    have hindex := hincluded.1.trans hnew.le
    rw [ApplyHelper.tryApply, if_neg (by omega)] at ha
    cases ha
    exact ⟨compactTo_sized hlog hindex hb hc, ⟨hindex, hb⟩, ⟨happlied.1.trans hgt.le, hb⟩, rfl⟩
  | torn hnew _ => exact ⟨hlog, ⟨hincluded.1.trans hnew.le, hb⟩, happlied, hitem⟩

end Raft

/-! ### An operation in range -/

section Word
open scoped Word64

section Log
variable {log : Log C} (h : log.Sized)
include h

theorem Log.Sized.getRealIndex_eq {i : Int} (hlow : -1 ≤ i) (hhigh : i < 2 ^ 63) :
    log.getRealIndex i = i - log.firstLogIndex := by
  obtain ⟨⟨hfirst, hfirst'⟩, _⟩ := h
  exact Word64.wrap_of_fits ⟨by omega, by omega⟩

theorem Log.Sized.getOneEntry_unbounded {i : Int} (hlow : -1 ≤ i) (hhigh : i < 2 ^ 63) :
    log.getOneEntry i = @Log.getOneEntry C Width.unbounded log i := by
  unfold Log.getOneEntry
  rw [h.getRealIndex_eq hlow hhigh]
  rfl

theorem Log.Sized.appendL_unbounded {entries : List (Entry C)}
    (hroom : log.lastLogIndex + entries.length < 2 ^ 63) :
    log.appendL entries = @Log.appendL C Width.unbounded log entries := by
  obtain ⟨hlow, hhigh⟩ := h.last
  have hfirst := h.first
  unfold Log.appendL
  rw [Word64.wrap_of_fits (i := log.lastLogIndex + entries.length) ⟨by omega, hroom⟩,
    h.getRealIndex_eq hlow (by omega), Word64.wrap_of_fits ⟨by omega, by omega⟩]
  rfl

theorem Log.Sized.overwrite_unbounded {idx : Int} (hidx : idx < 2 ^ 63 - 1) (entry : Entry C) :
    log.overwrite idx entry = @Log.overwrite C Width.unbounded log idx entry := by
  have hfirst := h.first
  have hlast := h.last
  unfold Log.overwrite
  by_cases hbefore : idx < log.firstLogIndex
  · rw [if_pos hbefore, if_pos hbefore]
  · rw [h.getOneEntry_unbounded (by omega) (by omega), h.getRealIndex_eq (by omega) (by omega),
      Word64.wrap_of_fits (i := idx - 1) ⟨by omega, by omega⟩,
      Word64.wrap_of_fits (i := idx - 1 + 1) ⟨by omega, by omega⟩,
      Word64.wrap_of_fits (i := log.lastLogIndex + 1) ⟨by omega, by omega⟩]
    rfl

end Log

theorem Log.Sized.overwriteFrom_unbounded (entries : List (Entry C)) : ∀ {log : Log C} {idx : Int},
    log.Sized → -2 ^ 63 ≤ idx → idx + entries.length < 2 ^ 63 - 1 →
    log.overwriteFrom idx entries = @Log.overwriteFrom C Width.unbounded log idx entries := by
  induction entries with
  | nil =>
    intro log idx _ _ _
    rfl
  | cons entry rest ih =>
    intro log idx h hlow hhigh
    rw [List.length_cons] at hhigh
    unfold Log.overwriteFrom
    rw [Word64.wrap_of_fits ⟨by omega, by omega⟩, h.overwrite_unbounded (by omega), Width.wrap_unbounded]
    cases hlog : @Log.overwrite C Width.unbounded log (idx + 1) entry with
    | none => rfl
    | some log' => exact ih (h.overwrite (by omega) hlog) (by omega) (by omega)

theorem ApplyHelper.tryApply_unbounded {helper : ApplyHelper C} (hlow : -1 ≤ helper.lastItemIndex)
    (hhigh : helper.lastItemIndex < 2 ^ 63 - 1) (msg : ApplyMsg C) :
    helper.tryApply msg = @ApplyHelper.tryApply C Width.unbounded helper msg := by
  cases msg with
  | command index cmd =>
    unfold ApplyHelper.tryApply
    rw [Word64.wrap_of_fits ⟨by omega, by omega⟩]
    rfl
  | snapshot index term data => rfl

namespace Raft
variable {rf : Raft C}

theorem compactTo_unbounded (h : rf.log.Sized) {index : Int} (hlow : 0 ≤ index)
    (hhigh : index < 2 ^ 63 - 1) : rf.compactTo index = @compactTo C Width.unbounded rf index := by
  unfold compactTo
  rw [Word64.wrap_of_fits ⟨by omega, by omega⟩, h.getRealIndex_eq (by omega) (by omega)]
  rfl

theorem trimTo_unbounded (h : rf.log.Sized) {index : Int} (hlow : 0 ≤ index)
    (hhigh : index < 2 ^ 63 - 1) : rf.trimTo index = @trimTo C Width.unbounded rf index := by
  unfold trimTo
  dsimp only
  rw [Word64.wrap_of_fits ⟨by omega, by omega⟩, h.getRealIndex_eq (by omega) (by omega),
    Word64.wrap_of_fits (i := index + 1 - 1) ⟨by omega, by omega⟩]
  rfl

theorem matchesPrev_unbounded (h : rf.log.Sized) {args : RequestAppendEntriesArgs C}
    (hprev : args.prevLogIndex < 2 ^ 63) :
    rf.matchesPrev args = @matchesPrev C Width.unbounded rf args := by
  unfold matchesPrev
  split_ifs with hpos
  · rfl
  · rw [h.getOneEntry_unbounded (by omega) hprev]
  · rfl

/-- In range, what is cut does not depend on the width. -/
theorem CutsAfter.unbounded {W : Int → Prop} {action : Leadership.Action C} (hshaped : rf.log.Shaped)
    (h : rf.log.Sized) (hb : InBounds action rf) (hcuts : CutsAfter W action rf) :
    @CutsAfter C Width.unbounded W action rf := by
  have hfirst := h.first
  have hlast := h.last
  cases action with
  | handleAppendEntriesRPC args =>
    rintro ⟨hdead, hterm, hprev⟩ j ⟨k, entry, held, hentry, hj, hheld, hne⟩
    have hbounds := hshaped.bounds hheld
    rw [← matchesPrev_unbounded h (by have := hb.2; omega)] at hprev
    rw [← h.getOneEntry_unbounded (by omega) (by omega)] at hheld
    exact hcuts ⟨hdead, hterm, hprev⟩ j ⟨k, entry, held, hentry, hj, hheld, hne⟩
  | _ => trivial

theorem hasNext_unbounded (h : rf.feed.Sized) : rf.hasNext = @hasNext C Width.unbounded rf := by
  obtain ⟨hlow, hhigh⟩ : -1 ≤ rf.lastApplied ∧ rf.lastApplied < 2 ^ 63 - 1 := h.applied
  unfold hasNext
  rw [Word64.wrap_of_fits ⟨by omega, by omega⟩]
  rfl

theorem start_unbounded (h : rf.log.Sized) (hroom : rf.log.lastLogIndex + 1 < 2 ^ 63) (command : C) :
    rf.start command = @start C Width.unbounded rf command := by
  have hlow := h.last.1
  unfold start
  rw [h.appendL_unbounded (by rw [List.length_singleton]; exact hroom),
    Word64.wrap_of_fits ⟨by omega, hroom⟩]
  rfl

theorem applyNext_unbounded (h : rf.feed.Sized) : rf.applyNext = @applyNext C Width.unbounded rf := by
  have hlog : rf.log.Sized := h.log
  have hitem : rf.applyHelper.lastItemIndex = rf.lastApplied := h.item
  obtain ⟨hlow, hhigh⟩ : -1 ≤ rf.lastApplied ∧ rf.lastApplied < 2 ^ 63 - 1 := h.applied
  unfold applyNext
  dsimp only
  rw [Word64.wrap_of_fits ⟨by omega, by omega⟩, hlog.getOneEntry_unbounded (by omega) (by omega)]
  cases @Log.getOneEntry C Width.unbounded rf.log (rf.lastApplied + 1) with
  | none => rfl
  | some entry =>
    dsimp only
    rw [ApplyHelper.tryApply_unbounded (by omega) (by omega)]
    rfl

end Raft
end Word

/-! ### A call in bounds -/

namespace Raft

/-- In bounds a call does what it does without bounds. -/
theorem Effect.unbounded {rf : Raft C} {action : Leadership.Action C} {f : Feed C} (h : rf.feed.Sized)
    (hb : InBounds action rf) (he : @Effect C Word64.width rf action f) : Effect rf action f := by
  have hlog : rf.log.Sized := h.log
  obtain ⟨hfirst, hfirst'⟩ := hlog.first
  obtain ⟨hlow, hhigh⟩ : -1 ≤ rf.lastApplied ∧ rf.lastApplied < 2 ^ 63 - 1 := h.applied
  have hitem : rf.applyHelper.lastItemIndex = rf.lastApplied := h.item
  have hincluded : 0 ≤ rf.snapshotLastIncludeIndex := h.included.1
  have hnext : Word64.width.wrap (rf.lastApplied + 1) = rf.lastApplied + 1 :=
    Word64.wrap_of_fits ⟨by omega, by omega⟩
  cases he with
  | idle => exact .idle
  | append ha =>
    rw [InBounds] at hb
    rw [hlog.appendL_unbounded (by rw [List.length_singleton]; omega)] at ha
    exact .append ha
  | overwrite args haccepts =>
    rw [hlog.overwriteFrom_unbounded _ hb.1 hb.2]
    refine .overwrite args ⟨haccepts.1, haccepts.2.1, ?_⟩
    rw [← matchesPrev_unbounded hlog (by have := hb.2; omega)]
    exact haccepts.2.2
  | apply hmore hentry ha =>
    rw [hnext] at hentry ha ⊢
    rw [hlog.getOneEntry_unbounded (by omega) (by omega)] at hentry
    rw [ApplyHelper.tryApply_unbounded (by omega) (by omega)] at ha
    exact .apply (hasNext_unbounded h ▸ hmore) hentry ha
  | compact hle hindex hc =>
    rw [trimTo_unbounded hlog (by omega) (by omega)] at hc
    exact .compact hle hindex hc
  | install hnew hindex hc =>
    rw [compactTo_unbounded hlog (by omega) hb] at hc
    exact .install hnew hindex hc
  | deliver hnew hgt hc ha =>
    rw [compactTo_unbounded hlog (by omega) hb] at hc
    exact .deliver hnew hgt hc ha
  | torn hnew hc =>
    rw [compactTo_unbounded hlog (by omega) hb] at hc
    exact .torn hnew hc

open scoped Word64

/-- A call in bounds: its effect without bounds, and indices that stay in range. -/
theorem step_unbounded {action : Leadership.Action C} {s t : Leadership.Tenure C}
    (h : s.node.feed.Sized) (hb : InBounds action s.node)
    (hs : Leadership.step action s = some t) :
    @Effect C Width.unbounded s.node action t.node.feed ∧ t.node.feed.Sized := by
  have he := (handles_effect.step hs).unbounded h hb
  exact ⟨he, he.sized h hb⟩

end Raft
end Wjetcd
