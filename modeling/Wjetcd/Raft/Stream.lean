import Wjetcd.Raft.Bounds

/-! The stream of messages for the service has no gap.

`LastApplied` in the node and `lastItemIndex` in its `ApplyHelper` are two counters for
one thing, moved by three paths: commands, installed snapshots and local snapshots. Here a
node runs together with the goroutine that empties the queue. `stream_gap_free` says that
in every run within the bounds of an `int` the counters agree, the stream counts up one
by one but for snapshots, which jump ahead, and the loop of `sendMsgToTester` meets none of its
panics. After a snapshot up to the largest `int` it does (`largest_snapshot_panics`).

Nothing else is asked of the messages that arrive. An append message may cut the log below
`LastApplied`; the loop then waits until the log has grown past it again. -/
namespace Wjetcd.Stream
open Runs

variable {C : Type}

def index : ApplyMsg C → Int
  | .command i _ => i
  | .snapshot i _ _ => i

/-- What may come after the message with index `last`. -/
def Next (last : Int) : ApplyMsg C → Prop
  | .command i _ => i = last + 1
  | .snapshot i _ _ => last < i

/-- Every message may come after the one before it, the first after `last`. -/
def Follows (last : Int) : List (ApplyMsg C) → Prop
  | [] => True
  | msg :: rest => Next last msg ∧ Follows (index msg) rest

/-- The index of the last message, or `last` if there is none. -/
def endIndex (last : Int) : List (ApplyMsg C) → Int
  | [] => last
  | msg :: rest => endIndex (index msg) rest

/-- A stream without gaps: it begins with index 0 or with a snapshot. -/
def GapFree (stream : List (ApplyMsg C)) : Prop := Follows (-1) stream

theorem follows_concat (msgs : List (ApplyMsg C)) (msg : ApplyMsg C) : ∀ last,
    Follows last (msgs ++ [msg]) ↔ Follows last msgs ∧ Next (endIndex last msgs) msg := by
  induction msgs with
  | nil =>
    intro last
    simp [Follows, endIndex]
  | cons first rest ih =>
    intro last
    rw [List.cons_append, Follows, Follows, ih, endIndex, and_assoc]

theorem endIndex_concat (msgs : List (ApplyMsg C)) (msg : ApplyMsg C) : ∀ last,
    endIndex last (msgs ++ [msg]) = index msg := by
  induction msgs with
  | nil =>
    intro last
    rfl
  | cons first rest ih =>
    intro last
    exact ih (index first)

/-! ### A node and the goroutine that empties its queue -/

structure Service (C : Type) where
  tenure : Leadership.Tenure C
  delivered : List (ApplyMsg C)

/-- A call, or a turn of `ApplyHelper.applier`. -/
inductive Event (C : Type) where
  | call (action : Leadership.Action C)
  | applier

def step [Width] (event : Event C) (s : Service C) : Option (Service C) :=
  match event with
  | .call action => (Leadership.step action s.tenure).map fun tenure => {s with tenure := tenure}
  | .applier =>
    match s.tenure.node.applyHelper.q with
    | [] => none
    | msg :: rest =>
      some
        { tenure := {s.tenure with
            node := {s.tenure.node with applyHelper := {s.tenure.node.applyHelper with q := rest}}}
          delivered := s.delivered ++ [msg] }

def boot (peers : List String) (me : Int) : Service C := ⟨Leadership.boot peers me makePersister, []⟩

def Service.node (s : Service C) : Raft C := s.tenure.node

/-- All that has been queued, delivered or not. -/
def Service.stream (s : Service C) : List (ApplyMsg C) := s.delivered ++ s.node.applyHelper.q

/-! ### The invariant -/

/-- A log and its counters, with the messages queued so far. -/
structure Fed (stream : List (ApplyMsg C)) (f : Raft.Feed C) : Prop where
  shaped : f.log.Shaped
  first : f.log.firstLogIndex ≤ f.lastApplied + 1
  item : f.helper.lastItemIndex = f.lastApplied
  gapFree : GapFree stream
  last : endIndex (-1) stream = f.lastApplied

/-- A message that `tryApply` queues. -/
theorem Fed.queue {stream : List (ApplyMsg C)} {f f' : Raft.Feed C} (h : Fed stream f)
    (msg : ApplyMsg C) (hnext : Next f.lastApplied msg) (happlied : f'.lastApplied = index msg)
    (hitem : f'.helper.lastItemIndex = index msg) (hshaped : f'.log.Shaped)
    (hfirst : f'.log.firstLogIndex ≤ index msg + 1) : Fed (stream ++ [msg]) f' where
  shaped := hshaped
  first := by
    rw [happlied]
    exact hfirst
  item := hitem.trans happlied.symm
  gapFree := by
    rw [GapFree, follows_concat, h.last]
    exact ⟨h.gapFree, hnext⟩
  last := by rw [endIndex_concat, happlied]

/-- What `tryApply` does with a message that is due. -/
theorem tryApply_next {helper helper' : ApplyHelper C} {msg : ApplyMsg C}
    (hnext : Next helper.lastItemIndex msg) (h : helper.tryApply msg = some helper') :
    helper' = ⟨index msg, helper.q ++ [msg]⟩ := by
  cases msg with
  | command i cmd =>
    rw [Next] at hnext
    rw [ApplyHelper.tryApply, Width.wrap_unbounded, if_neg (by omega), if_pos hnext] at h
    cases h
    rw [hnext]
    rfl
  | snapshot i term data =>
    rw [Next] at hnext
    rw [ApplyHelper.tryApply] at h
    rw [if_neg (by omega)] at h
    cases h
    rfl

/-- The messages a call queues, and what it leaves. -/
theorem effect_fed {rf : Raft C} {action : Leadership.Action C} {f : Raft.Feed C}
    {stream : List (ApplyMsg C)} (h : Fed stream rf.feed) (he : Raft.Effect rf action f) :
    ∃ msgs, f.helper.q = rf.applyHelper.q ++ msgs ∧ Fed (stream ++ msgs) f := by
  have hfirst : rf.log.firstLogIndex ≤ rf.lastApplied + 1 := h.first
  have hitem : rf.applyHelper.lastItemIndex = rf.lastApplied := h.item
  -- a change of the log that queues nothing
  have hquiet : ∀ log included, log.Shaped → log.firstLogIndex ≤ rf.lastApplied + 1 →
      ∃ msgs, rf.applyHelper.q = rf.applyHelper.q ++ msgs ∧
        Fed (stream ++ msgs) {rf.feed with log := log, included := included} := by
    intro log included hshaped hlog
    refine ⟨[], by simp, ?_⟩
    rw [List.append_nil]
    exact {h with shaped := hshaped, first := hlog}
  have hshaped : f.log.Shaped := he.shaped h.shaped
  cases he with
  | idle => exact hquiet _ _ hshaped hfirst
  | append ha => exact hquiet _ _ hshaped (by rw [Log.appendL_first ha]; exact hfirst)
  | overwrite args _ => exact hquiet _ _ hshaped (by rw [Log.overwriteFrom_first]; exact hfirst)
  | compact _ happlied hc =>
    rw [Raft.trimTo_eq] at hc
    exact hquiet _ _ hshaped (by rw [Raft.compactTo_first hc]; omega)
  | install _ happlied hc => exact hquiet _ _ hshaped (by rw [Raft.compactTo_first hc]; omega)
  | torn _ _ => exact hquiet _ _ hshaped hfirst
  | @apply entry helper _ hentry ha =>
    have hnext : Next rf.applyHelper.lastItemIndex (.command (rf.lastApplied + 1) entry.command) := by
      rw [hitem]
      rfl
    rw [tryApply_next hnext ha]
    exact ⟨_, rfl, h.queue _ rfl rfl rfl hshaped
      (show rf.log.firstLogIndex ≤ rf.lastApplied + 1 + 1 by omega)⟩
  | @deliver args log helper _ happlied hc ha =>
    have hnext : Next rf.applyHelper.lastItemIndex
        (.snapshot args.lastIncludeIndex args.lastIncludeTerm args.snapshot : ApplyMsg C) := by
      rw [hitem]
      exact happlied
    rw [tryApply_next hnext ha]
    exact ⟨_, rfl, h.queue _ happlied rfl rfl hshaped (by rw [Raft.compactTo_first hc]; rfl)⟩

theorem boot_fed (peers : List String) (me : Int) :
    Fed (boot peers me : Service C).stream (boot peers me : Service C).node.feed :=
  ⟨Log.newLog_shaped, le_rfl, rfl, trivial, rfl⟩

/-- A call with its effect. -/
theorem call_fed {s : Service C} {action : Leadership.Action C} {tenure : Leadership.Tenure C}
    (h : Fed s.stream s.node.feed) (he : Raft.Effect s.node action tenure.node.feed) :
    Fed (⟨tenure, s.delivered⟩ : Service C).stream tenure.node.feed := by
  obtain ⟨msgs, hq, hfed⟩ := effect_fed h he
  have hstream : (⟨tenure, s.delivered⟩ : Service C).stream = s.stream ++ msgs := by
    rw [Service.stream, Service.stream, List.append_assoc]
    exact congrArg (s.delivered ++ ·) hq
  rw [hstream]
  exact hfed

/-! ### No panic -/

/-- Where there is something to apply, it can be applied. -/
theorem applyNext_some {stream : List (ApplyMsg C)} {rf : Raft C} (h : Fed stream rf.feed)
    (hnext : rf.hasNext = true) : ∃ rf', rf.applyNext = some rf' := by
  have hfirst : rf.log.firstLogIndex ≤ rf.lastApplied + 1 := h.first
  have hitem : rf.applyHelper.lastItemIndex = rf.lastApplied := h.item
  have hshaped : rf.log.lastLogIndex = rf.log.firstLogIndex + rf.log.entries.length - 1 := h.shaped
  simp only [Raft.hasNext, Width.wrap_unbounded, Bool.and_eq_true, decide_eq_true_eq] at hnext
  obtain ⟨entry, hentry⟩ : ∃ entry, rf.log.getOneEntry (rf.lastApplied + 1) = some entry := by
    rw [Log.getOneEntry_eq, if_neg (by omega)]
    exact ⟨_, List.getElem?_eq_getElem (by omega)⟩
  unfold Raft.applyNext
  simp only [Width.wrap_unbounded]
  rw [if_neg (by omega), hentry]
  dsimp only [ApplyHelper.tryApply]
  rw [Width.wrap_unbounded, if_neg (by omega), if_pos (by omega)]
  exact ⟨_, rfl⟩

section Word
open scoped Word64

/-- The calls are in bounds. -/
def Bounded (event : Event C) (s : Service C) : Prop :=
  match event with
  | .call action => Raft.InBounds action s.node
  | .applier => True

instance (event : Event C) (s : Service C) : Decidable (Bounded event s) := by
  unfold Bounded
  split <;> infer_instance

/-- The stream and the counters, within the bounds of an `int`. -/
structure Inv (s : Service C) : Prop where
  fed : Fed s.stream s.node.feed
  sized : s.node.feed.Sized

theorem step_inv (event : Event C) (s t : Service C) (h : Inv s) (hb : Bounded event s)
    (hs : step event s = some t) : Inv t := by
  cases event with
  | call action =>
    obtain ⟨tenure, htenure, rfl⟩ := Option.map_eq_some_iff.mp hs
    obtain ⟨heffect, hsized⟩ := Raft.step_unbounded h.sized hb htenure
    exact ⟨call_fed h.fed heffect, hsized⟩
  | applier =>
    rw [step] at hs
    split at hs
    · cases hs
    · rename_i msg rest hq
      cases hs
      -- a message moves from the queue to the delivered ones
      have hstream : s.stream = s.delivered ++ [msg] ++ rest := by
        rw [Service.stream, Service.node, hq, List.append_assoc]
        rfl
      obtain ⟨hfed, hsized⟩ := h
      rw [hstream] at hfed
      exact ⟨⟨hfed.shaped, hfed.first, hfed.item, hfed.gapFree, hfed.last⟩,
        ⟨hsized.log, hsized.included, hsized.applied, hsized.item⟩⟩

/-- A wake-up runs the loop to its end, however long it is. -/
theorem sendMsgToTester_some (fuel : Nat) : ∀ (stream : List (ApplyMsg C)) (rf : Raft C),
    Fed stream rf.feed → rf.feed.Sized → ∃ rf', rf.sendMsgToTester fuel = some rf' := by
  induction fuel with
  | zero =>
    intro stream rf _ _
    exact ⟨rf, rfl⟩
  | succ fuel ih =>
    intro stream rf h hsized
    rw [Raft.sendMsgToTester]
    split
    · rename_i hnext
      obtain ⟨mid, hmid⟩ := applyNext_some h (Raft.hasNext_unbounded hsized ▸ hnext)
      rw [← Raft.applyNext_unbounded hsized] at hmid
      have hbounds : Raft.InBounds .applyNext rf := trivial
      have heffect := (Raft.applyNext_effect hnext hmid).unbounded hsized hbounds
      obtain ⟨msgs, _, hfed⟩ := effect_fed h heffect
      rw [hmid]
      exact ih _ mid hfed (heffect.sized hsized hbounds)
    · exact ⟨rf, rfl⟩

/-- **The stream has no gap, the counters agree, and no wake-up panics**, in every run
of a node from a fresh start in which every index is below the largest `int`. -/
theorem stream_gap_free (peers : List String) (me : Int) (events : List (Event C)) (s : Service C)
    (hb : Along step Bounded (boot peers me) events) (hs : run step (boot peers me) events = some s) :
    GapFree s.stream ∧ s.node.applyHelper.lastItemIndex = s.node.lastApplied ∧
      s.node.log.firstLogIndex ≤ s.node.lastApplied + 1 ∧
      ∀ fuel, ∃ rf', s.node.sendMsgToTester fuel = some rf' := by
  obtain ⟨hfed, hsized⟩ := run_invariant step_inv events _ _
    ⟨boot_fed peers me, Raft.make_sized peers me⟩ hb hs
  exact ⟨hfed.gapFree, hfed.item, hfed.first, fun fuel => sendMsgToTester_some fuel _ _ hfed hsized⟩

/-- A follower is sent two commands, applies them, gets a snapshot up to index 5, and a
third command after it. -/
theorem stream_gap_free_snapshot :
    ∃ s : Service Nat, run step (boot ["a", "b", "c"] 2)
        [.call (.handleAppendEntriesRPC ⟨1, 1, -1, 0, [⟨1, 7⟩, ⟨1, 8⟩], 1⟩), .call .applyNext,
          .applier, .call .applyNext, .call (.requestInstallSnapshot ⟨1, 1, 5, 1, []⟩),
          .call (.handleAppendEntriesRPC ⟨1, 1, 0, 1, [⟨1, 7⟩, ⟨1, 7⟩, ⟨1, 7⟩, ⟨1, 7⟩, ⟨1, 7⟩, ⟨1, 9⟩], 6⟩),
          .call .applyNext] = some s ∧
      s.stream = [.command 0 7, .command 1 8, .snapshot 5 1 [], .command 6 9] ∧ GapFree s.stream :=
  ⟨_, rfl, by decide, (stream_gap_free ["a", "b", "c"] 2
    [.call (.handleAppendEntriesRPC ⟨1, 1, -1, 0, [⟨1, 7⟩, ⟨1, 8⟩], 1⟩), .call .applyNext,
      .applier, .call .applyNext, .call (.requestInstallSnapshot ⟨1, 1, 5, 1, []⟩),
      .call (.handleAppendEntriesRPC ⟨1, 1, 0, 1, [⟨1, 7⟩, ⟨1, 7⟩, ⟨1, 7⟩, ⟨1, 7⟩, ⟨1, 7⟩, ⟨1, 9⟩], 6⟩),
      .call .applyNext] _ (by decide) rfl).1⟩

/-- After a snapshot up to the largest `int` the next wake-up dereferences nil: the index to apply
next is the smallest one, which is where the log now begins. -/
theorem largest_snapshot_panics :
    ¬∀ (peers : List String) (me : Int) (events : List (Event Nat)) (s : Service Nat),
      run step (boot peers me) events = some s →
      GapFree s.stream ∧ s.node.applyHelper.lastItemIndex = s.node.lastApplied ∧
        s.node.log.firstLogIndex ≤ s.node.lastApplied + 1 ∧
        ∀ fuel, ∃ rf', s.node.sendMsgToTester fuel = some rf' := by
  intro h
  have hsome := (h ["a", "b", "c"] 2
    [.call (.requestInstallSnapshot ⟨1, 1, 2 ^ 63 - 1, 1, []⟩)] _ rfl).2.2.2 1
  rw [← Option.isSome_iff_exists] at hsome
  exact absurd hsome (by decide +kernel)

end Word

end Wjetcd.Stream
