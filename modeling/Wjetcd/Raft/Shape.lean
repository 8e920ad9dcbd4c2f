import Wjetcd.Raft.Compaction

/-! The log's three fields agree in every state a node reaches.

`Entries`, `FirstLogIndex` and `LastLogIndex` are kept beside each other by hand, in five
operations that cut the slice in different ways, and the index of the snapshot is a fourth
copy of where the log begins. `Represented` is how they fit together. Every call keeps it
(`effect_represented`), whatever its arguments, as long as the indices are within the bounds of
an `int` and the node is not restarted; `Durable` has what a restart makes of it. The slice
expressions and the entries that handlers dereference are in range because of it and of
nothing else: `InRange`, and `Sends` for what goes to a follower. A snapshot up to the
largest `int` breaks it (`largest_snapshot_torn`). -/
namespace Wjetcd.Shape
open Runs Durable

variable {C : Type}

/-- The slice reaches from the first index to the last one, and the log begins right after the
snapshot, or at 0 if there is none. -/
structure Represented (log : Log C) (included : Int) : Prop where
  length : (log.entries.length : Int) = log.lastLogIndex - log.firstLogIndex + 1
  start : log.firstLogIndex = included + 1 ∨ (log.firstLogIndex = 0 ∧ included = 0)

theorem Represented.shaped {log : Log C} {included : Int} (h : Represented log included) : log.Shaped := by
  have hlength := h.length
  rw [Log.Shaped]
  omega

theorem Represented.fits {log : Log C} {included : Int} (h : Represented log included) : Fits log :=
  Fits.of_shaped h.shaped

theorem Represented.of_shaped {log : Log C} {included : Int} (h : log.Shaped)
    (hstart : log.firstLogIndex = included + 1 ∨ (log.firstLogIndex = 0 ∧ included = 0)) :
    Represented log included := by
  rw [Log.Shaped] at h
  exact ⟨by omega, hstart⟩

/-! ### Every call keeps it -/

section Calls
variable {rf : Raft C}

/-- A snapshot that is newer than the last one ends in the log or after it. -/
theorem Represented.first_le {index : Int} (h : Represented rf.log rf.snapshotLastIncludeIndex)
    (hnew : rf.snapshotLastIncludeIndex < index) : rf.log.firstLogIndex ≤ index := by
  rcases h.start with hstart | ⟨hstart, hincluded⟩
  · omega
  · omega

theorem effect_represented {action : Leadership.Action C} {f : Raft.Feed C}
    (h : Represented rf.log rf.snapshotLastIncludeIndex) (he : Raft.Effect rf action f) :
    Represented f.log f.included := by
  refine .of_shaped (he.shaped h.shaped) ?_
  cases he with
  | idle => exact h.start
  | append ha =>
    rw [Log.appendL_first ha]
    exact h.start
  | overwrite args _ =>
    rw [Log.overwriteFrom_first]
    exact h.start
  | apply _ _ _ => exact h.start
  | compact _ _ hc => exact Or.inl (Raft.compactTo_first (Raft.trimTo_eq rf _ ▸ hc))
  | install _ _ hc => exact Or.inl (Raft.compactTo_first hc)
  | deliver _ _ hc _ => exact Or.inl (Raft.compactTo_first hc)
  | torn hnew hc =>
    -- this panic does not happen
    obtain ⟨log, hlog⟩ := compactTo_succeeds h.fits (h.first_le hnew)
    rw [hlog] at hc
    cases hc

end Calls

/-! ### What handlers may rely on -/

/-- No slice expression is out of range and no nil is dereferenced. -/
structure InRange [Width] (rf : Raft C) : Prop where
  appendL : ∀ entries, ∃ log, rf.log.appendL entries = some log
  getEntryTerm : ∀ index, ∃ term, rf.getEntryTerm index = some term
  takeSnapshot : ∀ index snapshot, index ≤ rf.lastApplied →
    ∃ rf', rf.takeSnapshot index snapshot = some rf'
  requestInstallSnapshot : ∀ args, ∃ reply, (rf.requestInstallSnapshot args).2 = some reply

/-- The entries from `start` to the last index, one after the other. -/
structure Sends [Width] (log : Log C) (start : Int) : Prop where
  unclamped : 0 ≤ log.getRealIndex start ∧ log.getRealIndex log.lastLogIndex < log.entries.length
  length : ((log.getAppendEntries start).length : Int) = log.lastLogIndex - start + 1
  entry : ∀ i, start ≤ i → i ≤ log.lastLogIndex → ∃ entry, log.getOneEntry i = some entry ∧
    (log.getAppendEntries start)[(i - start).toNat]? = some entry

section Word
open scoped Word64

/-- The fields agree, and are within the bounds of an `int`. -/
structure Sound (rf : Raft C) : Prop where
  represented : Represented rf.log rf.snapshotLastIncludeIndex
  sized : rf.feed.Sized

theorem step_sound (action : Leadership.Action C) (s t : Leadership.Tenure C) (h : Sound s.node)
    (hb : Leadership.Bounded action s) (hs : Leadership.step action s = some t) : Sound t.node := by
  obtain ⟨heffect, hsized⟩ := Raft.step_unbounded h.sized hb hs
  exact ⟨effect_represented h.represented heffect, hsized⟩

theorem run_sound {peers : List String} {me : Int} {actions : List (Leadership.Action C)}
    {s : Leadership.Tenure C}
    (hb : Along Leadership.step Leadership.Bounded (Leadership.boot peers me makePersister) actions)
    (hs : run Leadership.step (Leadership.boot peers me makePersister) actions = some s) :
    Sound s.node := by
  have hboot : Sound (Leadership.boot peers me (makePersister : Persister C)).node :=
    ⟨.of_shaped (Raft.make_ordered peers me).shaped (Or.inr ⟨rfl, rfl⟩), Raft.make_sized peers me⟩
  exact run_invariant (P := fun s => Sound s.node) step_sound actions _ _ hboot hb hs

section Handlers
variable {rf : Raft C}

theorem appendL_succeeds {log : Log C} (h : log.Shaped) (hsized : log.Sized) (entries : List (Entry C)) :
    ∃ log', log.appendL entries = some log' := by
  obtain ⟨hlow, hhigh⟩ := hsized.last
  have hfirst := hsized.first
  rw [Log.Shaped] at h
  unfold Log.appendL Log.slice
  rw [hsized.getRealIndex_eq hlow (by omega), Word64.wrap_of_fits (i := log.lastLogIndex - _ + 1) ⟨by omega, by omega⟩,
    if_pos (by omega)]
  exact ⟨_, rfl⟩

theorem getOneEntry_succeeds {log : Log C} (h : log.Shaped) (hsized : log.Sized) {i : Int}
    (hfirst : log.firstLogIndex ≤ i) (hlast : i ≤ log.lastLogIndex) :
    ∃ entry, log.getOneEntry i = some entry := by
  have hlow := hsized.first
  have hhigh := hsized.last
  rw [hsized.getOneEntry_unbounded (by omega) (by omega)]
  exact Compaction.getOneEntry_fits (Fits.of_shaped h) hfirst hlast

theorem getEntryTerm_succeeds (h : rf.log.Shaped) (hsized : rf.log.Sized) (index : Int) :
    ∃ term, rf.getEntryTerm index = some term := by
  unfold Raft.getEntryTerm
  split_ifs with hbefore houtside
  · exact ⟨_, rfl⟩
  · exact ⟨_, rfl⟩
  · rw [not_or, Int.not_lt, Int.not_lt] at houtside
    obtain ⟨entry, hentry⟩ := getOneEntry_succeeds h hsized houtside.1 houtside.2
    rw [hentry]
    exact ⟨_, rfl⟩

/-- Up to an index that has been applied, the service can have the log compacted. -/
theorem takeSnapshot_succeeds (h : Sound rf) {index : Int} (happlied : index ≤ rf.lastApplied)
    (snapshot : List UInt8) : ∃ rf', rf.takeSnapshot index snapshot = some rf' := by
  have hsized : rf.log.Sized := h.sized.log
  obtain ⟨hlow, _⟩ := hsized.first
  have hhigh : rf.lastApplied < 2 ^ 63 - 1 := h.sized.applied.2
  unfold Raft.takeSnapshot
  split_ifs with hlead hfirst hbeyond
  · exact ⟨_, rfl⟩
  · omega
  · obtain ⟨term, hterm⟩ := getEntryTerm_succeeds h.represented.shaped hsized index
    obtain ⟨log, hlog⟩ := compactTo_succeeds h.represented.fits hfirst
    rw [hterm, Raft.trimTo_unbounded hsized (by omega) (by omega), Raft.trimTo_eq, hlog]
    exact ⟨_, rfl⟩
  · exact ⟨_, rfl⟩

/-- A leader's snapshot ends in the log, and the indices are in range, or at its end or after it, and
nothing of the slice is kept. -/
theorem install_succeeds (h : Sound rf) {index : Int} (hnew : rf.snapshotLastIncludeIndex < index) :
    ∃ log, rf.compactTo index = some log := by
  have hsized : rf.log.Sized := h.sized.log
  have hfirst := hsized.first
  have hlast := hsized.last
  have hle := h.represented.first_le hnew
  by_cases hend : index ≥ rf.log.lastLogIndex
  · unfold Raft.compactTo
    rw [if_pos hend]
    exact ⟨_, rfl⟩
  · rw [Raft.compactTo_unbounded hsized (by omega) (by omega)]
    exact compactTo_succeeds h.represented.fits hle

theorem installState_succeeds (args : RequestInstallSnapShotArgs) {log : Log C}
    (h : rf.compactTo args.lastIncludeIndex = some log) : (rf.installState args).2 = true := by
  unfold Raft.installState
  have hcompact : ({rf with
      snapshot := args.snapshot
      snapshotLastIncludeIndex := args.lastIncludeIndex
      snapshotLastIncludeTerm := args.lastIncludeTerm} : Raft C).compactTo args.lastIncludeIndex =
        some log := h
  dsimp only
  rw [hcompact]

theorem requestInstallSnapshot_succeeds (h : Sound rf) (args : RequestInstallSnapShotArgs) :
    ∃ reply, (rf.requestInstallSnapshot args).2 = some reply := by
  unfold Raft.requestInstallSnapshot
  by_cases hold : args.term < rf.currentTerm
  · rw [if_pos hold]
    exact ⟨_, rfl⟩
  rw [if_neg hold]
  dsimp only
  -- role, term and vote change before the log is looked at
  generalize hnode : (if args.term > rf.currentTerm then
    ({rf with state := .follower, votedFor := -1, currentTerm := args.term} : Raft C)
    else {rf with state := .follower}) = node
  have hfeed : node.feed = rf.feed := by
    rw [← hnode]
    split <;> rfl
  have hsound : Sound node := by
    have hlog : node.log = rf.log := congrArg Raft.Feed.log hfeed
    have hincluded : node.snapshotLastIncludeIndex = rf.snapshotLastIncludeIndex :=
      congrArg Raft.Feed.included hfeed
    refine ⟨?_, hfeed ▸ h.sized⟩
    rw [hlog, hincluded]
    exact h.represented
  by_cases hnew : args.lastIncludeIndex > node.snapshotLastIncludeIndex
  · obtain ⟨log, hcompact⟩ := install_succeeds hsound hnew
    rw [if_pos hnew]
    dsimp only
    rw [installState_succeeds args hcompact]
    exact ⟨_, rfl⟩
  · rw [if_neg hnew]
    exact ⟨_, rfl⟩

theorem Sound.inRange (h : Sound rf) : InRange rf where
  appendL := appendL_succeeds h.represented.shaped h.sized.log
  getEntryTerm := getEntryTerm_succeeds h.represented.shaped h.sized.log
  takeSnapshot := fun _ snapshot happlied => takeSnapshot_succeeds h happlied snapshot
  requestInstallSnapshot := requestInstallSnapshot_succeeds h

end Handlers

/-! ### What is sent to a follower -/

/-- From the first index on, what is sent is the rest of the slice. -/
theorem getAppendEntries_eq {log : Log C} (h : log.Shaped) (hsized : log.Sized) {start : Int}
    (hfirst : log.firstLogIndex ≤ start) (hlast : start ≤ log.lastLogIndex + 1) :
    log.getAppendEntries start = log.entries.drop (start - log.firstLogIndex).toNat := by
  have hlow := hsized.first
  have hhigh := hsized.last
  rw [Log.Shaped] at h
  unfold Log.getAppendEntries
  by_cases hrest : start ≤ log.lastLogIndex
  · -- neither end is clamped
    dsimp only
    rw [hsized.getRealIndex_eq (by omega) (by omega), hsized.getRealIndex_eq (by omega) (by omega),
      if_neg (by omega), if_neg (by omega), if_neg (by omega), if_neg (by omega), if_neg (by omega),
      Word64.wrap_of_fits ⟨by omega, by omega⟩, List.take_of_length_le (by omega)]
  · have hnil : log.entries.drop (start - log.firstLogIndex).toNat = [] :=
      List.drop_of_length_le (by omega)
    rw [hnil, if_pos (show start > log.lastLogIndex by omega), ite_self]

theorem sends {log : Log C} (h : log.Shaped) (hsized : log.Sized) {start : Int}
    (hfirst : log.firstLogIndex ≤ start) (hlast : start ≤ log.lastLogIndex + 1) : Sends log start := by
  have heq := getAppendEntries_eq h hsized hfirst hlast
  have hlow := hsized.first
  have hhigh := hsized.last
  have hlength := h
  rw [Log.Shaped] at hlength
  refine ⟨?_, ?_, ?_⟩
  · rw [hsized.getRealIndex_eq (by omega) (by omega), hsized.getRealIndex_eq (by omega) (by omega)]
    omega
  · rw [heq, List.length_drop]
    omega
  · intro i hi hile
    obtain ⟨entry, hentry⟩ := getOneEntry_succeeds h hsized (hfirst.trans hi) hile
    refine ⟨entry, hentry, ?_⟩
    have hposition : (start - log.firstLogIndex).toNat + (i - start).toNat =
        (i - log.firstLogIndex).toNat := by
      omega
    rw [heq, List.getElem?_drop, hposition, ← hentry, hsized.getOneEntry_unbounded (by omega) (by omega),
      Log.getOneEntry_eq, if_neg (by omega)]

/-- **The log's fields agree in every state that a node reaches without a restart**, whatever has
been called and with whatever arguments, as long as every index is below the largest `int`. So no
slice expression is out of range, no nil is dereferenced, and a follower is sent exactly the
entries from an index to the last one. -/
theorem log_represented (peers : List String) (me : Int) (actions : List (Leadership.Action C))
    (s : Leadership.Tenure C)
    (hb : Along Leadership.step Leadership.Bounded (Leadership.boot peers me makePersister) actions)
    (hs : run Leadership.step (Leadership.boot peers me makePersister) actions = some s) :
    Represented s.node.log s.node.snapshotLastIncludeIndex ∧ InRange s.node ∧
      ∀ start, s.node.log.firstLogIndex ≤ start → start ≤ s.node.log.lastLogIndex + 1 →
        Sends s.node.log start := by
  have hsound := run_sound hb hs
  exact ⟨hsound.represented, hsound.inRange, fun start => sends hsound.represented.shaped hsound.sized.log⟩

/-- A follower that has taken three entries and then a snapshot up to the second one has the third
one to send. -/
theorem log_represented_follower :
    ∃ s : Leadership.Tenure Nat, run Leadership.step (Leadership.boot ["a", "b", "c"] 2 makePersister)
        [.handleAppendEntriesRPC ⟨1, 1, -1, 0, [⟨1, 7⟩, ⟨1, 8⟩, ⟨1, 9⟩], 2⟩,
          .requestInstallSnapshot ⟨1, 1, 1, 1, []⟩] = some s ∧
      s.node.log.firstLogIndex = 2 ∧ Sends s.node.log 2 := by
  refine ⟨_, rfl, rfl, ?_⟩
  exact (log_represented ["a", "b", "c"] 2 [.handleAppendEntriesRPC ⟨1, 1, -1, 0, [⟨1, 7⟩, ⟨1, 8⟩, ⟨1, 9⟩], 2⟩,
    .requestInstallSnapshot ⟨1, 1, 1, 1, []⟩] _ (by decide) rfl).2.2 2 (by decide) (by decide)

/-- A snapshot up to the largest `int` leaves an empty log that begins at the smallest one: index 0
lies within it and has no entry. -/
theorem largest_snapshot_torn :
    ¬∀ (peers : List String) (me : Int) (actions : List (Leadership.Action Nat))
        (s : Leadership.Tenure Nat),
      run Leadership.step (Leadership.boot peers me makePersister) actions = some s →
      Represented s.node.log s.node.snapshotLastIncludeIndex ∧ InRange s.node ∧
        ∀ start, s.node.log.firstLogIndex ≤ start → start ≤ s.node.log.lastLogIndex + 1 →
          Sends s.node.log start := by
  intro h
  have hterm := (h ["a", "b", "c"] 2 [.requestInstallSnapshot ⟨1, 1, 2 ^ 63 - 1, 1, []⟩] _
    rfl).2.1.getEntryTerm 0
  rw [← Option.isSome_iff_exists] at hterm
  exact absurd hterm (by decide +kernel)

end Word
end Wjetcd.Shape
