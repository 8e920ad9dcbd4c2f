import Wjetcd.Raft.Effect

/-! What a node hands to its service.

`sendMsgToTester` hands over the entry after `LastApplied`, one at a time, and a
snapshot moves `LastApplied` ahead. `Ordered` is what holds of a node between steps,
and `Progress` what a step does to the entries that are still to come: an entry
stays where it is until it is handed over, unless an accepted message has an entry of
another term at its index or below it (`Cuts`). -/
namespace Wjetcd

variable {C : Type}

namespace Log

/-- The last index is the one the slice has, wherever the log starts. -/
def Shaped (log : Log C) : Prop := log.lastLogIndex = log.firstLogIndex + log.entries.length - 1

theorem newLog_shaped : (newLog : Log C).Shaped := rfl

theorem getOneEntry_eq (log : Log C) (i : Int) :
    log.getOneEntry i =
      if i < log.firstLogIndex then none else log.entries[(i - log.firstLogIndex).toNat]? := by
  unfold getOneEntry getRealIndex
  simp only [Width.wrap_unbounded]
  by_cases hlt : i < log.firstLogIndex
  · rw [if_pos hlt, if_pos (by omega)]
  · rw [if_neg hlt]
    split
    · rw [List.getElem?_eq_none (by omega)]
    · rfl

theorem Shaped.bounds {log : Log C} (h : log.Shaped) {i : Int} {entry : Entry C}
    (hi : log.getOneEntry i = some entry) : log.firstLogIndex ≤ i ∧ i ≤ log.lastLogIndex := by
  rw [getOneEntry_eq] at hi
  split at hi
  · cases hi
  · have hlt := (List.getElem?_eq_some_iff.mp hi).1
    rw [Shaped] at h
    omega

/-- Entries before the end stay when something is appended after some of them. -/
theorem getOneEntry_take_append (log : Log C) (tail : List (Entry C)) (last : Int) {k : Nat} {i : Int}
    (hk : k ≤ log.entries.length) (hi : i < log.firstLogIndex + k) :
    ({log with entries := log.entries.take k ++ tail, lastLogIndex := last} : Log C).getOneEntry i =
      log.getOneEntry i := by
  rw [getOneEntry_eq, getOneEntry_eq]
  dsimp only
  by_cases hlt : i < log.firstLogIndex
  · rw [if_pos hlt, if_pos hlt]
  · have hlen : (i - log.firstLogIndex).toNat < (log.entries.take k).length := by
      rw [List.length_take]
      omega
    rw [if_neg hlt, if_neg hlt, List.getElem?_append_left hlen, List.getElem?_take_of_lt (by omega)]

/-- One turn of the loop keeps what lies before its index. -/
theorem Shaped.overwrite {log log' : Log C} (h : log.Shaped) {idx b : Int} {entry : Entry C}
    (hlog : log.overwrite idx entry = some log') (hb : b ≤ log.lastLogIndex)
    (hcut : ∀ held, log.getOneEntry idx = some held → held.term ≠ entry.term → b < idx) :
    log'.Shaped ∧ b ≤ log'.lastLogIndex ∧ (∀ i ≤ b, log'.getOneEntry i = log.getOneEntry i) ∧
      (log' = log ∨ b < idx) := by
  unfold Log.overwrite Log.slice Log.getRealIndex at hlog
  simp only [Width.wrap_unbounded] at hlog
  split at hlog
  · cases hlog
    exact ⟨h, hb, fun _ _ => rfl, Or.inl rfl⟩
  rename_i hfirst
  split at hlog
  · rename_i hlast
    cases hheld : log.getOneEntry idx with
    | none =>
      rw [hheld] at hlog
      cases hlog
    | some held =>
      rw [hheld] at hlog
      dsimp only at hlog
      split at hlog
      · rename_i hterm
        have hlt := hcut held hheld hterm
        rw [Shaped] at h
        rw [if_pos (by omega)] at hlog
        cases hlog
        refine ⟨?_, by dsimp only; omega, ?_, Or.inr hlt⟩
        · show idx - 1 + 1 = log.firstLogIndex + ((log.entries.take _ ++ [entry]).length : Int) - 1
          rw [List.length_append, List.length_take, List.length_singleton]
          omega
        · intro i hi
          exact getOneEntry_take_append log [entry] _ (by omega) (by omega)
      · cases hlog
        exact ⟨h, hb, fun _ _ => rfl, Or.inl rfl⟩
  · cases hlog
    rw [Shaped] at h
    refine ⟨?_, by dsimp only; omega, ?_, Or.inr (by omega)⟩
    · show log.lastLogIndex + 1 = log.firstLogIndex + ((log.entries ++ [entry]).length : Int) - 1
      rw [List.length_append, List.length_singleton]
      omega
    · intro i hi
      have happ := getOneEntry_take_append log [entry] (log.lastLogIndex + 1)
        (le_refl log.entries.length) (show i < _ by omega)
      rwa [List.take_length] at happ

end Log

/-- A message's entry at `j` has another term than the log's, so the log is cut there. -/
def Cuts [Width] (log : Log C) (idx : Int) (entries : List (Entry C)) (j : Int) : Prop :=
  ∃ k entry held, entries[k]? = some entry ∧ j = idx + 1 + (k : Nat) ∧
    log.getOneEntry j = some held ∧ held.term ≠ entry.term

namespace Log

/-- The whole loop keeps what lies before the first cut. -/
theorem Shaped.overwriteFrom (entries : List (Entry C)) : ∀ (log : Log C) (idx b : Int), log.Shaped →
    b ≤ log.lastLogIndex → (∀ j, Cuts log idx entries j → b < j) →
    (log.overwriteFrom idx entries).1.Shaped ∧ b ≤ (log.overwriteFrom idx entries).1.lastLogIndex ∧
      ∀ i ≤ b, (log.overwriteFrom idx entries).1.getOneEntry i = log.getOneEntry i := by
  induction entries with
  | nil =>
    intro log idx b h hb _
    exact ⟨h, hb, fun _ _ => rfl⟩
  | cons entry rest ih =>
    intro log idx b h hb hcuts
    unfold Log.overwriteFrom
    cases hlog : log.overwrite (idx + 1) entry with
    | none => exact ⟨h, hb, fun _ _ => rfl⟩
    | some log' =>
      obtain ⟨hshaped, hb', hkept, hnext⟩ := h.overwrite hlog hb fun held hheld hterm =>
        hcuts (idx + 1) ⟨0, entry, held, rfl, by simp, hheld, hterm⟩
      obtain ⟨hs, hlast, hrest⟩ := ih log' (idx + 1) b hshaped hb' (by
        rintro j ⟨k, e, held, he, hj, hheld, hterm⟩
        rcases hnext with rfl | hlt
        · exact hcuts j ⟨k + 1, e, held, he, by push_cast; omega, hheld, hterm⟩
        · omega)
      exact ⟨hs, hlast, fun i hi => (hrest i hi).trans (hkept i hi)⟩

/-- The loop wherever it cuts. -/
theorem Shaped.overwriteFrom_any {log : Log C} (h : log.Shaped) (idx : Int) (entries : List (Entry C)) :
    (log.overwriteFrom idx entries).1.Shaped := by
  -- nothing is cut at or below the lower of these
  refine (Shaped.overwriteFrom entries log idx (min log.lastLogIndex idx) h (min_le_left _ _) ?_).1
  intro j hcuts
  obtain ⟨k, _, _, _, hj, _⟩ := hcuts
  omega

theorem appendL_shaped {log log' : Log C} {entries : List (Entry C)}
    (h : log.appendL entries = some log') : log'.Shaped := by
  obtain ⟨kept, hslice, rfl⟩ := Option.map_eq_some_iff.mp h
  unfold Log.slice Log.getRealIndex at hslice
  simp only [Width.wrap_unbounded] at hslice
  split at hslice
  · cases hslice
    simp only [Shaped, List.length_append, List.length_take, Width.wrap_unbounded]
    omega
  · cases hslice

/-- The slice expression of `appendL` keeps the whole slice. -/
theorem Shaped.appendL_eq {log : Log C} (h : log.Shaped) (entries : List (Entry C)) :
    log.appendL entries = some {log with
      entries := log.entries ++ entries
      lastLogIndex := log.lastLogIndex + entries.length} := by
  rw [Shaped] at h
  have hslice : log.slice (log.getRealIndex log.lastLogIndex + 1) = some log.entries := by
    unfold Log.slice Log.getRealIndex
    simp only [Width.wrap_unbounded]
    rw [if_pos (by omega), List.take_of_length_le (by omega)]
  rw [appendL, Width.wrap_unbounded, Width.wrap_unbounded, hslice]
  rfl

/-- Dropping what lies before an index keeps the entries after it. -/
theorem getOneEntry_drop (log : Log C) {index i : Int} (hfirst : log.firstLogIndex ≤ index + 1)
    (hi : index < i) :
    (⟨log.entries.drop (index + 1 - log.firstLogIndex).toNat, index + 1, log.lastLogIndex⟩ : Log C).getOneEntry
      i = log.getOneEntry i := by
  rw [getOneEntry_eq, getOneEntry_eq]
  dsimp only
  rw [if_neg (by omega), if_neg (by omega), List.getElem?_drop]
  congr 1
  omega

end Log

namespace Raft

/-- Between steps: the queue has seen exactly what has been applied, which is in the log. -/
structure Ordered (rf : Raft C) : Prop where
  shaped : rf.log.Shaped
  bounded : rf.lastApplied ≤ rf.log.lastLogIndex
  item : rf.applyHelper.lastItemIndex = rf.lastApplied

/-- What a step does to the entries still to come at the indices `W`, and to the queue. -/
structure Progress (W : Int → Prop) (rf rf' : Raft C) : Prop where
  ordered : rf'.Ordered
  applied : rf.lastApplied ≤ rf'.lastApplied
  kept : ∀ i entry, W i → rf'.lastApplied < i → rf.log.getOneEntry i = some entry →
    rf'.log.getOneEntry i = some entry
  queued : rf'.applyHelper.q = rf.applyHelper.q ∨
    (∃ index term data, rf'.applyHelper.q = rf.applyHelper.q ++ [.snapshot index term data]) ∨
    ∃ entry, rf.log.getOneEntry rf'.lastApplied = some entry ∧ rf.lastApplied < rf'.lastApplied ∧
      rf'.applyHelper.q = rf.applyHelper.q ++ [.command rf'.lastApplied entry.command]

section Steps
variable {W : Int → Prop} {rf rf' : Raft C}

/-- The index of the snapshot does not matter to the service. -/
theorem quiet_progress (ho : rf.Ordered) {index : Int} (h : rf'.feed = {rf.feed with included := index}) :
    Progress W rf rf' := by
  have hlog : rf'.log = rf.log := congrArg Feed.log h
  have happlied : rf'.lastApplied = rf.lastApplied := congrArg Feed.lastApplied h
  have hhelper : rf'.applyHelper = rf.applyHelper := congrArg Feed.helper h
  refine ⟨⟨?_, ?_, ?_⟩, happlied.ge, ?_, Or.inl (by rw [hhelper])⟩
  · rw [hlog]
    exact ho.shaped
  · rw [hlog, happlied]
    exact ho.bounded
  · rw [hhelper, happlied]
    exact ho.item
  · intro i entry _ _ hi
    rw [hlog]
    exact hi

/-! ### Steps that touch the log or the queue -/

theorem overwrite_progress (ho : rf.Ordered) {args : RequestAppendEntriesArgs C} (hw : W rf.lastApplied)
    (hcuts : ∀ j, Cuts rf.log args.prevLogIndex args.entries j → ∀ i, W i → i < j)
    (h : rf'.feed = {rf.feed with log := (rf.log.overwriteFrom args.prevLogIndex args.entries).1}) :
    Progress W rf rf' := by
  have hlog : rf'.log = (rf.log.overwriteFrom args.prevLogIndex args.entries).1 := congrArg Feed.log h
  have happlied : rf'.lastApplied = rf.lastApplied := congrArg Feed.lastApplied h
  have hhelper : rf'.applyHelper = rf.applyHelper := congrArg Feed.helper h
  obtain ⟨hshaped, hbound, _⟩ := Log.Shaped.overwriteFrom args.entries rf.log args.prevLogIndex
    rf.lastApplied ho.shaped ho.bounded fun j hj => hcuts j hj _ hw
  refine ⟨⟨?_, ?_, ?_⟩, happlied.ge, ?_, Or.inl (by rw [hhelper])⟩
  · rw [hlog]
    exact hshaped
  · rw [hlog, happlied]
    exact hbound
  · rw [hhelper, happlied]
    exact ho.item
  · intro i entry hwi _ hi
    have hkept := (Log.Shaped.overwriteFrom args.entries rf.log args.prevLogIndex i ho.shaped
      (ho.shaped.bounds hi).2 fun j hj => hcuts j hj i hwi).2.2 i le_rfl
    rw [hlog, hkept]
    exact hi

/-- The two ways to compact are one. -/
theorem trimTo_eq (rf : Raft C) (index : Int) : rf.trimTo index = rf.compactTo index := by
  unfold trimTo compactTo
  simp only [Width.wrap_unbounded, Int.add_sub_cancel]
  by_cases hend : index ≥ rf.log.lastLogIndex
  · rw [if_neg (by omega), if_pos hend]
  · rw [if_pos (by omega), if_neg hend]

/-- What a compaction leaves: nothing, or the part of the slice after the index. -/
theorem compactTo_cases {index : Int} {log : Log C} (h : rf.compactTo index = some log) :
    (rf.log.lastLogIndex ≤ index ∧ log = ⟨[], index + 1, index⟩) ∨
    (index < rf.log.lastLogIndex ∧ rf.log.firstLogIndex ≤ index + 1 ∧
      index + 1 - rf.log.firstLogIndex ≤ rf.log.entries.length ∧
      log = ⟨rf.log.entries.drop (index + 1 - rf.log.firstLogIndex).toNat, index + 1,
        rf.log.lastLogIndex⟩) := by
  unfold compactTo Log.getRealIndex at h
  simp only [Width.wrap_unbounded] at h
  split at h
  · rename_i hge
    cases h
    exact Or.inl ⟨hge, rfl⟩
  · rename_i hlt
    split at h
    · rename_i hk
      cases h
      exact Or.inr ⟨by omega, by omega, hk.2, rfl⟩
    · cases h

theorem compactTo_first {index : Int} {log : Log C} (h : rf.compactTo index = some log) :
    log.firstLogIndex = index + 1 := by
  rcases compactTo_cases h with ⟨_, rfl⟩ | ⟨_, _, _, rfl⟩
  · rfl
  · rfl

/-- Compaction keeps the entries after its index. -/
theorem compactTo_kept (h : rf.log.Shaped) {index : Int} {log : Log C}
    (hlog : rf.compactTo index = some log) :
    log.Shaped ∧ (index ≤ log.lastLogIndex ∧ rf.log.lastLogIndex ≤ log.lastLogIndex) ∧
      ∀ i entry, index < i → rf.log.getOneEntry i = some entry → log.getOneEntry i = some entry := by
  rcases compactTo_cases hlog with ⟨hge, rfl⟩ | ⟨hlt, hfirst, hlength, rfl⟩
  · refine ⟨?_, ⟨le_rfl, hge⟩, ?_⟩
    · simp [Log.Shaped]
    · intro i entry hi hentry
      exact absurd (h.bounds hentry).2 (by omega)
  · refine ⟨?_, ⟨hlt.le, le_rfl⟩, ?_⟩
    · rw [Log.Shaped] at h ⊢
      dsimp only
      rw [List.length_drop]
      omega
    · intro i entry hi hentry
      rw [Log.getOneEntry_drop rf.log hfirst hi]
      exact hentry

/-- The log is compacted up to an entry that has been applied. -/
theorem compact_progress (ho : rf.Ordered) {index : Int} {log : Log C} (happlied : index ≤ rf.lastApplied)
    (hlog : rf.compactTo index = some log)
    (h : rf'.feed = {rf.feed with log := log, included := index}) : Progress W rf rf' := by
  obtain ⟨hshaped, ⟨_, hlast⟩, hkept⟩ := compactTo_kept ho.shaped hlog
  have hlog' : rf'.log = log := congrArg Feed.log h
  have happlied' : rf'.lastApplied = rf.lastApplied := congrArg Feed.lastApplied h
  have hhelper : rf'.applyHelper = rf.applyHelper := congrArg Feed.helper h
  refine ⟨⟨?_, ?_, ?_⟩, happlied'.ge, ?_, Or.inl (by rw [hhelper])⟩
  · rw [hlog']
    exact hshaped
  · rw [hlog', happlied']
    exact ho.bounded.trans hlast
  · rw [hhelper, happlied']
    exact ho.item
  · intro i entry _ hi hentry
    rw [hlog']
    exact hkept i entry (by omega) hentry

/-- A snapshot takes the place of the entries up to its index. -/
theorem snapshot_progress (ho : rf.Ordered) {index term : Int} {data : List UInt8} {log : Log C}
    {helper : ApplyHelper C} (happlied : rf.lastApplied < index) (hlog : rf.compactTo index = some log)
    (hhelper : rf.applyHelper.tryApply (.snapshot index term data) = some helper)
    (h : rf'.feed = ⟨log, index, index, helper⟩) : Progress W rf rf' := by
  obtain ⟨hshaped, ⟨hindex, _⟩, hkept⟩ := compactTo_kept ho.shaped hlog
  have hlog' : rf'.log = log := congrArg Feed.log h
  have happlied' : rf'.lastApplied = index := congrArg Feed.lastApplied h
  have hitem := ho.item
  rw [ApplyHelper.tryApply, if_neg (by omega)] at hhelper
  cases hhelper
  have hhelper' : rf'.applyHelper = _ := congrArg Feed.helper h
  refine ⟨⟨?_, ?_, ?_⟩, by omega, ?_, Or.inr (Or.inl ⟨index, term, data, by rw [hhelper']⟩)⟩
  · rw [hlog']
    exact hshaped
  · rw [hlog', happlied']
    exact hindex
  · rw [hhelper', happlied']
  · intro i entry _ hi hentry
    rw [hlog']
    exact hkept i entry (by omega) hentry

/-- The next entry goes into the queue. -/
theorem apply_progress (ho : rf.Ordered) {entry : Entry C} {helper : ApplyHelper C}
    (hentry : rf.log.getOneEntry (rf.lastApplied + 1) = some entry)
    (hhelper : rf.applyHelper.tryApply (.command (rf.lastApplied + 1) entry.command) = some helper)
    (h : rf'.feed = {rf.feed with lastApplied := rf.lastApplied + 1, helper := helper}) :
    Progress W rf rf' := by
  have hlog : rf'.log = rf.log := congrArg Feed.log h
  have happlied : rf'.lastApplied = rf.lastApplied + 1 := congrArg Feed.lastApplied h
  have hitem := ho.item
  rw [ApplyHelper.tryApply, Width.wrap_unbounded, if_neg (by omega), if_pos (by omega)] at hhelper
  cases hhelper
  have hhelper' : rf'.applyHelper = _ := congrArg Feed.helper h
  refine ⟨⟨?_, ?_, ?_⟩, by omega, ?_, Or.inr (Or.inr ⟨entry, ?_, by omega, ?_⟩)⟩
  · rw [hlog]
    exact ho.shaped
  · rw [hlog, happlied]
    exact (ho.shaped.bounds hentry).2
  · rw [hhelper', happlied, ← hitem]
  · intro i e _ _ he
    rw [hlog]
    exact he
  · rw [happlied]
    exact hentry
  · rw [hhelper', happlied]

/-- What a leader does with a command: one entry more, and nothing else moves. -/
theorem start_spec (ho : rf.Ordered) (hlead : rf.state = .leader) (command : C) :
    ∃ rf', rf.start command = some (rf', rf.log.lastLogIndex + 1, rf.currentTerm, true) ∧
      rf'.Ordered ∧ rf'.lastApplied = rf.lastApplied ∧ rf'.applyHelper = rf.applyHelper ∧
      rf'.log.getOneEntry (rf.log.lastLogIndex + 1) = some ⟨rf.currentTerm, command⟩ ∧
      ∀ i entry, rf.log.getOneEntry i = some entry → rf'.log.getOneEntry i = some entry := by
  have hshaped := ho.shaped
  have hbounded := ho.bounded
  rw [Log.Shaped] at hshaped
  have hkept := fun i entry (hentry : rf.log.getOneEntry i = some entry) =>
    (Log.getOneEntry_take_append rf.log [⟨rf.currentTerm, command⟩] (rf.log.lastLogIndex + 1)
      (le_refl rf.log.entries.length) (by have := (ho.shaped.bounds hentry).2; omega)).trans hentry
  rw [List.take_length] at hkept
  unfold start
  rw [if_neg (not_not_intro hlead), ho.shaped.appendL_eq]
  refine ⟨_, rfl, ⟨?_, ?_, ?_⟩, by simp, by simp, ?_, ?_⟩
  · rw [persist_log, Log.Shaped]
    dsimp only
    rw [List.length_append, List.length_singleton]
    push_cast
    omega
  · rw [persist_log, persist_lastApplied]
    dsimp only
    rw [List.length_singleton]
    push_cast
    omega
  · rw [persist_applyHelper, persist_lastApplied]
    exact ho.item
  · rw [persist_log, Log.getOneEntry_eq]
    dsimp only
    have hend : (rf.log.lastLogIndex + 1 - rf.log.firstLogIndex).toNat - rf.log.entries.length = 0 := by
      omega
    rw [if_neg (by omega), List.getElem?_append_right (by omega), hend]
    rfl
  · intro i entry hentry
    rw [persist_log]
    exact hkept i entry hentry

end Steps

/-- Every call keeps the shape of the log. -/
theorem Effect.shaped {rf : Raft C} {action : Leadership.Action C} {f : Feed C} (h : rf.log.Shaped)
    (he : Effect rf action f) : f.log.Shaped := by
  cases he with
  | idle => exact h
  | append ha => exact Log.appendL_shaped ha
  | overwrite args _ => exact h.overwriteFrom_any args.prevLogIndex args.entries
  | apply _ _ _ => exact h
  | compact _ _ hc => exact (compactTo_kept h (trimTo_eq rf _ ▸ hc)).1
  | install _ _ hc => exact (compactTo_kept h hc).1
  | deliver _ _ hc _ => exact (compactTo_kept h hc).1
  | torn _ _ => exact h

theorem make_ordered (peers : List String) (me : Int) :
    (make peers me (makePersister : Persister C)).Ordered := ⟨Log.newLog_shaped, le_rfl, rfl⟩

/-- An accepted message cuts the log only after every index in `W`. -/
def CutsAfter [Width] (W : Int → Prop) (action : Leadership.Action C) (rf : Raft C) : Prop :=
  match action with
  | .handleAppendEntriesRPC args =>
    rf.Accepts args → ∀ j, Cuts rf.log args.prevLogIndex args.entries j → ∀ i, W i → i < j
  | _ => True

/-- Every call but `Start`. -/
theorem Effect.progress {W : Int → Prop} {action : Leadership.Action C} {rf rf' : Raft C}
    (ho : rf.Ordered) (hw : W rf.lastApplied) (hcuts : CutsAfter W action rf)
    (hstart : ∀ cmd, action ≠ .start cmd) (he : Effect rf action rf'.feed) : Progress W rf rf' := by
  generalize hfeed : rf'.feed = f at he
  cases he with
  | idle => exact quiet_progress ho hfeed
  | append _ => exact absurd rfl (hstart _)
  | overwrite args haccepts => exact overwrite_progress ho hw (hcuts haccepts) hfeed
  | apply _ hentry hhelper => exact apply_progress ho hentry hhelper hfeed
  | @compact index _ _ _ happlied hlog =>
    rw [trimTo_eq] at hlog
    exact compact_progress ho happlied hlog hfeed
  | install _ happlied hlog => exact compact_progress ho happlied hlog hfeed
  | deliver _ happlied hlog hhelper => exact snapshot_progress ho happlied hlog hhelper hfeed
  | torn _ _ => exact quiet_progress ho hfeed

/-- What `LastApplied` does not move past, or moves past with the entry put into the queue. -/
structure Handed (P : Prop) (rf rf' : Raft C) : Prop where
  applied : rf.lastApplied ≤ rf'.lastApplied
  queue : rf.applyHelper.q ⊆ rf'.applyHelper.q
  /-- Unless `P`, nothing is passed over. -/
  passed : ∀ i, rf.lastApplied < i → i ≤ rf'.lastApplied →
    P ∨ ∃ command, .command i command ∈ rf'.applyHelper.q

theorem Handed.of_eq {P : Prop} {rf rf' : Raft C} (happlied : rf'.lastApplied = rf.lastApplied)
    (hhelper : rf'.applyHelper = rf.applyHelper) : Handed P rf rf' where
  applied := happlied.ge
  queue := by
    rw [hhelper]
    exact List.Subset.refl _
  passed i hlt hle := by omega

/-- `LastApplied` moves by one at a time; only a snapshot makes it jump, to its own index. -/
theorem Effect.handed {action : Leadership.Action C} {rf rf' : Raft C} (ho : rf.Ordered)
    (he : Effect rf action rf'.feed) :
    Handed (∃ args, action = .requestInstallSnapshot args ∧ rf'.lastApplied = args.lastIncludeIndex)
      rf rf' := by
  have hitem := ho.item
  generalize hfeed : rf'.feed = f at he
  have hhelper' : rf'.applyHelper = f.helper := congrArg Feed.helper hfeed
  have happlied' : rf'.lastApplied = f.lastApplied := congrArg Feed.lastApplied hfeed
  cases he with
  | idle => exact Handed.of_eq happlied' hhelper'
  | append _ => exact Handed.of_eq happlied' hhelper'
  | overwrite _ _ => exact Handed.of_eq happlied' hhelper'
  | apply _ _ hhelper =>
    simp only [Width.wrap_unbounded] at happlied' hhelper
    rw [ApplyHelper.tryApply, Width.wrap_unbounded, if_neg (by omega), if_pos (by omega)] at hhelper
    cases hhelper
    dsimp only at hhelper'
    refine ⟨by omega, ?_, ?_⟩
    · rw [hhelper']
      exact List.subset_append_left _ _
    · intro i hlt hle
      obtain rfl : i = rf.lastApplied + 1 := by omega
      rw [hhelper']
      exact Or.inr ⟨_, List.mem_append_right _ List.mem_cons_self⟩
  | compact _ _ _ => exact Handed.of_eq happlied' hhelper'
  | install _ _ _ => exact Handed.of_eq happlied' hhelper'
  | deliver _ happlied _ hhelper =>
    rw [ApplyHelper.tryApply, if_neg (by omega)] at hhelper
    cases hhelper
    dsimp only at happlied' hhelper'
    refine ⟨by omega, ?_, fun _ _ _ => Or.inl ⟨_, rfl, happlied'⟩⟩
    rw [hhelper']
    exact List.subset_append_left _ _
  | torn _ _ => exact Handed.of_eq happlied' hhelper'

end Raft

end Wjetcd
