import Wjetcd.Raft.Durable

/-! What is left of the handlers' checks once a log has been compacted.

`handleAppendEntriesRPC` compares the term of the entry at `PrevLogIndex` and guards that
only against an index beyond the log. An index from before the log has no entry either: the
handler dereferences nil. The index of the snapshot itself is one of those, so that the message
that continues right after a snapshot is never accepted unless the snapshot ends at index 0,
where the comparison is skipped (`append_panics_iff`, for indices below the largest `int`).

`RequestVote` skips its comparison for an empty log. A log is also empty when everything in it
went into a snapshot, and then the voter knows a last term and index which it does not
look at (`votes_up_to_date_iff`). -/
namespace Wjetcd.Compaction
open Runs Durable

variable {C : Type}

/-! ### Append messages -/

/-- The slice has an entry for every index of the log. -/
theorem getOneEntry_fits {log : Log C} (h : Fits log) {i : Int} (hfirst : log.firstLogIndex ≤ i)
    (hlast : i ≤ log.lastLogIndex) : ∃ entry, log.getOneEntry i = some entry := by
  rw [Fits] at h
  rw [Log.getOneEntry_eq, if_neg (by omega)]
  exact ⟨_, List.getElem?_eq_getElem (by omega)⟩

theorem overwrite_succeeds {log : Log C} (h : Fits log) (idx : Int) (entry : Entry C) :
    ∃ log', log.overwrite idx entry = some log' := by
  unfold Log.overwrite
  split
  · exact ⟨_, rfl⟩
  rename_i hfirst
  split
  · rename_i hlast
    obtain ⟨held, hheld⟩ := getOneEntry_fits h (Int.not_lt.mp hfirst) hlast
    rw [hheld]
    dsimp only
    split
    · -- the conflicting index is inside the slice
      rw [Fits] at h
      unfold Log.slice Log.getRealIndex
      simp only [Width.wrap_unbounded]
      rw [if_pos (by omega)]
      exact ⟨_, rfl⟩
    · exact ⟨_, rfl⟩
  · exact ⟨_, rfl⟩

/-- The loop over the entries never panics. -/
theorem overwriteFrom_succeeds (entries : List (Entry C)) : ∀ (log : Log C) (idx : Int), Fits log →
    (log.overwriteFrom idx entries).2 = true := by
  induction entries with
  | nil =>
    intro log idx _
    rfl
  | cons entry rest ih =>
    intro log idx h
    obtain ⟨log', hlog⟩ := overwrite_succeeds h (idx + 1) entry
    rw [Log.overwriteFrom, Width.wrap_unbounded, hlog]
    exact ih log' (idx + 1) (overwrite_fits h hlog)

/-- What is answered is what the check of the previous entry says. -/
theorem handleAppendEntriesRPC_success [Width] {rf : Raft C} {args : RequestAppendEntriesArgs C}
    (hloop : (rf.log.overwriteFrom args.prevLogIndex args.entries).2 = true) :
    (rf.handleAppendEntriesRPC args).2.map RequestAppendEntriesReply.success =
      if rf.dead ∨ args.leaderTerm < rf.currentTerm then some false else rf.matchesPrev args := by
  unfold Raft.handleAppendEntriesRPC
  by_cases hdead : rf.dead = true
  · rw [if_pos hdead, if_pos (Or.inl hdead)]
    rfl
  by_cases hterm : args.leaderTerm < rf.currentTerm
  · rw [if_neg hdead, if_pos hterm, if_pos (Or.inr hterm)]
    rfl
  rw [if_neg hdead, if_neg hterm, if_neg (not_or.mpr ⟨hdead, hterm⟩)]
  dsimp only
  rw [Raft.matchesPrev_observeLeader, (rf.observeLeader_kept args.leaderTerm).1, hloop]
  cases hprev : rf.matchesPrev args with
  | none => rfl
  | some agrees => cases agrees <;> rfl

/-- The check dereferences nil at an index before the log. -/
theorem matchesPrev_none {rf : Raft C} (h : Fits rf.log) (args : RequestAppendEntriesArgs C) :
    rf.matchesPrev args = none ↔ 0 < args.prevLogIndex ∧ args.prevLogIndex < rf.log.firstLogIndex ∧
      args.prevLogIndex ≤ rf.log.lastLogIndex := by
  unfold Raft.matchesPrev
  split_ifs with hpos hlast
  · simp only [false_iff]
    omega
  · rw [Option.map_eq_none_iff]
    constructor
    · intro hnone
      refine ⟨hpos, Int.not_le.mp fun hfirst => ?_, Int.not_lt.mp hlast⟩
      obtain ⟨entry, hentry⟩ := getOneEntry_fits h hfirst (Int.not_lt.mp hlast)
      rw [hentry] at hnone
      cases hnone
    · rintro ⟨_, hfirst, _⟩
      rw [Log.getOneEntry_eq, if_pos hfirst]
  · simp only [false_iff]
    omega

/-- No index before the log passes the check, but for those that are not checked. -/
theorem matchesPrev_before {rf : Raft C} {args : RequestAppendEntriesArgs C}
    (hbefore : args.prevLogIndex < rf.log.firstLogIndex) :
    rf.matchesPrev args = some true ↔ args.prevLogIndex ≤ 0 := by
  unfold Raft.matchesPrev
  rw [Log.getOneEntry_eq, if_pos hbefore]
  split_ifs with hpos hlast
  · simp only [Option.some.injEq, Bool.false_eq_true, false_iff]
    omega
  · simp only [Option.map_none, reduceCtorEq, false_iff]
    omega
  · simp only [true_iff]
    omega

section Word
open scoped Word64

/-- Log and snapshot fit together, within the bounds of an `int`. -/
structure Ranged (log : Log C) (included : Int) : Prop where
  aligned : Aligned log included
  sized : log.Sized
  included : 0 ≤ included ∧ included < 2 ^ 63 - 1

theorem newLog_ranged : Ranged (Log.newLog : Log C) 0 where
  aligned := newLog_aligned
  sized := (Raft.make_sized [] 0).log
  included := (Raft.make_sized (C := C) [] 0).included

theorem decode_ranged {log : Log C} {included : Int} (h : Ranged log included) :
    Ranged (Raft.gobDecodeLog Log.newLog log) included := by
  refine ⟨decode_aligned h.aligned, ?_, h.included⟩
  have hlast := h.sized.last
  rw [gobDecodeLog_newLog]
  refine ⟨h.sized.first, ?_⟩
  dsimp only
  split <;> omega

/-- What holds of a node over all its lives. -/
structure Lasting (rf : Raft C) : Prop where
  kept : Kept Ranged rf
  sized : rf.feed.Sized

/-- A node that starts on what is on disk has its counters in range. -/
theorem restart_lasting (peers : List String) (me : Int) {persister : Persister C}
    (h : Ranged (onDisk persister).log (onDisk persister).snapshotLastIncludeIndex) :
    Lasting (Raft.make peers me persister) := by
  have hkept := restart_kept peers me decode_ranged h
  refine ⟨hkept, hkept.memory.sized, hkept.memory.included, ?_, ?_⟩
  · show -1 ≤ (Raft.make peers me persister).lastApplied ∧
      (Raft.make peers me persister).lastApplied < 2 ^ 63 - 1
    cases hdisk : persister.raftstate with
    | none =>
      have hfresh : (Raft.make peers me persister).lastApplied = -1 := by
        unfold Raft.make Raft.readPersist
        dsimp only
        rw [hdisk]
      rw [hfresh]
      decide
    | some data =>
      have hincluded := h.included
      rw [onDisk, hdisk, Option.getD_some] at hincluded
      rw [make_lastApplied hdisk]
      omega
  · rfl

/-- The calls are in bounds. -/
def Bounded (event : Event C) (s : Leadership.Tenure C) : Prop :=
  match event with
  | .call action => Leadership.Bounded action s
  | .restart => True

instance (event : Event C) (s : Leadership.Tenure C) : Decidable (Bounded event s) := by
  unfold Bounded
  split <;> infer_instance

theorem life_lasting (event : Event C) (s t : Leadership.Tenure C) (h : Lasting s.node)
    (hb : Bounded event s) (hs : life event s = some t) : Lasting t.node := by
  cases event with
  | call action =>
    obtain ⟨heffect, hsized⟩ := Raft.step_unbounded h.sized hb hs
    have haligned := effect_aligned h.kept.memory.aligned heffect
    exact ⟨step_kept h.kept ⟨haligned, hsized.log, hsized.included⟩ hs, hsized⟩
  | restart =>
    cases hs
    exact restart_lasting _ _ h.kept.disk

/-- **An append message makes the handler dereference nil exactly if it is not refused for its
term and its previous index lies before the log**, positive and not beyond the log's end. The
message that continues a snapshot at which the log was compacted is accepted exactly if
the snapshot ends at index 0. This holds over all lives of a node, as long as every index is
below the largest `int`. -/
theorem append_panics_iff (peers : List String) (me : Int) (events : List (Event C))
    (s : Leadership.Tenure C) (hb : Along life Bounded (Leadership.boot peers me makePersister) events)
    (hs : run life (Leadership.boot peers me makePersister) events = some s)
    (args : RequestAppendEntriesArgs C) (hargs : Raft.InBounds (.handleAppendEntriesRPC args) s.node) :
    ((s.node.handleAppendEntriesRPC args).2 = none ↔
      s.node.dead = false ∧ s.node.currentTerm ≤ args.leaderTerm ∧
        0 < args.prevLogIndex ∧ args.prevLogIndex < s.node.log.firstLogIndex ∧
          args.prevLogIndex ≤ s.node.log.lastLogIndex) ∧
    (s.node.log.firstLogIndex = s.node.snapshotLastIncludeIndex + 1 →
      args.leaderTerm = s.node.currentTerm →
      args.prevLogIndex = s.node.snapshotLastIncludeIndex →
      args.prevLogTerm = s.node.snapshotLastIncludeTerm →
      ((∃ reply, (s.node.handleAppendEntriesRPC args).2 = some reply ∧ reply.success = true) ↔
        s.node.dead = false ∧ s.node.snapshotLastIncludeIndex = 0)) := by
  have hboot : Lasting (Leadership.boot peers me (makePersister : Persister C)).node :=
    restart_lasting _ _ newLog_ranged
  have hlasting := run_invariant (P := fun s => Lasting s.node) life_lasting events _ _ hboot hb hs
  obtain ⟨haligned, hsized, hincluded, _⟩ := hlasting.kept.memory
  have hprevious : s.node.matchesPrev args = @Raft.matchesPrev C Width.unbounded s.node args :=
    Raft.matchesPrev_unbounded hsized (by have := hargs.2; omega)
  have hloop : (s.node.log.overwriteFrom args.prevLogIndex args.entries).2 = true := by
    rw [hsized.overwriteFrom_unbounded args.entries hargs.1 hargs.2]
    exact overwriteFrom_succeeds _ _ _ haligned.fits
  have hanswer := handleAppendEntriesRPC_success hloop
  rw [hprevious] at hanswer
  refine ⟨?_, ?_⟩
  · rw [← Option.map_eq_none_iff, hanswer, ← matchesPrev_none haligned.fits]
    split_ifs with hrefused
    · simp only [false_iff]
      rintro ⟨hdead, hterm, _⟩
      rcases hrefused with h | h
      · rw [hdead] at h
        cases h
      · omega
    · rw [not_or, Bool.not_eq_true, Int.not_lt] at hrefused
      exact ⟨fun h => ⟨hrefused.1, hrefused.2, h⟩, fun h => h.2.2⟩
  · intro hcompacted hterm hprev _
    have hbefore : args.prevLogIndex < s.node.log.firstLogIndex := by omega
    have hsuccess : (∃ reply, (s.node.handleAppendEntriesRPC args).2 = some reply ∧ reply.success = true) ↔
        (s.node.handleAppendEntriesRPC args).2.map RequestAppendEntriesReply.success = some true :=
      Option.map_eq_some_iff.symm
    rw [hsuccess, hanswer]
    split_ifs with hrefused
    · rcases hrefused with h | h
      · simp [h]
      · omega
    · rw [not_or, Bool.not_eq_true] at hrefused
      rw [matchesPrev_before hbefore, hprev]
      constructor
      · intro hzero
        exact ⟨hrefused.1, by omega⟩
      · intro h
        omega

/-- A follower that was sent a snapshot up to index 5 refuses a message that starts after it. -/
theorem append_panics_iff_beyond :
    ∃ s : Leadership.Tenure Nat, run life (Leadership.boot ["a", "b", "c"] 2 makePersister)
        [.call (.requestInstallSnapshot ⟨1, 1, 5, 1, []⟩)] = some s ∧
      (s.node.handleAppendEntriesRPC ⟨1, 1, 6, 1, [], 0⟩).2 ≠ none := by
  refine ⟨_, rfl, ?_⟩
  intro hnone
  have hpanic := (append_panics_iff ["a", "b", "c"] 2 [.call (.requestInstallSnapshot ⟨1, 1, 5, 1, []⟩)] _
    (by decide) rfl ⟨1, 1, 6, 1, [], 0⟩ (by decide)).1.mp hnone
  exact absurd hpanic (by decide)

/-- The message that continues the snapshot makes it dereference nil. -/
theorem append_after_snapshot_panics :
    ¬∀ (peers : List String) (me : Int) (events : List (Event Nat)) (s : Leadership.Tenure Nat),
      run life (Leadership.boot peers me makePersister) events = some s →
      ∀ args : RequestAppendEntriesArgs Nat, (s.node.handleAppendEntriesRPC args).2 ≠ none ∧
        (s.node.log.firstLogIndex = s.node.snapshotLastIncludeIndex + 1 →
          args.leaderTerm = s.node.currentTerm →
          args.prevLogIndex = s.node.snapshotLastIncludeIndex →
          args.prevLogTerm = s.node.snapshotLastIncludeTerm →
          ∃ reply, (s.node.handleAppendEntriesRPC args).2 = some reply ∧ reply.success = true) := by
  intro h
  have hnone := (h ["a", "b", "c"] 2 [.call (.requestInstallSnapshot ⟨1, 1, 5, 1, []⟩)] _ rfl
    ⟨1, 1, 5, 1, [⟨1, 7⟩], 5⟩).1
  exact absurd hnone (by decide)

end Word

/-! ### Votes -/

/-- The candidate's last term and index are not before those of the voter. -/
def AtLeast (rf : Raft C) (lastLogTerm lastLogIndex : Int) : Prop :=
  rf.getLastEntryTerm < lastLogTerm ∨
    (rf.getLastEntryTerm = lastLogTerm ∧ rf.log.lastLogIndex ≤ lastLogIndex)

/-- What the voter compares for a log with something in it. -/
theorem upToDate_iff (rf : Raft C) (args : RequestVoteArgs) :
    rf.upToDate args = true ↔ rf.log.lastLogIndex < rf.log.firstLogIndex ∨
      AtLeast rf args.lastLogTerm args.lastLogIndex := by
  unfold Raft.upToDate AtLeast
  split_ifs with hempty
  · simp [hempty]
  · simp only [Bool.or_eq_true, Bool.and_eq_true, decide_eq_true_eq, beq_iff_eq, hempty, false_or]
    constructor
    · rintro (h | ⟨h, hindex⟩)
      · exact Or.inl h
      · exact Or.inr ⟨h.symm, hindex⟩
    · rintro (h | ⟨h, hindex⟩)
      · exact Or.inl h
      · exact Or.inr ⟨h.symm, hindex⟩

theorem adopt_upToDate (rf : Raft C) (term : Int) (args : RequestVoteArgs) :
    (rf.adopt term).upToDate args = rf.upToDate args := by
  unfold Raft.adopt
  split
  · unfold Raft.upToDate Raft.getLastEntryTerm
    simp
  · rfl

/-- A vote is given for a log that passes the check. -/
theorem requestVote_granted {rf : Raft C} {args : RequestVoteArgs}
    (h : (rf.requestVote args).2.voteGranted = true) : rf.dead = false ∧ rf.upToDate args = true := by
  rw [Raft.requestVote_eq, adopt_upToDate] at h
  split_ifs at h with hdead hlt hvote
  exact ⟨by simpa using hdead, hvote.2⟩

/-- In a term that is new to it, a live voter asks for nothing else. -/
theorem requestVote_grants {rf : Raft C} {args : RequestVoteArgs} (hdead : rf.dead = false)
    (hterm : rf.currentTerm < args.term) (h : rf.upToDate args = true) :
    (rf.requestVote args).2.voteGranted = true := by
  have hvote : (rf.adopt args.term).votedFor = Raft.noVote := by
    unfold Raft.adopt
    rw [if_pos hterm, Raft.persist_votedFor]
  rw [Raft.requestVote_eq, hdead, if_neg (by simp), if_neg (by omega),
    if_pos ⟨Or.inl hvote, by rw [adopt_upToDate, h]⟩]

/-- A request that is granted although the candidate's log is behind. -/
def Misplaced (rf : Raft C) (args : RequestVoteArgs) : Prop :=
  (rf.requestVote args).2.voteGranted = true ∧ ¬AtLeast rf args.lastLogTerm args.lastLogIndex

/-- With an empty log a live voter takes any candidate. -/
theorem misplaced_empty {rf : Raft C} (hdead : rf.dead = false)
    (hempty : rf.log.lastLogIndex < rf.log.firstLogIndex) {lastLogTerm lastLogIndex : Int}
    (hbehind : ¬AtLeast rf lastLogTerm lastLogIndex) (candidateId : Int) :
    Misplaced rf ⟨rf.currentTerm + 1, candidateId, lastLogIndex, lastLogTerm⟩ := by
  refine ⟨requestVote_grants hdead (Int.lt_succ _) ?_, hbehind⟩
  exact (upToDate_iff rf _).mpr (Or.inl hempty)

/-- **A vote goes only to a candidate that is up to date, exactly if the log is not empty** (or
the node is dead). Of the requests that a node can send, with a term from 0 on and an index from -1
on, an empty log also gets those right that has nothing before it: no term above 0 and no index
above -1. -/
theorem votes_up_to_date_iff (rf : Raft C) :
    ((∀ args, (rf.requestVote args).2.voteGranted = true →
        AtLeast rf args.lastLogTerm args.lastLogIndex) ↔
      rf.dead = true ∨ rf.log.firstLogIndex ≤ rf.log.lastLogIndex) ∧
    ((∀ args, 0 ≤ args.lastLogTerm → -1 ≤ args.lastLogIndex →
        (rf.requestVote args).2.voteGranted = true → AtLeast rf args.lastLogTerm args.lastLogIndex) ↔
      rf.dead = true ∨ rf.log.firstLogIndex ≤ rf.log.lastLogIndex ∨ AtLeast rf 0 (-1)) := by
  have hchecked : ∀ args, (rf.requestVote args).2.voteGranted = true →
      rf.dead = true ∨ rf.log.firstLogIndex ≤ rf.log.lastLogIndex →
      AtLeast rf args.lastLogTerm args.lastLogIndex := by
    intro args hgranted hor
    obtain ⟨hdead, hcheck⟩ := requestVote_granted hgranted
    rcases hor with h | h
    · rw [hdead] at h
      cases h
    · rcases (upToDate_iff rf args).mp hcheck with hempty | hle
      · omega
      · exact hle
  refine ⟨⟨?_, ?_⟩, ⟨?_, ?_⟩⟩
  · intro h
    by_contra hne
    rw [not_or, Bool.not_eq_true, Int.not_le] at hne
    -- one term below the voter's own
    have hbehind : ¬AtLeast rf (rf.getLastEntryTerm - 1) 0 := by
      unfold AtLeast
      omega
    obtain ⟨hgranted, hnot⟩ := misplaced_empty hne.1 hne.2 hbehind 0
    exact hnot (h _ hgranted)
  · intro hor args hgranted
    exact hchecked args hgranted hor
  · intro h
    by_contra hne
    rw [not_or, not_or, Bool.not_eq_true, Int.not_le] at hne
    obtain ⟨hgranted, hnot⟩ := misplaced_empty hne.1 hne.2.1 hne.2.2 0
    exact hnot (h _ (by simp) (by simp) hgranted)
  · rintro (hdead | hlog | hleast) args hterm hindex hgranted
    · exact hchecked args hgranted (Or.inl hdead)
    · exact hchecked args hgranted (Or.inr hlog)
    · unfold AtLeast at hleast ⊢
      omega

/-- After a snapshot up to index 5 of term 1, a candidate without a single entry gets the vote. -/
theorem vote_for_empty_candidate :
    ¬∀ (peers : List String) (me : Int) (events : List (Event Nat)) (s : Leadership.Tenure Nat),
      run life (Leadership.boot peers me makePersister) events = some s →
      ∀ args, (s.node.requestVote args).2.voteGranted = true →
        AtLeast s.node args.lastLogTerm args.lastLogIndex := by
  intro h
  have hleast := h ["a", "b", "c"] 2 [.call (.requestInstallSnapshot ⟨1, 1, 5, 1, []⟩)] _ rfl
    ⟨2, 3, -1, 0⟩ (by decide)
  unfold AtLeast at hleast
  revert hleast
  decide

end Wjetcd.Compaction
