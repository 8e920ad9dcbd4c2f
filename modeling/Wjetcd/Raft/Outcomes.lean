import Wjetcd.Raft.Handlers

/-! What each handler can do to a node, said once.

A handler of `Raft.Handlers` is a chain of checks with a few ways out. Here every way
out is one case, with the record it leaves and the checks that lead there as far as
anybody needs them. Whatever holds of all handlers (`Raft.Voting`, `Raft.Durable`,
`Raft.Stream`) is then proved case by case, without going through the checks again. -/
namespace Wjetcd.Raft

variable {C : Type} {rf rf' : Raft C}

/-! ### Elections -/

/-- A candidate that counts one vote more. -/
def withVote (rf : Raft C) : Raft C := {rf with electionVotes := rf.electionVotes + 1}

/-- A candidate that learns of a higher term. -/
def abandon (rf : Raft C) (term : Int) : Raft C :=
  {({rf with currentTerm := term, state := .follower, votedFor := noVote} : Raft C).persist with
    electionDone := true}

theorem electionReply_cases [Width] (rf : Raft C) (term : Int) (reply : RequestVoteReply) :
    rf.electionReply term reply = (rf, false) ∨
      (rf.currentTerm < reply.term ∧ rf.electionReply term reply = (rf.abandon reply.term, false)) ∨
      (rf.state = .candidate ∧ rf.electionReply term reply = (rf.withVote, false)) ∨
      (rf.state = .candidate ∧
        rf.electionReply term reply = ({rf.withVote.becomeLeader with electionDone := true}, true)) := by
  unfold electionReply
  dsimp only
  split_ifs with hterm hstate hdone hgt hlt hgranted _
  · exact Or.inl rfl
  · exact Or.inl rfl
  · exact Or.inl rfl
  · exact Or.inr (Or.inl ⟨hgt, rfl⟩)
  · exact Or.inl rfl
  · exact Or.inr (Or.inr (Or.inr ⟨not_not.mp hstate, rfl⟩))
  · exact Or.inr (Or.inr (Or.inl ⟨not_not.mp hstate, rfl⟩))
  · exact Or.inl rfl

/-- The voter in the term it is asked for, if that is higher than its own. -/
def adopt (rf : Raft C) (term : Int) : Raft C :=
  if term > rf.currentTerm then ({rf with currentTerm := term, votedFor := noVote} : Raft C).persist
  else rf

theorem requestVote_eq [Width] (rf : Raft C) (args : RequestVoteArgs) : rf.requestVote args =
    if rf.dead then (rf, ⟨rf.currentTerm, false⟩)
    else if args.term < rf.currentTerm then (rf.persist, ⟨rf.currentTerm, false⟩)
    else if ((rf.adopt args.term).votedFor = noVote ∨ (rf.adopt args.term).votedFor = args.candidateId) ∧
        (rf.adopt args.term).upToDate args then
      (({rf.adopt args.term with votedFor := args.candidateId} : Raft C).persist,
        ⟨(rf.adopt args.term).currentTerm, true⟩)
    else (rf.adopt args.term, ⟨(rf.adopt args.term).currentTerm, false⟩) := rfl

theorem requestVote_cases [Width] (rf : Raft C) (args : RequestVoteArgs) :
    ((rf.requestVote args).2.voteGranted = false ∧
      ((rf.requestVote args).1 = rf ∨ (rf.requestVote args).1 = rf.persist ∨
        (rf.requestVote args).1 = rf.adopt args.term)) ∨
      (rf.currentTerm ≤ args.term ∧
        ((rf.adopt args.term).votedFor = noVote ∨ (rf.adopt args.term).votedFor = args.candidateId) ∧
        rf.requestVote args = (({rf.adopt args.term with votedFor := args.candidateId} : Raft C).persist,
          ⟨(rf.adopt args.term).currentTerm, true⟩)) := by
  rw [requestVote_eq]
  split_ifs with hdead hlt hvote
  · exact Or.inl ⟨rfl, Or.inl rfl⟩
  · exact Or.inl ⟨rfl, Or.inr (Or.inl rfl)⟩
  · exact Or.inr ⟨Int.not_lt.mp hlt, hvote.1, rfl⟩
  · exact Or.inl ⟨rfl, Or.inr (Or.inr rfl)⟩

/-! ### Replication -/

/-- A message that gets as far as the log. -/
def Accepts [Width] (rf : Raft C) (args : RequestAppendEntriesArgs C) : Prop :=
  rf.dead = false ∧ rf.currentTerm ≤ args.leaderTerm ∧ rf.matchesPrev args = some true

/-- The follower with the log a message leaves. -/
def withEntries [Width] (rf : Raft C) (args : RequestAppendEntriesArgs C) : Raft C :=
  {rf.observeLeader args.leaderTerm with
    log := (rf.log.overwriteFrom args.prevLogIndex args.entries).1}

theorem handleAppendEntriesRPC_cases [Width] (rf : Raft C) (args : RequestAppendEntriesArgs C) :
    ((∀ reply, (rf.handleAppendEntriesRPC args).2 = some reply → reply.success = false) ∧
      ((rf.handleAppendEntriesRPC args).1 = rf ∨
        (rf.handleAppendEntriesRPC args).1 = rf.observeLeader args.leaderTerm)) ∨
      (rf.Accepts args ∧
        (rf.handleAppendEntriesRPC args = (rf.withEntries args, none) ∨
          rf.handleAppendEntriesRPC args = ((rf.withEntries args).followCommit args.leaderCommit,
            some ⟨(rf.withEntries args).currentTerm, true, 0, 0⟩))) := by
  have hdenied : ∀ term, ∀ reply : RequestAppendEntriesReply,
      some (⟨term, false, 0, 0⟩ : RequestAppendEntriesReply) = some reply → reply.success = false := by
    intro term reply heq
    cases heq
    rfl
  have hlog : (rf.observeLeader args.leaderTerm).log = rf.log :=
    (rf.observeLeader_kept args.leaderTerm).1
  unfold handleAppendEntriesRPC
  split
  · exact Or.inl ⟨hdenied _, Or.inl rfl⟩
  rename_i hdead
  split
  · exact Or.inl ⟨hdenied _, Or.inl rfl⟩
  rename_i hterm
  dsimp only
  rw [matchesPrev_observeLeader]
  cases hprev : rf.matchesPrev args with
  | none => exact Or.inl ⟨nofun, Or.inr rfl⟩
  | some agrees =>
    cases agrees with
    | false => exact Or.inl ⟨hdenied _, Or.inr rfl⟩
    | true =>
      refine Or.inr ⟨⟨by simpa using hdead, by omega, hprev⟩, ?_⟩
      rw [hlog]
      dsimp only
      split
      · exact Or.inr rfl
      · exact Or.inl rfl

/-- What a message leaves that gets as far as the log. -/
theorem Accepts.log [Width] {rf : Raft C} {args : RequestAppendEntriesArgs C} (h : rf.Accepts args) :
    (rf.handleAppendEntriesRPC args).1.log = (rf.log.overwriteFrom args.prevLogIndex args.entries).1 := by
  obtain ⟨hdead, hterm, hprev⟩ := h
  unfold handleAppendEntriesRPC
  rw [if_neg (by simp [hdead]), if_neg (by omega)]
  dsimp only
  rw [matchesPrev_observeLeader, hprev, (rf.observeLeader_kept args.leaderTerm).1]
  dsimp only
  split
  · unfold followCommit
    split <;> rfl
  · rfl

/-- Any other leaves the log as it is. -/
theorem refused_log [Width] {rf : Raft C} {args : RequestAppendEntriesArgs C} (h : ¬rf.Accepts args) :
    (rf.handleAppendEntriesRPC args).1.log = rf.log := by
  rcases rf.handleAppendEntriesRPC_cases args with ⟨_, heq | heq⟩ | ⟨haccepts, _⟩
  · rw [heq]
  · rw [heq]
    exact (rf.observeLeader_kept args.leaderTerm).1
  · exact absurd haccepts h

theorem heartbeatReply_cases (rf : Raft C) (reply : RequestAppendEntriesReply) :
    rf.heartbeatReply reply = rf ∨
      (rf.currentTerm < reply.followerTerm ∧ rf.heartbeatReply reply = rf.stepDown reply.followerTerm) := by
  unfold heartbeatReply
  split_ifs with hlead hlt hgt
  · exact Or.inl rfl
  · exact Or.inl rfl
  · exact Or.inr ⟨hgt, rfl⟩
  · exact Or.inl rfl

/-- The peers that `tryCommitL` counts for an index. -/
def holders [Width] (rf : Raft C) (matchIndex : Int) : List Nat :=
  (List.range rf.peers.length).filter fun (i : Nat) =>
    decide ((i : Int) ≠ wrap (rf.me - 1)) && rf.peerTrackers[i]?.any fun t => matchIndex ≤ t.matchIndex

/-- The branch of `tryCommitL` that sets `CommitIndex` and wakes the applier. -/
def commits [Width] (rf : Raft C) (matchIndex : Int) : Bool :=
  decide (rf.commitIndex ≤ matchIndex) && decide (matchIndex ≤ rf.log.lastLogIndex) &&
    decide (rf.log.firstLogIndex ≤ matchIndex) &&
    decide (rf.getEntryTerm matchIndex = some rf.currentTerm) &&
    decide (rf.peers.length / 2 < 1 + (rf.holders matchIndex).length)

theorem commits_iff [Width] (rf : Raft C) (matchIndex : Int) :
    rf.commits matchIndex = true ↔ rf.commitIndex ≤ matchIndex ∧ matchIndex ≤ rf.log.lastLogIndex ∧
      rf.log.firstLogIndex ≤ matchIndex ∧ rf.getEntryTerm matchIndex = some rf.currentTerm ∧
      rf.peers.length / 2 < 1 + (rf.holders matchIndex).length := by
  simp [commits, and_assoc]

theorem tryCommitL_cases [Width] {matchIndex : Int} (h : rf.tryCommitL matchIndex = some rf') :
    (rf.commits matchIndex = true ∧ rf' = {rf with commitIndex := matchIndex}) ∨
      (rf.commits matchIndex = false ∧ rf' = rf) := by
  have hno : ∀ {p : Prop}, (rf.commits matchIndex = true → p) → ¬p → some rf = some rf' →
      rf.commits matchIndex = false ∧ rf' = rf := by
    intro p himp hp heq
    cases heq
    exact ⟨Bool.eq_false_iff.mpr fun hc => hp (himp hc), rfl⟩
  have hiff := rf.commits_iff matchIndex
  unfold tryCommitL at h
  split_ifs at h with hcommit hlast hfirst
  · exact Or.inr (hno (fun hc => (hiff.mp hc).1) (by omega) h)
  · exact Or.inr (hno (fun hc => (hiff.mp hc).2.1) (by omega) h)
  · exact Or.inr (hno (fun hc => (hiff.mp hc).2.2.1) (by omega) h)
  · cases hterm : rf.getEntryTerm matchIndex with
    | none =>
      rw [hterm] at h
      cases h
    | some term =>
      rw [hterm] at h
      dsimp only at h
      split_ifs at h with hother hcount
      · refine Or.inr (hno (fun hc => (hiff.mp hc).2.2.2.1) ?_ h)
        rw [hterm]
        exact fun heq => hother (Option.some.inj heq)
      · cases h
        have hterm' : rf.getEntryTerm matchIndex = some rf.currentTerm := by
          rw [hterm, not_not.mp hother]
        exact Or.inl ⟨hiff.mpr ⟨Int.not_lt.mp hcommit, Int.not_lt.mp hlast, Int.not_lt.mp hfirst, hterm',
          hcount⟩, rfl⟩
      · exact Or.inr (hno (fun hc => (hiff.mp hc).2.2.2.2) hcount h)

/-- What a leader records for a peer that took the entries of a message. -/
def acknowledged [Width] (rf : Raft C) (target : Nat) (args : RequestAppendEntriesArgs C) : Raft C :=
  rf.setTracker target
    ⟨wrap (wrap (args.prevLogIndex + args.entries.length) + 1), wrap (args.prevLogIndex + args.entries.length)⟩

/-- A reply that is looked at: the node leads in the term of the reply. -/
def Current (rf : Raft C) (term : Int) : Prop := rf.state = .leader ∧ term = rf.currentTerm

theorem appendReply_cases [Width] {target : Nat} {args : RequestAppendEntriesArgs C}
    {reply : RequestAppendEntriesReply} (h : rf.appendReply target args reply = some rf') :
    rf' = rf ∨ (rf.currentTerm < reply.followerTerm ∧ rf' = rf.stepDown reply.followerTerm) ∨
      (rf.Current reply.followerTerm ∧ ∃ tracker, rf.peerTrackers[target]? = some tracker ∧
        ((∃ next, rf' = rf.setTracker target {tracker with nextIndex := next}) ∨
          (reply.success = true ∧ 0 < args.entries.length ∧
            (rf.acknowledged target args).tryCommitL (wrap (args.prevLogIndex + args.entries.length)) =
              some rf'))) := by
  unfold appendReply at h
  cases htracker : rf.peerTrackers[target]? with
  | none =>
    rw [htracker] at h
    split_ifs at h with hlead hlt hgt
    · cases h
      exact Or.inl rfl
    · cases h
      exact Or.inl rfl
    · cases h
      exact Or.inr (Or.inl ⟨hgt, rfl⟩)
  | some tracker =>
    rw [htracker] at h
    dsimp only at h
    split_ifs at h with hlead hlt hgt hsuccess hentries
    · cases h
      exact Or.inl rfl
    · cases h
      exact Or.inl rfl
    · cases h
      exact Or.inr (Or.inl ⟨hgt, rfl⟩)
    · exact Or.inr (Or.inr ⟨⟨not_not.mp hlead, by omega⟩, tracker, rfl,
        Or.inr ⟨hsuccess, hentries, h⟩⟩)
    · cases h
      exact Or.inr (Or.inr ⟨⟨not_not.mp hlead, by omega⟩, tracker, rfl, Or.inl ⟨_, rfl⟩⟩)
    · split at h
      · cases h
      · cases h
        exact Or.inl rfl
      · cases h
        exact Or.inr (Or.inr ⟨⟨not_not.mp hlead, by omega⟩, tracker, rfl, Or.inl ⟨_, rfl⟩⟩)

/-- The index that a reply makes `tryCommitL` commit. -/
def commitsOn [Width] (rf : Raft C) (target : Nat) (args : RequestAppendEntriesArgs C)
    (reply : RequestAppendEntriesReply) : Option Int :=
  if rf.state = .leader ∧ reply.followerTerm = rf.currentTerm ∧ target < rf.peerTrackers.length ∧
      reply.success = true ∧ 0 < args.entries.length ∧
      (rf.acknowledged target args).commits (wrap (args.prevLogIndex + args.entries.length)) = true then
    some (wrap (args.prevLogIndex + args.entries.length))
  else none

/-- A reply sets `CommitIndex` to the index it commits, or leaves it. -/
theorem appendReply_commits [Width] {target : Nat} {args : RequestAppendEntriesArgs C}
    {reply : RequestAppendEntriesReply} (h : rf.appendReply target args reply = some rf') :
    (∃ m, rf.commitsOn target args reply = some m ∧ (rf.acknowledged target args).commits m = true ∧
        rf' = {rf.acknowledged target args with commitIndex := m}) ∨
      (rf.commitsOn target args reply = none ∧ rf'.commitIndex = rf.commitIndex) := by
  by_cases hon : rf.state = .leader ∧ reply.followerTerm = rf.currentTerm ∧
      target < rf.peerTrackers.length ∧ reply.success = true ∧ 0 < args.entries.length ∧
      (rf.acknowledged target args).commits (wrap (args.prevLogIndex + args.entries.length)) = true
  · refine Or.inl ⟨_, if_pos hon, hon.2.2.2.2.2, ?_⟩
    obtain ⟨hlead, hterm, htracked, hsuccess, hentries, hcommits⟩ := hon
    unfold appendReply at h
    rw [List.getElem?_eq_getElem htracked, if_neg (not_not_intro hlead), if_neg (by omega),
      if_neg (by omega)] at h
    dsimp only at h
    rw [if_pos hsuccess, if_pos hentries] at h
    rcases tryCommitL_cases h with ⟨_, heq⟩ | ⟨hno, _⟩
    · exact heq
    · rw [acknowledged] at hcommits
      rw [hcommits] at hno
      cases hno
  · refine Or.inr ⟨if_neg hon, ?_⟩
    rcases appendReply_cases h with rfl | ⟨_, rfl⟩ | ⟨hcurrent, tracker, htracker, ⟨next, rfl⟩ |
      ⟨hsuccess, hentries, hcommit⟩⟩
    · rfl
    · simp [stepDown]
    · rfl
    · rcases tryCommitL_cases hcommit with ⟨hcommits, _⟩ | ⟨_, rfl⟩
      · have htracked := (List.getElem?_eq_some_iff.mp htracker).1
        exact absurd ⟨hcurrent.1, hcurrent.2, htracked, hsuccess, hentries, hcommits⟩ hon
      · rfl

theorem start_cases [Width] {command : C} {result : Raft C × Int × Int × Bool}
    (h : rf.start command = some result) :
    result.1 = rf ∨ (rf.state = .leader ∧ ∃ log, rf.log.appendL [⟨rf.currentTerm, command⟩] = some log ∧
      result.1 = ({rf with log := log} : Raft C).persist) := by
  unfold start at h
  split_ifs at h with hlead
  · cases h
    exact Or.inl rfl
  · obtain ⟨log, hlog, rfl⟩ := Option.map_eq_some_iff.mp h
    exact Or.inr ⟨not_not.mp hlead, log, hlog, rfl⟩

/-! ### Snapshots -/

/-- The leader that has dropped its log up to `index`. -/
def compacted (rf : Raft C) (index term : Int) (snapshot : List UInt8) (log : Log C) : Raft C :=
  {rf with
    snapshot := snapshot
    snapshotLastIncludeIndex := index
    snapshotLastIncludeTerm := term
    log := log
    commitIndex := max rf.commitIndex index
    lastApplied := max rf.lastApplied index}

theorem takeSnapshot_cases [Width] {index : Int} {snapshot : List UInt8}
    (h : rf.takeSnapshot index snapshot = some rf') :
    rf' = rf ∨ (rf.log.firstLogIndex ≤ index ∧ index ≤ rf.lastApplied ∧
      ∃ term log, rf.getEntryTerm index = some term ∧ rf.trimTo index = some log ∧
        rf' = (rf.compacted index term snapshot log).persist) := by
  unfold takeSnapshot at h
  split_ifs at h with hlead hfirst happlied
  · cases h
    exact Or.inl rfl
  · split at h
    · rename_i term log hterm hlog
      cases h
      exact Or.inr ⟨hfirst, Int.not_lt.mp happlied, term, log, hterm, hlog, rfl⟩
    · cases h
  · cases h
    exact Or.inl rfl

/-- The follower of a leader whose snapshot it is sent. -/
def followSnapshot (rf : Raft C) (term : Int) : Raft C :=
  if term > rf.currentTerm then {rf with state := .follower, votedFor := -1, currentTerm := term}
  else {rf with state := .follower}

theorem requestInstallSnapshot_cases [Width] (rf : Raft C) (args : RequestInstallSnapShotArgs) :
    (rf.requestInstallSnapshot args).1 = rf ∨
      (rf.currentTerm ≤ args.term ∧
        ((rf.requestInstallSnapshot args).1 = (rf.followSnapshot args.term).persist ∨
          (rf.snapshotLastIncludeIndex < args.lastIncludeIndex ∧ (rf.requestInstallSnapshot args).1 =
            ((rf.followSnapshot args.term).installState args).1.persist))) := by
  have hsnap : (rf.followSnapshot args.term).snapshotLastIncludeIndex = rf.snapshotLastIncludeIndex := by
    unfold followSnapshot
    split <;> rfl
  have hnode : (rf.requestInstallSnapshot args).1 =
      if args.term < rf.currentTerm then rf
      else if args.lastIncludeIndex > (rf.followSnapshot args.term).snapshotLastIncludeIndex then
        ((rf.followSnapshot args.term).installState args).1.persist
      else (rf.followSnapshot args.term).persist := by
    unfold requestInstallSnapshot followSnapshot
    dsimp only
    split_ifs <;> rfl
  rw [hnode, hsnap]
  split_ifs with hlt hnew
  · exact Or.inl rfl
  · exact Or.inr ⟨Int.not_lt.mp hlt, Or.inr ⟨hnew, rfl⟩⟩
  · exact Or.inr ⟨Int.not_lt.mp hlt, Or.inl rfl⟩

theorem installSnapshotReply_cases [Width] {serverId : Nat} {args : RequestInstallSnapShotArgs}
    {reply : RequestInstallSnapShotReply} (h : rf.installSnapshotReply serverId args reply = some rf') :
    rf' = rf ∨ (rf.currentTerm < reply.term ∧ rf' = rf.stepDown reply.term) ∨
      (rf.Current reply.term ∧
        (rf.setTracker serverId ⟨wrap (args.lastIncludeIndex + 1), args.lastIncludeIndex⟩).tryCommitL
          args.lastIncludeIndex = some rf') := by
  unfold installSnapshotReply at h
  split_ifs at h with hlead hlt hgt htracked
  · cases h
    exact Or.inl rfl
  · cases h
    exact Or.inl rfl
  · cases h
    exact Or.inr (Or.inl ⟨hgt, rfl⟩)
  · exact Or.inr (Or.inr ⟨⟨not_not.mp hlead, by omega⟩, h⟩)

/-! ### Applying -/

theorem applyNext_cases [Width] (h : rf.applyNext = some rf') :
    rf.log.firstLogIndex ≤ wrap (rf.lastApplied + 1) ∧
      ∃ entry helper, rf.log.getOneEntry (wrap (rf.lastApplied + 1)) = some entry ∧
        rf.applyHelper.tryApply (.command (wrap (rf.lastApplied + 1)) entry.command) = some helper ∧
        rf' = {rf with lastApplied := wrap (rf.lastApplied + 1), applyHelper := helper} := by
  unfold applyNext at h
  dsimp only at h
  split_ifs at h with hfirst
  cases hentry : rf.log.getOneEntry (wrap (rf.lastApplied + 1)) with
  | none =>
    rw [hentry] at h
    cases h
  | some entry =>
    rw [hentry] at h
    obtain ⟨helper, hhelper, rfl⟩ := Option.map_eq_some_iff.mp h
    exact ⟨Int.not_lt.mp hfirst, entry, helper, rfl, hhelper, rfl⟩

end Wjetcd.Raft
