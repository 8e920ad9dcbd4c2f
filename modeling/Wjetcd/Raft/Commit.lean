import Wjetcd.Raft.Voting

/-! What stands behind a commit.

`tryCommitL` counts the peers whose `matchIndex` has reached the index it is to commit.
`matchIndex` is set by replies, so a peer it counts has confirmed the index; except that
`resetTrackedIndex` starts it at 0, which is an index of the log. For index 0 every peer
is counted from the start, and the first reply commits it (`commit_unconfirmed`). For all
other indices, and in clusters so small that one reply is a majority, a commit rests on
a majority of confirmations (`commit_confirmed`).

A run begins where `becomeLeader` is executed and stays in that term. Replies may come
in any order, any number of times, with any arguments. -/
namespace Wjetcd.Commit
open Runs

variable {C : Type}

/-- A node about to lead: `Make` gave it a tracker for every peer, and standing for
election a positive term. -/
structure Candidate (C : Type) where
  node : Raft C
  tracked : node.peerTrackers.length = node.peers.length
  term : 0 < node.currentTerm

/-- The leader, and the replies with `Success` it has received in its term: from which
peer, and up to which index. -/
structure Tally (C : Type) where
  node : Raft C
  acks : List (Nat × Int)

inductive Action (C : Type) where
  | start (command : C)
  | appendReply (target : Nat) (args : RequestAppendEntriesArgs C) (reply : RequestAppendEntriesReply)
  | heartbeatReply (reply : RequestAppendEntriesReply)
  | installSnapshotReply (serverId : Nat) (args : RequestInstallSnapShotArgs)
  | takeSnapshot (index : Int) (snapshot : List UInt8)
  | applyNext

/-- What a reply confirms, if it is one of the leader's term. -/
def confirms (rf : Raft C) (target : Nat) (args : RequestAppendEntriesArgs C)
    (reply : RequestAppendEntriesReply) : List (Nat × Int) :=
  if rf.state = .leader ∧ reply.followerTerm = rf.currentTerm ∧ reply.success = true then
    [(target, args.prevLogIndex + args.entries.length)]
  else []

def step (action : Action C) (s : Tally C) : Option (Tally C) :=
  match action with
  | .start command => (s.node.start command).map fun result => {s with node := result.1}
  | .appendReply target args reply =>
    -- nothing is sent to the node's own index, and nothing comes back from it
    if (target : Int) = s.node.me - 1 then some s
    else (s.node.appendReply target args reply).map fun rf =>
      ⟨rf, confirms s.node target args reply ++ s.acks⟩
  | .heartbeatReply reply => some {s with node := s.node.heartbeatReply reply}
  | .installSnapshotReply serverId args =>
    -- `sendRequestInstallSnapshot` sends nothing and leaves the reply as it was made
    (s.node.installSnapshotReply serverId args ⟨0⟩).map fun rf => {s with node := rf}
  | .takeSnapshot index snapshot =>
    (s.node.takeSnapshot index snapshot).map fun rf => {s with node := rf}
  | .applyNext => if s.node.hasNext then s.node.applyNext.map fun rf => {s with node := rf} else some s

def lead (c : Candidate C) : Tally C := ⟨c.node.becomeLeader, []⟩

/-- The index an action makes `tryCommitL` commit. -/
def committing (action : Action C) (s : Tally C) : Option Int :=
  match action with
  | .appendReply target args reply =>
    if (target : Int) = s.node.me - 1 then none else s.node.commitsOn target args reply
  | .installSnapshotReply serverId args =>
    if s.node.state = .leader ∧ 0 = s.node.currentTerm ∧
        (s.node.setTracker serverId ⟨args.lastIncludeIndex + 1, args.lastIncludeIndex⟩).commits
          args.lastIncludeIndex = true then some args.lastIncludeIndex
    else none
  | _ => none

/-- The peers other than the leader that have confirmed an index. -/
def confirmed (s : Tally C) (m : Int) : List Nat :=
  (List.range s.node.peers.length).filter fun (i : Nat) =>
    decide ((i : Int) ≠ s.node.me - 1) && s.acks.any fun ack => ack.1 == i && decide (m ≤ ack.2)

/-! ### Nodes that come to lead -/

/-- A tracker for every peer, and a positive term in any candidate. -/
structure Standing (rf : Raft C) : Prop where
  tracked : rf.peerTrackers.length = rf.peers.length
  started : 0 ≤ rf.currentTerm
  stood : rf.state = .candidate → 0 < rf.currentTerm

theorem Standing.keep {rf rf' : Raft C} (h : Standing rf) (hmoves : Raft.Moves rf rf')
    (hpeers : rf'.peers = rf.peers) (htrackers : rf'.peerTrackers.length = rf.peerTrackers.length)
    (hstate : rf'.state = .candidate → rf.state = .candidate) : Standing rf' := by
  have hterm := hmoves.term
  have hstarted := h.started
  refine ⟨by rw [hpeers, htrackers, h.tracked], by omega, ?_⟩
  intro hc
  have := h.stood (hstate hc)
  omega

/-- A commit changes none of it. -/
theorem Standing.tryCommitL {rf rf' : Raft C} (h : Standing rf) {m : Int}
    (hrf : rf.tryCommitL m = some rf') : Standing rf' := by
  rcases Raft.tryCommitL_cases hrf with ⟨_, rfl⟩ | ⟨_, rfl⟩
  · exact {h with}
  · exact h

theorem Standing.setTracker {rf : Raft C} (h : Standing rf) (target : Nat) (tracker : PeerTracker) :
    Standing (rf.setTracker target tracker) :=
  {h with tracked := (List.length_set ..).trans h.tracked}

theorem Standing.persist {rf : Raft C} (h : Standing rf) : Standing rf.persist :=
  h.keep (Raft.persist_moves rf) (by simp) (by simp) (by simp)

theorem Standing.stepDown {rf : Raft C} (h : Standing rf) {term : Int} (hlt : rf.currentTerm < term) :
    Standing (rf.stepDown term) :=
  h.keep (Raft.stepDown_moves hlt) (by simp [Raft.stepDown]) (by simp [Raft.stepDown])
    (by simp [Raft.stepDown])

theorem Standing.startElection {rf : Raft C} (h : Standing rf) : Standing rf.startElection.1 := by
  have hstarted := h.started
  have hterm : rf.startElection.1.currentTerm = rf.currentTerm + 1 := by
    simp [Raft.startElection, Raft.becomeCandidate]
  refine ⟨?_, by omega, fun _ => by omega⟩
  simpa [Raft.startElection, Raft.becomeCandidate] using h.tracked

theorem Standing.electionReply {rf : Raft C} (h : Standing rf) (term : Int) (reply : RequestVoteReply) :
    Standing (rf.electionReply term reply).1 := by
  have hmoves := Raft.electionReply_moves rf term reply
  rcases rf.electionReply_cases term reply with heq | ⟨_, heq⟩ | ⟨_, heq⟩ | ⟨_, heq⟩
  · rw [heq]
    exact h
  · exact h.keep hmoves (by simp [heq, Raft.abandon]) (by simp [heq, Raft.abandon])
      (by simp [heq, Raft.abandon])
  · rw [heq]
    exact {h with}
  · -- the trackers start anew, as many as before
    have hlen : (rf.peerTrackers.map fun _ =>
        (⟨rf.log.lastLogIndex + 1, 0⟩ : PeerTracker)).length = rf.peerTrackers.length :=
      List.length_map _
    exact h.keep hmoves (by rw [heq]; rfl) (by rw [heq]; exact hlen)
      (by simp [heq, Raft.becomeLeader, Raft.resetTrackedIndex])

theorem Standing.adopt {rf : Raft C} (h : Standing rf) (term : Int) : Standing (rf.adopt term) := by
  refine h.keep (Raft.adopt_moves _ _) ?_ ?_ ?_ <;> unfold Raft.adopt <;> split <;> simp

theorem Standing.requestVote {rf : Raft C} (h : Standing rf) (args : RequestVoteArgs) :
    Standing (rf.requestVote args).1 := by
  have hadopt := h.adopt args.term
  rcases rf.requestVote_cases args with ⟨_, heq | heq | heq⟩ | ⟨_, _, heq⟩
  · rw [heq]
    exact h
  · rw [heq]
    exact h.persist
  · rw [heq]
    exact hadopt
  · rw [heq]
    have hvoted : Standing {rf.adopt args.term with votedFor := args.candidateId} := {hadopt with}
    exact hvoted.persist

theorem Standing.observeLeader {rf : Raft C} (h : Standing rf) (term : Int) :
    Standing (rf.observeLeader term) := by
  refine h.keep (Raft.observeLeader_moves _ _) ?_ ?_ nofun <;> unfold Raft.observeLeader <;>
    dsimp only <;> split <;> simp

theorem Standing.handleAppendEntriesRPC {rf : Raft C} (h : Standing rf)
    (args : RequestAppendEntriesArgs C) : Standing (rf.handleAppendEntriesRPC args).1 := by
  have hobserve := h.observeLeader args.leaderTerm
  have hentries : Standing (rf.withEntries args) := {hobserve with}
  rcases rf.handleAppendEntriesRPC_cases args with ⟨_, heq | heq⟩ | ⟨_, heq | heq⟩
  · rw [heq]
    exact h
  · rw [heq]
    exact hobserve
  · rw [heq]
    exact hentries
  · rw [heq]
    dsimp only
    unfold Raft.followCommit
    split
    · exact {hentries with}
    · exact hentries

theorem Standing.followSnapshot {rf : Raft C} (h : Standing rf) (term : Int) :
    Standing (rf.followSnapshot term) := by
  refine h.keep (Raft.followSnapshot_moves _ _) ?_ ?_ ?_ <;> unfold Raft.followSnapshot <;>
    split <;> simp

theorem Standing.installState {rf : Raft C} (h : Standing rf) (args : RequestInstallSnapShotArgs) :
    Standing (rf.installState args).1 := by
  unfold Raft.installState
  dsimp only
  split
  · exact {h with}
  · split
    · exact {h with}
    · exact {h with}

theorem Standing.requestInstallSnapshot {rf : Raft C} (h : Standing rf)
    (args : RequestInstallSnapShotArgs) : Standing (rf.requestInstallSnapshot args).1 := by
  have hfollow := h.followSnapshot args.term
  rcases rf.requestInstallSnapshot_cases args with heq | ⟨_, heq | ⟨_, heq⟩⟩
  · rw [heq]
    exact h
  · rw [heq]
    exact hfollow.persist
  · rw [heq]
    exact (hfollow.installState args).persist

theorem Standing.heartbeatReply {rf : Raft C} (h : Standing rf) (reply : RequestAppendEntriesReply) :
    Standing (rf.heartbeatReply reply) := by
  rcases rf.heartbeatReply_cases reply with heq | ⟨hlt, heq⟩
  · rw [heq]
    exact h
  · rw [heq]
    exact h.stepDown hlt

theorem Standing.appendReply {rf rf' : Raft C} (h : Standing rf) {target : Nat}
    {args : RequestAppendEntriesArgs C} {reply : RequestAppendEntriesReply}
    (hrf : rf.appendReply target args reply = some rf') : Standing rf' := by
  rcases Raft.appendReply_cases hrf with rfl | ⟨hlt, rfl⟩ | ⟨_, tracker, _, ⟨next, rfl⟩ | ⟨_, _, hcommit⟩⟩
  · exact h
  · exact h.stepDown hlt
  · exact h.setTracker _ _
  · exact (h.setTracker _ _).tryCommitL hcommit

theorem Standing.installSnapshotReply {rf rf' : Raft C} (h : Standing rf) {serverId : Nat}
    {args : RequestInstallSnapShotArgs} {reply : RequestInstallSnapShotReply}
    (hrf : rf.installSnapshotReply serverId args reply = some rf') : Standing rf' := by
  rcases Raft.installSnapshotReply_cases hrf with rfl | ⟨hlt, rfl⟩ | ⟨_, hcommit⟩
  · exact h
  · exact h.stepDown hlt
  · exact (h.setTracker _ _).tryCommitL hcommit

theorem Standing.start {rf : Raft C} (h : Standing rf) {command : C} {result : Raft C × Int × Int × Bool}
    (hresult : rf.start command = some result) : Standing result.1 := by
  rcases Raft.start_cases hresult with heq | ⟨_, log, _, heq⟩
  · rw [heq]
    exact h
  · rw [heq]
    have hlogged : Standing {rf with log := log} := {h with}
    exact hlogged.persist

theorem Standing.takeSnapshot {rf rf' : Raft C} (h : Standing rf) {index : Int} {snapshot : List UInt8}
    (hrf : rf.takeSnapshot index snapshot = some rf') : Standing rf' := by
  rcases Raft.takeSnapshot_cases hrf with rfl | ⟨_, _, term, log, _, _, rfl⟩
  · exact h
  · have hcompacted : Standing (rf.compacted index term snapshot log) := {h with}
    exact hcompacted.persist

theorem Standing.applyNext {rf rf' : Raft C} (h : Standing rf) (hrf : rf.applyNext = some rf') :
    Standing rf' := by
  obtain ⟨_, entry, helper, _, _, rfl⟩ := Raft.applyNext_cases hrf
  exact {h with}

theorem handles_standing : Leadership.Handles fun _ (rf rf' : Raft C) => Standing rf → Standing rf' where
  startElection := fun _ h => h.startElection
  electionReply := fun _ term reply h => h.electionReply term reply
  requestVote := fun _ args h => h.requestVote args
  handleAppendEntriesRPC := fun _ args h => h.handleAppendEntriesRPC args
  requestInstallSnapshot := fun _ args h => h.requestInstallSnapshot args
  heartbeatReply := fun _ reply h => h.heartbeatReply reply
  appendReply := fun hrf h => h.appendReply hrf
  installSnapshotReply := fun hrf h => h.installSnapshotReply hrf
  start := fun hresult h => h.start hresult
  takeSnapshot := fun hrf h => h.takeSnapshot hrf
  applyNext := fun _ hrf h => h.applyNext hrf
  wait := fun _ h => h
  kill := fun _ h => h.keep (Raft.Moves.stay rfl rfl rfl) rfl rfl (by simp [Raft.kill])

theorem make_standing (peers : List String) (me : Int) :
    Standing (Leadership.boot peers me (makePersister : Persister C)).node where
  tracked := List.length_replicate
  started := le_rfl
  stood := by simp [Leadership.boot, Raft.make, Raft.readPersist, makePersister]

/-- Whatever calls a fresh node has had, once it is a candidate it is one of these. -/
def Candidate.ofRun {peers : List String} {me : Int} {actions : List (Leadership.Action C)}
    {s : Leadership.Tenure C}
    (hs : run Leadership.step (Leadership.boot peers me makePersister) actions = some s)
    (hc : s.node.state = .candidate) : Candidate C :=
  have hstanding := run_invariant_all (P := fun s : Leadership.Tenure C => Standing s.node)
    (fun _ _ _ h ht => handles_standing.step ht h) actions _ _ (make_standing peers me) hs
  ⟨s.node, hstanding.tracked, hstanding.stood hc⟩

/-! ### Trackers -/

/-- Every `matchIndex` is the initial one or has been confirmed. -/
def Heard (trackers : List PeerTracker) (acks : List (Nat × Int)) : Prop :=
  ∀ i tracker, trackers[i]? = some tracker → tracker.matchIndex = 0 ∨ (i, tracker.matchIndex) ∈ acks

theorem Heard.more {trackers : List PeerTracker} {acks new : List (Nat × Int)}
    (h : Heard trackers acks) : Heard trackers (new ++ acks) := by
  intro i tracker hi
  rcases h i tracker hi with hzero | hack
  · exact Or.inl hzero
  · exact Or.inr (List.mem_append_right _ hack)

theorem Heard.set {trackers : List PeerTracker} {acks : List (Nat × Int)} (h : Heard trackers acks)
    {target : Nat} {tracker : PeerTracker}
    (hnew : tracker.matchIndex = 0 ∨ (target, tracker.matchIndex) ∈ acks) :
    Heard (trackers.set target tracker) acks := by
  intro i t hi
  rw [List.getElem?_set] at hi
  split at hi
  · rename_i heq
    split at hi
    · cases hi
      rw [← heq]
      exact hnew
    · cases hi
  · exact h i t hi

/-! ### Runs -/

structure Inv (c : Candidate C) (s : Tally C) : Prop where
  me : s.node.me = c.node.me
  peers : s.node.peers = c.node.peers
  tracked : s.node.peerTrackers.length = c.node.peers.length
  term : 0 < s.node.currentTerm
  heard : Heard s.node.peerTrackers s.acks

theorem lead_inv (c : Candidate C) : Inv c (lead c) where
  me := rfl
  peers := rfl
  tracked := by
    rw [← c.tracked]
    exact List.length_map _
  term := c.term
  heard := by
    intro i tracker hi
    obtain ⟨_, _, rfl⟩ := List.mem_map.mp (List.mem_of_getElem? hi)
    exact Or.inl rfl

/-- Nobody but a reply touches a tracker. -/
theorem Inv.keep {c : Candidate C} {s : Tally C} (h : Inv c s) {rf : Raft C}
    (hmoves : Raft.Moves s.node rf) (hpeers : rf.peers = s.node.peers)
    (htrackers : rf.peerTrackers = s.node.peerTrackers) : Inv c {s with node := rf} where
  me := hmoves.me.trans h.me
  peers := hpeers.trans h.peers
  tracked := by
    rw [htrackers]
    exact h.tracked
  term := lt_of_lt_of_le h.term hmoves.term
  heard := by
    rw [htrackers]
    exact h.heard

theorem Inv.appendReply {c : Candidate C} {s : Tally C} (h : Inv c s) {target : Nat}
    {args : RequestAppendEntriesArgs C} {reply : RequestAppendEntriesReply} {rf : Raft C}
    (hrf : s.node.appendReply target args reply = some rf) :
    Inv c ⟨rf, confirms s.node target args reply ++ s.acks⟩ := by
  have hmoves := Raft.appendReply_moves hrf
  have hmore : Inv c ⟨s.node, confirms s.node target args reply ++ s.acks⟩ :=
    {h with heard := h.heard.more}
  rcases Raft.appendReply_cases hrf with rfl | ⟨_, rfl⟩ | ⟨hcurrent, tracker, htracker, ⟨next, rfl⟩ |
    ⟨hsuccess, _, hcommit⟩⟩
  · exact hmore
  · exact hmore.keep hmoves (by simp [Raft.stepDown]) (by simp [Raft.stepDown])
  · -- `nextIndex` alone
    refine {hmore with tracked := ?_, heard := ?_}
    · exact (List.length_set ..).trans h.tracked
    · exact hmore.heard.set (hmore.heard target tracker htracker)
  · -- the confirmation that is recorded has just been received
    have hconfirms : confirms s.node target args reply =
        [(target, args.prevLogIndex + args.entries.length)] :=
      if_pos ⟨hcurrent.1, hcurrent.2, hsuccess⟩
    have hrecorded : Inv c ⟨s.node.acknowledged target args,
        confirms s.node target args reply ++ s.acks⟩ := by
      refine {hmore with tracked := ?_, heard := ?_}
      · exact (List.length_set ..).trans h.tracked
      · refine hmore.heard.set (Or.inr ?_)
        rw [hconfirms]
        exact List.mem_cons_self
    rcases Raft.tryCommitL_cases hcommit with ⟨_, rfl⟩ | ⟨_, rfl⟩
    · exact {hrecorded with}
    · exact hrecorded

theorem step_inv (c : Candidate C) (action : Action C) (s t : Tally C) (h : Inv c s)
    (hs : step action s = some t) : Inv c t := by
  cases action with
  | start command =>
    obtain ⟨result, hresult, rfl⟩ := Option.map_eq_some_iff.mp hs
    rcases Raft.start_cases hresult with heq | ⟨_, log, _, heq⟩
    · exact h.keep (Raft.start_moves hresult) (by rw [heq]) (by rw [heq])
    · exact h.keep (Raft.start_moves hresult) (by simp [heq]) (by simp [heq])
  | appendReply target args reply =>
    rw [step] at hs
    split at hs
    · cases hs
      exact h
    · obtain ⟨rf, hrf, rfl⟩ := Option.map_eq_some_iff.mp hs
      exact h.appendReply hrf
  | heartbeatReply reply =>
    cases hs
    have hmoves := Raft.heartbeatReply_moves s.node reply
    rcases s.node.heartbeatReply_cases reply with heq | ⟨_, heq⟩
    · exact h.keep hmoves (by rw [heq]) (by rw [heq])
    · exact h.keep hmoves (by simp [heq, Raft.stepDown]) (by simp [heq, Raft.stepDown])
  | installSnapshotReply serverId args =>
    obtain ⟨rf, hrf, rfl⟩ := Option.map_eq_some_iff.mp hs
    have hterm := h.term
    rcases Raft.installSnapshotReply_cases hrf with rfl | ⟨hlt, _⟩ | ⟨hcurrent, _⟩
    · exact h
    · dsimp only at hlt
      omega
    · have hzero : (0 : Int) = s.node.currentTerm := hcurrent.2
      omega
  | takeSnapshot index snapshot =>
    obtain ⟨rf, hrf, rfl⟩ := Option.map_eq_some_iff.mp hs
    have hmoves := Raft.takeSnapshot_moves hrf
    rcases Raft.takeSnapshot_cases hrf with rfl | ⟨_, _, term, log, _, _, rfl⟩
    · exact h
    · exact h.keep hmoves (by simp [Raft.compacted]) (by simp [Raft.compacted])
  | applyNext =>
    rw [step] at hs
    split at hs
    · obtain ⟨rf, hrf, rfl⟩ := Option.map_eq_some_iff.mp hs
      obtain ⟨_, entry, helper, _, _, rfl⟩ := Raft.applyNext_cases hrf
      exact h.keep (Raft.Moves.stay rfl rfl rfl) rfl rfl
    · cases hs
      exact h

/-- Past index 0 everybody who is counted has confirmed. -/
theorem holders_confirmed {c : Candidate C} {s : Tally C} (h : Inv c s) {m : Int} (hm : 0 < m) :
    (s.node.holders m).length ≤ (confirmed s m).length := by
  have hsub : (s.node.holders m).Sublist (confirmed s m) := by
    refine List.monotone_filter_right _ ?_
    intro i hi
    rw [Bool.and_eq_true] at hi ⊢
    refine ⟨hi.1, ?_⟩
    cases ht : s.node.peerTrackers[i]? with
    | none => simp [ht] at hi
    | some tracker =>
      have hreached : m ≤ tracker.matchIndex := by simpa [ht] using hi.2
      rcases h.heard i tracker ht with hzero | hack
      · omega
      · rw [List.any_eq_true]
        exact ⟨_, hack, by simpa using hreached⟩
  exact hsub.length_le

/-- The commit of a run comes with a reply that confirms it. -/
theorem committing_reply {c : Candidate C} {s t : Tally C} (h : Inv c s) {action : Action C} {m : Int}
    (ht : step action s = some t) (hm : committing action s = some m) :
    (∃ target, target < c.node.peers.length ∧ (target : Int) ≠ t.node.me - 1 ∧ (target, m) ∈ t.acks) ∧
      t.node.peers.length / 2 < 1 + (t.node.holders m).length := by
  cases action with
  | appendReply target args reply =>
    rw [step] at ht
    rw [committing] at hm
    split at hm
    · cases hm
    · rename_i hother
      rw [if_neg hother] at ht
      obtain ⟨rf, hrf, rfl⟩ := Option.map_eq_some_iff.mp ht
      rcases Raft.appendReply_commits hrf with ⟨index, hon, hcommits, rfl⟩ | ⟨hnone, _⟩
      · rw [hm] at hon
        cases hon
        unfold Raft.commitsOn at hm
        split at hm
        · rename_i hreply
          cases hm
          obtain ⟨hlead, hterm, htracked, hsuccess, _, _⟩ := hreply
          refine ⟨⟨target, by rw [← h.tracked]; exact htracked, hother, ?_⟩, ?_⟩
          · rw [confirms, if_pos ⟨hlead, hterm, hsuccess⟩]
            exact List.mem_cons_self
          · exact ((Raft.commits_iff _ _).mp hcommits).2.2.2.2
        · cases hm
      · rw [hnone] at hm
        cases hm
  | installSnapshotReply serverId args =>
    rw [committing] at hm
    split at hm
    · rename_i hon
      have := h.term
      omega
    · cases hm
  | start command => cases hm
  | heartbeatReply reply => cases hm
  | takeSnapshot index snapshot => cases hm
  | applyNext => cases hm

/-- **A commit rests on a majority of confirmations**, for every index but the first;
in clusters of up to three nodes for that one too. -/
theorem commit_confirmed (c : Candidate C) (actions : List (Action C)) (s t : Tally C)
    (action : Action C) (m : Int) (hs : run step (lead c) actions = some s)
    (ht : step action s = some t) (hm : committing action s = some m)
    (hcond : 0 < m ∨ c.node.peers.length ≤ 3) :
    c.node.peers.length / 2 < 1 + (confirmed t m).length := by
  have hinv := run_invariant_all (step_inv c) actions _ _ (lead_inv c) hs
  have hinv' := step_inv c action s t hinv ht
  obtain ⟨⟨target, htarget, hother, hack⟩, hcount⟩ := committing_reply hinv ht hm
  rw [hinv'.peers] at hcount
  rcases hcond with hpos | hsmall
  · have := holders_confirmed hinv' hpos
    omega
  · -- the reply that triggered the commit is a majority with the leader
    have hmem : target ∈ confirmed t m := by
      refine List.mem_filter.mpr ⟨List.mem_range.mpr (by rw [hinv'.peers]; exact htarget), ?_⟩
      rw [Bool.and_eq_true, List.any_eq_true]
      exact ⟨decide_eq_true hother, _, hack, by simp⟩
    have := List.length_pos_of_mem hmem
    omega

/-- A fresh node of five that stands for term 1. -/
def standingOfFive : Leadership.Tenure Nat where
  node := (Raft.make ["a", "b", "c", "d", "e"] 1 makePersister).startElection.1
  won := []

/-- Five nodes, of which the first has just won term 1. -/
def firstOfFive : Candidate Nat :=
  .ofRun (show run Leadership.step (Leadership.boot ["a", "b", "c", "d", "e"] 1 makePersister)
    [.startElection] = some standingOfFive from rfl) rfl

/-- Three of five nodes confirm the second command. -/
theorem commit_confirmed_second :
    ∃ s t : Tally Nat, run step (lead firstOfFive)
        [.start 7, .start 8, .appendReply 1 ⟨1, 1, -1, 0, [⟨1, 7⟩, ⟨1, 8⟩], 0⟩ ⟨1, true, 0, 0⟩] = some s ∧
      step (.appendReply 2 ⟨1, 1, -1, 0, [⟨1, 7⟩, ⟨1, 8⟩], 0⟩ ⟨1, true, 0, 0⟩) s = some t ∧
      t.node.commitIndex = 1 ∧ 5 / 2 < 1 + (confirmed t 1).length :=
  ⟨_, _, rfl, rfl, by decide, commit_confirmed firstOfFive
    [.start 7, .start 8, .appendReply 1 ⟨1, 1, -1, 0, [⟨1, 7⟩, ⟨1, 8⟩], 0⟩ ⟨1, true, 0, 0⟩] _ _
    (.appendReply 2 ⟨1, 1, -1, 0, [⟨1, 7⟩, ⟨1, 8⟩], 0⟩ ⟨1, true, 0, 0⟩) 1 rfl rfl (by decide)
    (Or.inl (by decide))⟩

/-- The first command of five nodes is committed on the reply of one follower. -/
theorem commit_unconfirmed :
    ¬∀ (c : Candidate Nat) (actions : List (Action Nat)) (s t : Tally Nat) (action : Action Nat) (m : Int),
      run step (lead c) actions = some s → step action s = some t → committing action s = some m →
      c.node.peers.length / 2 < 1 + (confirmed t m).length := by
  intro h
  have hfew := h firstOfFive [.start 7] _ _
    (.appendReply 1 ⟨1, 1, -1, 0, [⟨1, 7⟩], 0⟩ ⟨1, true, 0, 0⟩) 0 rfl rfl (by decide)
  exact absurd hfew (by decide)

end Wjetcd.Commit
