import Wjetcd.Lib.Runs
import Wjetcd.Raft.Outcomes

/-! One node under every call it can get.

A node leads by executing `becomeLeader`, and should lead only in the term it had
then. Handlers that take over a higher term demote the node as they do so, all
but `RequestVote`, which leaves `State` alone: a leader that is asked for a vote
in a higher term goes on leading, in a term it never won. `leads_won_term` says
that this is the only way: in a run in which no such request reaches a leader,
a leading node has won its present term, and whatever raises the term demotes.

What the handlers have in common is `Keeps`: a node that leads after the call led
before it, in the same term. -/
namespace Wjetcd.Leadership
open Runs

variable {C : Type}

/-- A call of one of the node's entry points, with whatever arguments it comes. -/
inductive Action (C : Type) where
  | startElection
  | electionReply (term : Int) (reply : RequestVoteReply)
  | requestVote (args : RequestVoteArgs)
  | handleAppendEntriesRPC (args : RequestAppendEntriesArgs C)
  | requestInstallSnapshot (args : RequestInstallSnapShotArgs)
  | heartbeatReply (reply : RequestAppendEntriesReply)
  | appendReply (target : Nat) (args : RequestAppendEntriesArgs C) (reply : RequestAppendEntriesReply)
  | installSnapshotReply (serverId : Nat) (args : RequestInstallSnapShotArgs)
      (reply : RequestInstallSnapShotReply)
  | start (command : C)
  | takeSnapshot (index : Int) (snapshot : List UInt8)
  | applyNext
  | kill

/-- The node, and the terms in which it has executed `becomeLeader`. -/
structure Tenure (C : Type) where
  node : Raft C
  won : List Int

def step [Width] (action : Action C) (s : Tenure C) : Option (Tenure C) :=
  match action with
  | .startElection => some {s with node := s.node.startElection.1}
  | .electionReply term reply =>
    let result := s.node.electionReply term reply
    some ⟨result.1, if result.2 then result.1.currentTerm :: s.won else s.won⟩
  | .requestVote args => some {s with node := (s.node.requestVote args).1}
  | .handleAppendEntriesRPC args => some {s with node := (s.node.handleAppendEntriesRPC args).1}
  | .requestInstallSnapshot args => some {s with node := (s.node.requestInstallSnapshot args).1}
  | .heartbeatReply reply => some {s with node := s.node.heartbeatReply reply}
  | .appendReply target args reply =>
    (s.node.appendReply target args reply).map fun rf => {s with node := rf}
  | .installSnapshotReply serverId args reply =>
    (s.node.installSnapshotReply serverId args reply).map fun rf => {s with node := rf}
  | .start command => (s.node.start command).map fun result => {s with node := result.1}
  | .takeSnapshot index snapshot =>
    (s.node.takeSnapshot index snapshot).map fun rf => {s with node := rf}
  | .applyNext => if s.node.hasNext then s.node.applyNext.map fun rf => {s with node := rf} else some s
  | .kill => some {s with node := s.node.kill}

def boot (peers : List String) (me : Int) (persister : Persister C) : Tenure C :=
  ⟨Raft.make peers me persister, []⟩

/-- A relation between the node before a call and the node after it, which may depend on
the call and which every handler obeys. -/
structure Handles [Width] (R : Action C → Raft C → Raft C → Prop) : Prop where
  startElection : ∀ rf, R .startElection rf rf.startElection.1
  electionReply : ∀ rf term reply, R (.electionReply term reply) rf (rf.electionReply term reply).1
  requestVote : ∀ rf args, R (.requestVote args) rf (rf.requestVote args).1
  handleAppendEntriesRPC : ∀ rf args,
    R (.handleAppendEntriesRPC args) rf (rf.handleAppendEntriesRPC args).1
  requestInstallSnapshot : ∀ rf args,
    R (.requestInstallSnapshot args) rf (rf.requestInstallSnapshot args).1
  heartbeatReply : ∀ rf reply, R (.heartbeatReply reply) rf (rf.heartbeatReply reply)
  appendReply : ∀ {rf rf' target args reply}, rf.appendReply target args reply = some rf' →
    R (.appendReply target args reply) rf rf'
  installSnapshotReply : ∀ {rf rf' serverId args reply},
    rf.installSnapshotReply serverId args reply = some rf' →
      R (.installSnapshotReply serverId args reply) rf rf'
  start : ∀ {rf command result}, rf.start command = some result → R (.start command) rf result.1
  takeSnapshot : ∀ {rf rf' index snapshot}, rf.takeSnapshot index snapshot = some rf' →
    R (.takeSnapshot index snapshot) rf rf'
  applyNext : ∀ {rf rf'}, rf.hasNext = true → rf.applyNext = some rf' → R .applyNext rf rf'
  wait : ∀ rf, R .applyNext rf rf
  kill : ∀ rf, R .kill rf rf.kill

theorem Handles.step [Width] {R : Action C → Raft C → Raft C → Prop} (h : Handles R) {action : Action C}
    {s t : Tenure C} (hs : step action s = some t) : R action s.node t.node := by
  cases action with
  | startElection =>
    cases hs
    exact h.startElection _
  | electionReply term reply =>
    cases hs
    exact h.electionReply _ _ _
  | requestVote args =>
    cases hs
    exact h.requestVote _ _
  | handleAppendEntriesRPC args =>
    cases hs
    exact h.handleAppendEntriesRPC _ _
  | requestInstallSnapshot args =>
    cases hs
    exact h.requestInstallSnapshot _ _
  | heartbeatReply reply =>
    cases hs
    exact h.heartbeatReply _ _
  | appendReply target args reply =>
    obtain ⟨rf, hrf, rfl⟩ := Option.map_eq_some_iff.mp hs
    exact h.appendReply hrf
  | installSnapshotReply serverId args reply =>
    obtain ⟨rf, hrf, rfl⟩ := Option.map_eq_some_iff.mp hs
    exact h.installSnapshotReply hrf
  | start command =>
    obtain ⟨result, hresult, rfl⟩ := Option.map_eq_some_iff.mp hs
    exact h.start hresult
  | takeSnapshot index snapshot =>
    obtain ⟨rf, hrf, rfl⟩ := Option.map_eq_some_iff.mp hs
    exact h.takeSnapshot hrf
  | applyNext =>
    rw [Leadership.step] at hs
    split at hs
    · rename_i hnext
      obtain ⟨rf, hrf, rfl⟩ := Option.map_eq_some_iff.mp hs
      exact h.applyNext hnext hrf
    · cases hs
      exact h.wait _
  | kill =>
    cases hs
    exact h.kill _

/-- A leading node has won its present term. -/
def Won (s : Tenure C) : Prop := s.node.state = .leader → s.node.currentTerm ∈ s.won

/-- No request for a vote in a higher term reaches a leader. -/
def NoHigherVote (action : Action C) (s : Tenure C) : Prop :=
  match action with
  | .requestVote args =>
    ¬(s.node.dead = false ∧ s.node.state = .leader ∧ s.node.currentTerm < args.term)
  | _ => True

/-! ### What each handler keeps -/

/-- Whoever leads afterwards led before, in the same term. -/
def Keeps (rf rf' : Raft C) : Prop :=
  rf'.state = .leader → rf.state = .leader ∧ rf'.currentTerm = rf.currentTerm

theorem Keeps.of_eq {rf rf' : Raft C} (hs : rf'.state = rf.state)
    (ht : rf'.currentTerm = rf.currentTerm) : Keeps rf rf' :=
  fun h => ⟨hs.symm.trans h, ht⟩

theorem Keeps.of_demoted {rf rf' : Raft C} (h : rf'.state ≠ .leader) : Keeps rf rf' :=
  fun hl => absurd hl h

theorem startElection_keeps (rf : Raft C) : Keeps rf rf.startElection.1 := by
  apply Keeps.of_demoted
  simp [Raft.startElection, Raft.becomeCandidate]

/-- A vote reply executes `becomeLeader` for the present term, or makes no leader. -/
theorem electionReply_keeps (rf : Raft C) (term : Int) (reply : RequestVoteReply) :
    ((rf.electionReply term reply).2 = true ∧
      (rf.electionReply term reply).1.currentTerm = rf.currentTerm) ∨
      ((rf.electionReply term reply).2 = false ∧ Keeps rf (rf.electionReply term reply).1) := by
  rcases rf.electionReply_cases term reply with h | ⟨_, h⟩ | ⟨_, h⟩ | ⟨_, h⟩
  · rw [h]
    exact Or.inr ⟨rfl, Keeps.of_eq rfl rfl⟩
  · rw [h]
    exact Or.inr ⟨rfl, Keeps.of_demoted (by simp [Raft.abandon])⟩
  · rw [h]
    exact Or.inr ⟨rfl, Keeps.of_eq rfl rfl⟩
  · rw [h]
    exact Or.inl ⟨rfl, rfl⟩

/-- `RequestVote` keeps the role in every case, so the term has to stay. -/
theorem requestVote_keeps (rf : Raft C) (args : RequestVoteArgs)
    (h : ¬(rf.dead = false ∧ rf.state = .leader ∧ rf.currentTerm < args.term)) :
    Keeps rf (rf.requestVote args).1 := by
  unfold Raft.requestVote
  cases hd : rf.dead
  · simp only [Bool.false_eq_true, if_false]
    split
    · exact Keeps.of_eq (by simp) (by simp)
    · by_cases hgt : args.term > rf.currentTerm
      · -- a node that takes over the term does not lead
        apply Keeps.of_demoted
        have hnot : rf.state ≠ .leader := fun hl => h ⟨hd, hl, hgt⟩
        simp only [hgt, if_true]
        split <;> simpa using hnot
      · simp only [hgt, if_false]
        split <;> exact Keeps.of_eq (by simp) (by simp)
  · exact Keeps.of_eq rfl rfl

theorem handleAppendEntriesRPC_keeps (rf : Raft C) (args : RequestAppendEntriesArgs C) :
    Keeps rf (rf.handleAppendEntriesRPC args).1 := by
  have hobserve : (rf.observeLeader args.leaderTerm).state = .follower := rfl
  rcases rf.handleAppendEntriesRPC_cases args with ⟨_, h | h⟩ | ⟨_, h | h⟩
  · rw [h]
    exact Keeps.of_eq rfl rfl
  · rw [h]
    exact Keeps.of_demoted (by simp [hobserve])
  · rw [h]
    exact Keeps.of_demoted (by simp [Raft.withEntries, hobserve])
  · rw [h]
    apply Keeps.of_demoted
    unfold Raft.followCommit
    split <;> simp [Raft.withEntries, hobserve]

theorem installState_state (rf : Raft C) (args : RequestInstallSnapShotArgs) :
    (rf.installState args).1.state = rf.state := by
  unfold Raft.installState
  simp only
  split
  · rfl
  · split <;> rfl

theorem requestInstallSnapshot_keeps (rf : Raft C) (args : RequestInstallSnapShotArgs) :
    Keeps rf (rf.requestInstallSnapshot args).1 := by
  have hfollow : (rf.followSnapshot args.term).state = .follower := by
    unfold Raft.followSnapshot
    split <;> rfl
  rcases rf.requestInstallSnapshot_cases args with h | ⟨_, h | ⟨_, h⟩⟩
  · rw [h]
    exact Keeps.of_eq rfl rfl
  · rw [h]
    exact Keeps.of_demoted (by simp [hfollow])
  · rw [h]
    exact Keeps.of_demoted (by simp [installState_state, hfollow])

theorem stepDown_keeps (rf : Raft C) (term : Int) : Keeps rf (rf.stepDown term) := by
  apply Keeps.of_demoted
  simp [Raft.stepDown]

theorem heartbeatReply_keeps (rf : Raft C) (reply : RequestAppendEntriesReply) :
    Keeps rf (rf.heartbeatReply reply) := by
  rcases rf.heartbeatReply_cases reply with h | ⟨_, h⟩
  · rw [h]
    exact Keeps.of_eq rfl rfl
  · rw [h]
    exact stepDown_keeps rf _

theorem tryCommitL_keeps {rf rf' : Raft C} {matchIndex : Int}
    (h : rf.tryCommitL matchIndex = some rf') :
    rf'.state = rf.state ∧ rf'.currentTerm = rf.currentTerm := by
  rcases Raft.tryCommitL_cases h with ⟨_, rfl⟩ | ⟨_, rfl⟩
  · exact ⟨rfl, rfl⟩
  · exact ⟨rfl, rfl⟩

theorem appendReply_keeps {rf rf' : Raft C} {target : Nat} {args : RequestAppendEntriesArgs C}
    {reply : RequestAppendEntriesReply} (h : rf.appendReply target args reply = some rf') :
    Keeps rf rf' := by
  rcases Raft.appendReply_cases h with rfl | ⟨_, rfl⟩ | ⟨_, tracker, _, ⟨next, rfl⟩ | ⟨_, _, hcommit⟩⟩
  · exact Keeps.of_eq rfl rfl
  · exact stepDown_keeps rf _
  · exact Keeps.of_eq rfl rfl
  · obtain ⟨hs, ht⟩ := tryCommitL_keeps hcommit
    exact Keeps.of_eq hs ht

theorem installSnapshotReply_keeps {rf rf' : Raft C} {serverId : Nat}
    {args : RequestInstallSnapShotArgs} {reply : RequestInstallSnapShotReply}
    (h : rf.installSnapshotReply serverId args reply = some rf') : Keeps rf rf' := by
  rcases Raft.installSnapshotReply_cases h with rfl | ⟨_, rfl⟩ | ⟨_, hcommit⟩
  · exact Keeps.of_eq rfl rfl
  · exact stepDown_keeps rf _
  · obtain ⟨hs, ht⟩ := tryCommitL_keeps hcommit
    exact Keeps.of_eq hs ht

theorem start_keeps {rf : Raft C} {command : C} {result : Raft C × Int × Int × Bool}
    (h : rf.start command = some result) : Keeps rf result.1 := by
  rcases Raft.start_cases h with heq | ⟨_, log, _, heq⟩
  · rw [heq]
    exact Keeps.of_eq rfl rfl
  · rw [heq]
    exact Keeps.of_eq (by simp) (by simp)

theorem takeSnapshot_keeps {rf rf' : Raft C} {index : Int} {snapshot : List UInt8}
    (h : rf.takeSnapshot index snapshot = some rf') : Keeps rf rf' := by
  rcases Raft.takeSnapshot_cases h with rfl | ⟨_, _, term, log, _, _, rfl⟩
  · exact Keeps.of_eq rfl rfl
  · exact Keeps.of_eq (by simp [Raft.compacted]) (by simp [Raft.compacted])

theorem applyNext_keeps {rf rf' : Raft C} (h : rf.applyNext = some rf') : Keeps rf rf' := by
  obtain ⟨_, entry, helper, _, _, rfl⟩ := Raft.applyNext_cases h
  exact Keeps.of_eq rfl rfl

/-! ### Runs -/

/-- Outside `becomeLeader`, every call that obeys the rule keeps who leads and in which
term. -/
theorem step_keeps {action : Action C} {s t : Tenure C} (hr : NoHigherVote action s)
    (hs : step action s = some t) :
    (t.won = t.node.currentTerm :: s.won ∧ t.node.currentTerm = s.node.currentTerm) ∨
      (t.won = s.won ∧ Keeps s.node t.node) := by
  cases action with
  | startElection =>
    cases hs
    exact Or.inr ⟨rfl, startElection_keeps _⟩
  | electionReply term reply =>
    cases hs
    rcases electionReply_keeps s.node term reply with ⟨hwon, hterm⟩ | ⟨hlost, hkeeps⟩
    · exact Or.inl ⟨if_pos hwon, hterm⟩
    · exact Or.inr ⟨by simp [hlost], hkeeps⟩
  | requestVote args =>
    cases hs
    exact Or.inr ⟨rfl, requestVote_keeps _ _ hr⟩
  | handleAppendEntriesRPC args =>
    cases hs
    exact Or.inr ⟨rfl, handleAppendEntriesRPC_keeps _ _⟩
  | requestInstallSnapshot args =>
    cases hs
    exact Or.inr ⟨rfl, requestInstallSnapshot_keeps _ _⟩
  | heartbeatReply reply =>
    cases hs
    exact Or.inr ⟨rfl, heartbeatReply_keeps _ _⟩
  | appendReply target args reply =>
    obtain ⟨rf, hrf, rfl⟩ := Option.map_eq_some_iff.mp hs
    exact Or.inr ⟨rfl, appendReply_keeps hrf⟩
  | installSnapshotReply serverId args reply =>
    obtain ⟨rf, hrf, rfl⟩ := Option.map_eq_some_iff.mp hs
    exact Or.inr ⟨rfl, installSnapshotReply_keeps hrf⟩
  | start command =>
    obtain ⟨result, hresult, rfl⟩ := Option.map_eq_some_iff.mp hs
    exact Or.inr ⟨rfl, start_keeps hresult⟩
  | takeSnapshot index snapshot =>
    obtain ⟨rf, hrf, rfl⟩ := Option.map_eq_some_iff.mp hs
    exact Or.inr ⟨rfl, takeSnapshot_keeps hrf⟩
  | applyNext =>
    simp only [step] at hs
    split at hs
    · obtain ⟨rf, hrf, rfl⟩ := Option.map_eq_some_iff.mp hs
      exact Or.inr ⟨rfl, applyNext_keeps hrf⟩
    · cases hs
      exact Or.inr ⟨rfl, Keeps.of_eq rfl rfl⟩
  | kill =>
    cases hs
    exact Or.inr ⟨rfl, Keeps.of_demoted (by simp [Raft.kill])⟩

theorem step_won (action : Action C) (s t : Tenure C) (h : Won s) (hr : NoHigherVote action s)
    (hs : step action s = some t) : Won t := by
  intro hlead
  rcases step_keeps hr hs with ⟨hwon, _⟩ | ⟨hwon, hkeeps⟩
  · rw [hwon]
    exact List.mem_cons_self
  · obtain ⟨hled, hterm⟩ := hkeeps hlead
    rw [hwon, hterm]
    exact h hled

/-- A step that raises the term demotes. -/
theorem step_raise {action : Action C} {s t : Tenure C} (hr : NoHigherVote action s)
    (hs : step action s = some t) (hlt : s.node.currentTerm < t.node.currentTerm) :
    t.node.state ≠ .leader := by
  intro hlead
  rcases step_keeps hr hs with ⟨_, hterm⟩ | ⟨_, hkeeps⟩
  · omega
  · have := (hkeeps hlead).2
    omega

theorem make_state (peers : List String) (me : Int) (persister : Persister C) :
    (Raft.make peers me persister).state = .follower := by
  unfold Raft.make Raft.readPersist
  dsimp only
  split <;> rfl

/-- **A node leads only in a term it won**, in every run in which no request for a vote
in a higher term reaches it while it leads; and then whatever raises its term
demotes it. -/
theorem leads_won_term (peers : List String) (me : Int) (persister : Persister C)
    (actions : List (Action C)) (s : Tenure C)
    (hr : Along step NoHigherVote (boot peers me persister) actions)
    (hs : run step (boot peers me persister) actions = some s) :
    Won s ∧ ∀ action t, NoHigherVote action s → step action s = some t →
      s.node.currentTerm < t.node.currentTerm → t.node.state ≠ .leader := by
  have hboot : Won (boot peers me persister) := by
    intro hlead
    rw [boot, make_state] at hlead
    cases hlead
  exact ⟨run_invariant step_won actions _ _ hboot hr hs, fun _ _ hrule ht => step_raise hrule ht⟩

/-- A node of three that wins term 1 and takes a command. -/
theorem leads_won_term_three :
    ∃ s : Tenure Nat, run step (boot ["a", "b", "c"] 1 makePersister)
        [.startElection, .electionReply 1 ⟨1, true⟩, .start 7] = some s ∧
      s.node.state = .leader ∧ s.node.currentTerm = 1 ∧ Won s :=
  ⟨_, rfl, by decide, by decide, (leads_won_term ["a", "b", "c"] 1 makePersister
    [.startElection, .electionReply 1 ⟨1, true⟩, .start 7] _
    ⟨trivial, trivial, trivial, trivial⟩ rfl).1⟩

/-- The leader of term 1 that is asked for a vote in term 5 leads term 5. -/
theorem leads_unwon_term :
    ¬∀ (peers : List String) (me : Int) (persister : Persister Nat) (actions : List (Action Nat))
      (s : Tenure Nat), run step (boot peers me persister) actions = some s → Won s := by
  intro h
  have hwon := h ["a", "b", "c"] 1 makePersister
    [.startElection, .electionReply 1 ⟨1, true⟩, .requestVote ⟨5, 2, -1, 0⟩] _ rfl
  exact absurd (hwon (by decide)) (by decide)

end Wjetcd.Leadership
