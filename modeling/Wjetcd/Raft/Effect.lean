import Wjetcd.Raft.Leadership

/-! What a call does to the log and to the queue for the service.

`Feed` is the part of a node that the service gets its messages from, `Effect` the seven
things a call can do to it. Terms, votes, roles and the leader's bookkeeping are not in
it, so an invariant of the log or of the queue has seven cases instead of one for every
way out of every handler (`handles_effect`). -/
namespace Wjetcd.Raft

variable {C : Type}

/-- The log, the index of the snapshot before it, and what has been handed on. -/
structure Feed (C : Type) where
  log : Log C
  included : Int
  lastApplied : Int
  helper : ApplyHelper C

def feed (rf : Raft C) : Feed C := ⟨rf.log, rf.snapshotLastIncludeIndex, rf.lastApplied, rf.applyHelper⟩

@[simp] theorem persist_feed (rf : Raft C) : rf.persist.feed = rf.feed := by simp [feed]

inductive Effect [Width] (rf : Raft C) : Leadership.Action C → Feed C → Prop
  | idle {action : Leadership.Action C} : Effect rf action rf.feed
  | append {command : C} {log : Log C} (h : rf.log.appendL [⟨rf.currentTerm, command⟩] = some log) :
      Effect rf (.start command) {rf.feed with log := log}
  /-- The loop of `handleAppendEntriesRPC`. -/
  | overwrite (args : RequestAppendEntriesArgs C) (haccepts : rf.Accepts args) :
      Effect rf (.handleAppendEntriesRPC args)
        {rf.feed with log := (rf.log.overwriteFrom args.prevLogIndex args.entries).1}
  /-- A turn of `sendMsgToTester`. -/
  | apply {entry : Entry C} {helper : ApplyHelper C} (hnext : rf.hasNext = true)
      (hentry : rf.log.getOneEntry (wrap (rf.lastApplied + 1)) = some entry)
      (h : rf.applyHelper.tryApply (.command (wrap (rf.lastApplied + 1)) entry.command) = some helper) :
      Effect rf .applyNext {rf.feed with lastApplied := wrap (rf.lastApplied + 1), helper := helper}
  | compact {index : Int} {snapshot : List UInt8} {log : Log C} (hfirst : rf.log.firstLogIndex ≤ index)
      (happlied : index ≤ rf.lastApplied) (h : rf.trimTo index = some log) :
      Effect rf (.takeSnapshot index snapshot) {rf.feed with log := log, included := index}
  /-- A snapshot the node has no need of. -/
  | install {args : RequestInstallSnapShotArgs} {log : Log C}
      (hnew : rf.snapshotLastIncludeIndex < args.lastIncludeIndex)
      (happlied : args.lastIncludeIndex ≤ rf.lastApplied)
      (h : rf.compactTo args.lastIncludeIndex = some log) :
      Effect rf (.requestInstallSnapshot args)
        {rf.feed with log := log, included := args.lastIncludeIndex}
  /-- A snapshot the service is given. -/
  | deliver {args : RequestInstallSnapShotArgs} {log : Log C} {helper : ApplyHelper C}
      (hnew : rf.snapshotLastIncludeIndex < args.lastIncludeIndex)
      (happlied : rf.lastApplied < args.lastIncludeIndex)
      (hlog : rf.compactTo args.lastIncludeIndex = some log)
      (h : rf.applyHelper.tryApply (.snapshot args.lastIncludeIndex args.lastIncludeTerm args.snapshot) =
        some helper) :
      Effect rf (.requestInstallSnapshot args)
        ⟨log, args.lastIncludeIndex, args.lastIncludeIndex, helper⟩
  /-- A panic at the slice expression. -/
  | torn {args : RequestInstallSnapShotArgs}
      (hnew : rf.snapshotLastIncludeIndex < args.lastIncludeIndex)
      (h : rf.compactTo args.lastIncludeIndex = none) :
      Effect rf (.requestInstallSnapshot args) {rf.feed with included := args.lastIncludeIndex}

section Handlers
variable {rf rf' : Raft C}

theorem Effect.of_eq [Width] {action : Leadership.Action C} (h : rf'.feed = rf.feed) : Effect rf action rf'.feed :=
  h ▸ Effect.idle

/-- A call that moves neither the log nor anything that says how far it is committed or
applied, and does not stop the node. -/
structure Quiet (rf rf' : Raft C) : Prop where
  feed : rf'.feed = rf.feed
  commit : rf'.commitIndex = rf.commitIndex
  dead : rf'.dead = rf.dead

theorem Quiet.refl (rf : Raft C) : Quiet rf rf := ⟨rfl, rfl, rfl⟩

theorem Quiet.persist (h : Quiet rf rf') : Quiet rf rf'.persist :=
  ⟨by rw [persist_feed, h.feed], by rw [persist_commitIndex, h.commit], by rw [persist_dead, h.dead]⟩

theorem startElection_quiet [Width] (rf : Raft C) : Quiet rf rf.startElection.1 := by
  constructor <;> simp [startElection, becomeCandidate, feed]

theorem electionReply_quiet [Width] (rf : Raft C) (term : Int) (reply : RequestVoteReply) :
    Quiet rf (rf.electionReply term reply).1 := by
  rcases rf.electionReply_cases term reply with h | ⟨_, h⟩ | ⟨_, h⟩ | ⟨_, h⟩
  · rw [h]
    exact Quiet.refl rf
  · rw [h]
    constructor <;> simp [abandon, feed]
  · rw [h]
    exact ⟨rfl, rfl, rfl⟩
  · rw [h]
    exact ⟨rfl, rfl, rfl⟩

theorem adopt_quiet (rf : Raft C) (term : Int) : Quiet rf (rf.adopt term) := by
  unfold adopt
  split
  · exact Quiet.persist ⟨rfl, rfl, rfl⟩
  · exact Quiet.refl rf

theorem requestVote_quiet [Width] (rf : Raft C) (args : RequestVoteArgs) : Quiet rf (rf.requestVote args).1 := by
  have hadopt := rf.adopt_quiet args.term
  rcases rf.requestVote_cases args with ⟨_, h | h | h⟩ | ⟨_, _, h⟩
  · rw [h]
    exact Quiet.refl rf
  · rw [h]
    exact (Quiet.refl rf).persist
  · rw [h]
    exact hadopt
  · rw [h]
    exact Quiet.persist ⟨hadopt.feed, hadopt.commit, hadopt.dead⟩

theorem stepDown_quiet (rf : Raft C) (term : Int) : Quiet rf (rf.stepDown term) := by
  constructor <;> simp [stepDown, feed]

theorem heartbeatReply_quiet (rf : Raft C) (reply : RequestAppendEntriesReply) :
    Quiet rf (rf.heartbeatReply reply) := by
  rcases rf.heartbeatReply_cases reply with h | ⟨_, h⟩
  · rw [h]
    exact Quiet.refl rf
  · rw [h]
    exact rf.stepDown_quiet _

theorem observeLeader_quiet (rf : Raft C) (term : Int) : Quiet rf (rf.observeLeader term) := by
  unfold observeLeader
  dsimp only
  split
  · constructor <;> simp [feed]
  · exact ⟨rfl, rfl, rfl⟩

theorem tryCommitL_feed [Width] {m : Int} (h : rf.tryCommitL m = some rf') : rf'.feed = rf.feed := by
  rcases tryCommitL_cases h with ⟨_, rfl⟩ | ⟨_, rfl⟩ <;> rfl

theorem appendReply_feed [Width] {target : Nat} {args : RequestAppendEntriesArgs C}
    {reply : RequestAppendEntriesReply} (h : rf.appendReply target args reply = some rf') :
    rf'.feed = rf.feed := by
  rcases appendReply_cases h with rfl | ⟨_, rfl⟩ | ⟨_, tracker, _, ⟨next, rfl⟩ | ⟨_, _, hcommit⟩⟩
  · rfl
  · exact (rf.stepDown_quiet _).feed
  · rfl
  · exact (tryCommitL_feed hcommit).trans rfl

theorem installSnapshotReply_feed [Width] {serverId : Nat} {args : RequestInstallSnapShotArgs}
    {reply : RequestInstallSnapShotReply} (h : rf.installSnapshotReply serverId args reply = some rf') :
    rf'.feed = rf.feed := by
  rcases installSnapshotReply_cases h with rfl | ⟨_, rfl⟩ | ⟨_, hcommit⟩
  · rfl
  · exact (rf.stepDown_quiet _).feed
  · exact (tryCommitL_feed hcommit).trans rfl

theorem followCommit_feed (rf : Raft C) (leaderCommit : Int) :
    (rf.followCommit leaderCommit).feed = rf.feed := by
  unfold followCommit
  split <;> rfl

theorem withEntries_feed [Width] (rf : Raft C) (args : RequestAppendEntriesArgs C) :
    (rf.withEntries args).feed =
      {rf.feed with log := (rf.log.overwriteFrom args.prevLogIndex args.entries).1} := by
  rw [← (rf.observeLeader_quiet args.leaderTerm).feed]
  rfl

theorem handleAppendEntriesRPC_effect [Width] (rf : Raft C) (args : RequestAppendEntriesArgs C) :
    Effect rf (.handleAppendEntriesRPC args) (rf.handleAppendEntriesRPC args).1.feed := by
  rcases rf.handleAppendEntriesRPC_cases args with ⟨_, h | h⟩ | ⟨haccepts, h | h⟩
  · exact Effect.of_eq (by rw [h])
  · exact Effect.of_eq (by rw [h, (rf.observeLeader_quiet args.leaderTerm).feed])
  · rw [h, withEntries_feed]
    exact Effect.overwrite args haccepts
  · rw [h, followCommit_feed, withEntries_feed]
    exact Effect.overwrite args haccepts

theorem start_effect [Width] {command : C} {result : Raft C × Int × Int × Bool}
    (h : rf.start command = some result) : Effect rf (.start command) result.1.feed := by
  rcases start_cases h with heq | ⟨_, log, hlog, heq⟩
  · exact Effect.of_eq (by rw [heq])
  · rw [heq, persist_feed]
    exact Effect.append hlog

theorem takeSnapshot_effect [Width] {index : Int} {snapshot : List UInt8}
    (h : rf.takeSnapshot index snapshot = some rf') :
    Effect rf (.takeSnapshot index snapshot) rf'.feed := by
  rcases takeSnapshot_cases h with rfl | ⟨hfirst, happlied, term, log, _, hlog, rfl⟩
  · exact Effect.idle
  · have hfeed : (rf.compacted index term snapshot log).feed =
        {rf.feed with log := log, included := index} := by
      simp [compacted, feed, happlied]
    rw [persist_feed, hfeed]
    exact Effect.compact hfirst happlied hlog

theorem followSnapshot_feed (rf : Raft C) (term : Int) : (rf.followSnapshot term).feed = rf.feed := by
  unfold followSnapshot
  split <;> rfl

theorem installState_effect [Width] (rf : Raft C) {args : RequestInstallSnapShotArgs}
    (hnew : rf.snapshotLastIncludeIndex < args.lastIncludeIndex) :
    Effect rf (.requestInstallSnapshot args) (rf.installState args).1.feed := by
  unfold installState
  dsimp only
  split
  · rename_i hlog
    exact Effect.torn hnew hlog
  · rename_i log hlog
    split
    · rename_i hgt
      refine Effect.deliver hnew hgt hlog ?_
      unfold ApplyHelper.tryApply
      dsimp only
      split <;> rfl
    · rename_i hle
      exact Effect.install hnew (Int.not_lt.mp hle) hlog

/-- Role, term and vote do not matter to an installation. -/
theorem followSnapshot_installState [Width] (rf : Raft C) (args : RequestInstallSnapShotArgs) :
    ((rf.followSnapshot args.term).installState args).1.feed = (rf.installState args).1.feed := by
  unfold followSnapshot
  split
  · unfold installState compactTo
    dsimp only
    split_ifs <;> rfl
  · unfold installState compactTo
    dsimp only
    split_ifs <;> rfl

theorem requestInstallSnapshot_effect [Width] (rf : Raft C) (args : RequestInstallSnapShotArgs) :
    Effect rf (.requestInstallSnapshot args) (rf.requestInstallSnapshot args).1.feed := by
  rcases rf.requestInstallSnapshot_cases args with h | ⟨_, h | ⟨hnew, h⟩⟩
  · exact Effect.of_eq (by rw [h])
  · exact Effect.of_eq (by rw [h, persist_feed, followSnapshot_feed])
  · rw [h, persist_feed]
    rw [followSnapshot_installState]
    exact rf.installState_effect hnew

theorem applyNext_effect [Width] (hnext : rf.hasNext = true) (h : rf.applyNext = some rf') :
    Effect rf .applyNext rf'.feed := by
  obtain ⟨_, entry, helper, hentry, htry, rfl⟩ := applyNext_cases h
  exact Effect.apply hnext hentry htry

end Handlers

/-- Whatever is called, the log and the queue change in one of the ways above. -/
theorem handles_effect [Width] : Leadership.Handles fun action (rf rf' : Raft C) => Effect rf action rf'.feed where
  startElection := fun rf => Effect.of_eq rf.startElection_quiet.feed
  electionReply := fun rf term reply => Effect.of_eq (rf.electionReply_quiet term reply).feed
  requestVote := fun rf args => Effect.of_eq (rf.requestVote_quiet args).feed
  handleAppendEntriesRPC := handleAppendEntriesRPC_effect
  requestInstallSnapshot := requestInstallSnapshot_effect
  heartbeatReply := fun rf reply => Effect.of_eq (rf.heartbeatReply_quiet reply).feed
  appendReply := fun h => Effect.of_eq (appendReply_feed h)
  installSnapshotReply := fun h => Effect.of_eq (installSnapshotReply_feed h)
  start := start_effect
  takeSnapshot := takeSnapshot_effect
  applyNext := applyNext_effect
  wait := fun _ => Effect.idle
  kill := fun _ => Effect.idle

end Wjetcd.Raft
