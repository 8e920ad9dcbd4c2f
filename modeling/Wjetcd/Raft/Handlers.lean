import Wjetcd.Raft.Node

/-! The handlers of a Raft peer, each as one function of the node's record.

A remote call is cut at the network: what the caller does up to sending, what
the callee does with the arguments, and what the caller's goroutine does with
the reply are three functions, so that anything may happen in between. A handler
served over HTTP that panics leaves the node as it was at that point (the HTTP
server recovers and the deferred unlock runs) and sends no reply; a panic in one
of the node's own goroutines takes the process down, and is `none`. -/
namespace Wjetcd

structure RequestVoteArgs where
  term : Int
  candidateId : Int
  lastLogIndex : Int
  lastLogTerm : Int
deriving Repr, DecidableEq

structure RequestVoteReply where
  term : Int
  voteGranted : Bool
deriving Repr, DecidableEq

structure RequestAppendEntriesArgs (C : Type) where
  leaderTerm : Int
  leaderId : Int
  prevLogIndex : Int
  prevLogTerm : Int
  entries : List (Entry C)
  leaderCommit : Int
deriving Repr, DecidableEq

structure RequestAppendEntriesReply where
  followerTerm : Int
  success : Bool
  prevLogIndex : Int
  prevLogTerm : Int
deriving Repr, DecidableEq

structure RequestInstallSnapShotArgs where
  term : Int
  leaderId : Int
  lastIncludeIndex : Int
  lastIncludeTerm : Int
  snapshot : List UInt8
deriving Repr, DecidableEq

structure RequestInstallSnapShotReply where
  term : Int
deriving Repr, DecidableEq

namespace Raft
variable {C : Type}

/-! ### Elections -/

def becomeCandidate [Width] (rf : Raft C) : Raft C :=
  {rf with state := .candidate, currentTerm := wrap (rf.currentTerm + 1), votedFor := rf.me}

def becomeLeader [Width] (rf : Raft C) : Raft C := {rf with state := .leader}.resetTrackedIndex

/-- What one goroutine of `StartElection` is given. -/
structure VoteCall where
  serverId : Nat
  term : Int
  args : RequestVoteArgs
deriving Repr, DecidableEq

/-- The candidate and the calls it starts: one for every index of `peers` but `me`. -/
def startElection [Width] (rf : Raft C) : Raft C × List VoteCall :=
  let rf := rf.becomeCandidate
  let term := rf.currentTerm
  let args : RequestVoteArgs :=
    ⟨rf.currentTerm, rf.me, rf.log.lastLogIndex, rf.getLastEntryTerm⟩
  let rf := {rf.persist with electionVotes := 1, electionDone := false}
  (rf, ((List.range rf.peers.length).filter fun (i : Nat) => decide (rf.me ≠ i)).map fun i => ⟨i, term, args⟩)

/-- The goroutine's continuation when its call of election `term` returns. The flag
says whether it executed `becomeLeader`. -/
def electionReply [Width] (rf : Raft C) (term : Int) (reply : RequestVoteReply) : Raft C × Bool :=
  if rf.currentTerm ≠ term then (rf, false)
  else if rf.state ≠ .candidate then (rf, false)
  else if rf.electionDone then (rf, false)
  else if reply.term > rf.currentTerm then
    ({({rf with currentTerm := reply.term, state := .follower, votedFor := noVote} : Raft C).persist with
      electionDone := true}, false)
  else if reply.term < rf.currentTerm then (rf, false)
  else if reply.voteGranted then
    let rf := {rf with electionVotes := rf.electionVotes + 1}
    if rf.electionVotes > rf.peers.length / 2 then ({rf.becomeLeader with electionDone := true}, true)
    else (rf, false)
  else (rf, false)

/-- The candidate's log is at least as recent as the voter's; an empty log accepts
any candidate. -/
def upToDate [Width] (rf : Raft C) (args : RequestVoteArgs) : Bool :=
  if rf.log.lastLogIndex < rf.log.firstLogIndex then true
  else args.lastLogTerm > rf.getLastEntryTerm ||
    (args.lastLogTerm == rf.getLastEntryTerm && args.lastLogIndex ≥ rf.log.lastLogIndex)

def requestVote [Width] (rf : Raft C) (args : RequestVoteArgs) : Raft C × RequestVoteReply :=
  if rf.dead then (rf, ⟨rf.currentTerm, false⟩)
  else if args.term < rf.currentTerm then (rf.persist, ⟨rf.currentTerm, false⟩)
  else
    -- a higher term is adopted here, and `state` is left as it is
    let rf :=
      if args.term > rf.currentTerm then
        ({rf with currentTerm := args.term, votedFor := noVote} : Raft C).persist
      else rf
    if (rf.votedFor = noVote ∨ rf.votedFor = args.candidateId) ∧ rf.upToDate args then
      (({rf with votedFor := args.candidateId} : Raft C).persist, ⟨rf.currentTerm, true⟩)
    else (rf, ⟨rf.currentTerm, false⟩)

/-! ### Replication -/

/-- Take over a leader's term if it is higher, and follow. -/
def observeLeader (rf : Raft C) (leaderTerm : Int) : Raft C :=
  let rf :=
    if leaderTerm > rf.currentTerm then
      ({rf with currentTerm := leaderTerm, votedFor := -1} : Raft C).persist
    else rf
  {rf with state := .follower}

/-- The consistency check on the entry before the new ones. -/
def matchesPrev [Width] (rf : Raft C) (args : RequestAppendEntriesArgs C) : Option Bool :=
  if args.prevLogIndex > 0 then
    if rf.log.lastLogIndex < args.prevLogIndex then some false
    else (rf.log.getOneEntry args.prevLogIndex).map fun entry => decide (entry.term = args.prevLogTerm)
  else some true

def followCommit (rf : Raft C) (leaderCommit : Int) : Raft C :=
  if leaderCommit > rf.commitIndex then {rf with commitIndex := min leaderCommit rf.log.lastLogIndex}
  else rf

def handleAppendEntriesRPC [Width] (rf : Raft C) (args : RequestAppendEntriesArgs C) :
    Raft C × Option RequestAppendEntriesReply :=
  if rf.dead then (rf, some ⟨rf.currentTerm, false, 0, 0⟩)
  else if args.leaderTerm < rf.currentTerm then (rf, some ⟨rf.currentTerm, false, 0, 0⟩)
  else
    let rf := rf.observeLeader args.leaderTerm
    match rf.matchesPrev args with
    | none => (rf, none)
    | some false => (rf, some ⟨rf.currentTerm, false, 0, 0⟩)
    | some true =>
      let result := rf.log.overwriteFrom args.prevLogIndex args.entries
      let rf := {rf with log := result.1}
      if result.2 then (rf.followCommit args.leaderCommit, some ⟨rf.currentTerm, true, 0, 0⟩)
      else (rf, none)

/-- What `AppendEntries` has to send to one peer. -/
inductive Outgoing (C : Type) where
  /-- The node does not lead. -/
  | nothing
  /-- The peer is behind the log's start. -/
  | installSnapshot
  | entries (args : RequestAppendEntriesArgs C)
  | panic
deriving Repr, DecidableEq

/-- The heartbeat branch: only the term is filled in. -/
def heartbeatArgs (rf : Raft C) : Outgoing C :=
  if rf.state ≠ .leader then .nothing else .entries ⟨rf.currentTerm, 0, 0, 0, [], 0⟩

/-- The other branch, for the peer at index `target`. -/
def appendEntriesArgs [Width] (rf : Raft C) (target : Nat) : Outgoing C :=
  if rf.state ≠ .leader then .nothing
  else
    match rf.peerTrackers[target]? with
    | none => .panic
    | some tracker =>
      let prevLogIndex := min rf.log.lastLogIndex (wrap (tracker.nextIndex - 1))
      if wrap (prevLogIndex + 1) < rf.log.firstLogIndex then .installSnapshot
      else
        match rf.getEntryTerm prevLogIndex with
        | none => .panic
        | some prevLogTerm =>
          .entries ⟨rf.currentTerm, rf.me, prevLogIndex, prevLogTerm,
            rf.log.getAppendEntries (wrap (prevLogIndex + 1)), rf.commitIndex⟩

/-- A reply from a later term ends the leadership. -/
def stepDown (rf : Raft C) (term : Int) : Raft C :=
  ({rf with currentTerm := term, votedFor := noVote, state := .follower} : Raft C).persist

/-- The reply to a heartbeat. -/
def heartbeatReply (rf : Raft C) (reply : RequestAppendEntriesReply) : Raft C :=
  if rf.state ≠ .leader then rf
  else if reply.followerTerm < rf.currentTerm then rf
  else if reply.followerTerm > rf.currentTerm then rf.stepDown reply.followerTerm
  else rf

def setTracker (rf : Raft C) (target : Nat) (tracker : PeerTracker) : Raft C :=
  {rf with peerTrackers := rf.peerTrackers.set target tracker}

/-- Commit up to `matchIndex` if it is of this term and on a majority. -/
def tryCommitL [Width] (rf : Raft C) (matchIndex : Int) : Option (Raft C) :=
  if matchIndex < rf.commitIndex then some rf
  else if matchIndex > rf.log.lastLogIndex then some rf
  else if matchIndex < rf.log.firstLogIndex then some rf
  else
    match rf.getEntryTerm matchIndex with
    | none => none
    | some term =>
      if term ≠ rf.currentTerm then some rf
      else
        let holders := (List.range rf.peers.length).filter fun (i : Nat) =>
          decide ((i : Int) ≠ wrap (rf.me - 1)) && rf.peerTrackers[i]?.any fun t => matchIndex ≤ t.matchIndex
        if 1 + holders.length > rf.peers.length / 2 then some {rf with commitIndex := matchIndex}
        else some rf

/-- `for PrevIndex >= FirstLogIndex && term(PrevIndex) == term { PrevIndex-- }`; the
fuel is the number of indices down to the log's start. -/
def skipTerm [Width] (rf : Raft C) (term : Int) : Nat → Int → Option Int
  | 0, prevIndex => some prevIndex
  | fuel + 1, prevIndex =>
    if prevIndex ≥ rf.log.firstLogIndex then
      match rf.getEntryTerm prevIndex with
      | none => none
      | some t => if t = term then rf.skipTerm term fuel (wrap (prevIndex - 1)) else some prevIndex
    else some prevIndex

/-- Where to retry after a rejection; nothing when a snapshot is sent instead. -/
def retryIndex [Width] (rf : Raft C) (reply : RequestAppendEntriesReply) : Option (Option Int) :=
  if rf.log.empty then some none
  else if wrap (reply.prevLogIndex + 1) < rf.log.firstLogIndex then some none
  else if reply.prevLogIndex > rf.log.lastLogIndex then some (some (wrap (rf.log.lastLogIndex + 1)))
  else
    match rf.getEntryTerm reply.prevLogIndex with
    | none => none
    | some term =>
      if term = reply.prevLogTerm then some (some (wrap (reply.prevLogIndex + 1)))
      else
        match rf.skipTerm term (reply.prevLogIndex - rf.log.firstLogIndex + 1).toNat reply.prevLogIndex with
        | none => none
        | some prevIndex =>
          if wrap (prevIndex + 1) < rf.log.firstLogIndex ∧ rf.log.firstLogIndex > 1 then some none
          else some (some (wrap (prevIndex + 1)))

/-- The reply to entries sent to the peer at index `target`. -/
def appendReply [Width] (rf : Raft C) (target : Nat) (args : RequestAppendEntriesArgs C)
    (reply : RequestAppendEntriesReply) : Option (Raft C) :=
  if rf.state ≠ .leader then some rf
  else if reply.followerTerm < rf.currentTerm then some rf
  else if reply.followerTerm > rf.currentTerm then some (rf.stepDown reply.followerTerm)
  else
    match rf.peerTrackers[target]? with
    | none => none
    | some tracker =>
      if reply.success then
        if args.entries.length > 0 then
          let matchIndex := wrap (args.prevLogIndex + args.entries.length)
          (rf.setTracker target ⟨wrap (matchIndex + 1), matchIndex⟩).tryCommitL matchIndex
        else
          some (rf.setTracker target {tracker with
            nextIndex := max tracker.nextIndex (wrap (args.prevLogIndex + 1))})
      else
        match rf.retryIndex reply with
        | none => none
        | some none => some rf
        | some (some next) => some (rf.setTracker target {tracker with nextIndex := next})

/-- Append a command as leader; otherwise only the term is returned. -/
def start [Width] (rf : Raft C) (command : C) : Option (Raft C × Int × Int × Bool) :=
  if rf.state ≠ .leader then some (rf, -1, rf.currentTerm, false)
  else
    (rf.log.appendL [⟨rf.currentTerm, command⟩]).map fun log =>
      (({rf with log := log} : Raft C).persist, wrap (rf.log.lastLogIndex + 1), rf.currentTerm, true)

/-! ### Snapshots -/

/-- The log when everything up to `index` is dropped for a snapshot of the service. -/
def trimTo [Width] (rf : Raft C) (index : Int) : Option (Log C) :=
  let newFirstLogIndex := wrap (index + 1)
  if newFirstLogIndex ≤ rf.log.lastLogIndex then
    let k := rf.log.getRealIndex newFirstLogIndex
    if 0 ≤ k ∧ k ≤ rf.log.entries.length then
      some ⟨rf.log.entries.drop k.toNat, newFirstLogIndex, rf.log.lastLogIndex⟩
    else none
  else some ⟨[], newFirstLogIndex, wrap (newFirstLogIndex - 1)⟩

/-- The same for a snapshot of the leader, which compares before it adds. -/
def compactTo [Width] (rf : Raft C) (index : Int) : Option (Log C) :=
  if index ≥ rf.log.lastLogIndex then some ⟨[], wrap (index + 1), index⟩
  else
    let k := rf.log.getRealIndex (wrap (index + 1))
    if 0 ≤ k ∧ k ≤ rf.log.entries.length then
      some ⟨rf.log.entries.drop k.toNat, wrap (index + 1), rf.log.lastLogIndex⟩
    else none

/-- The service's call; an index past the applied ones panics. -/
def takeSnapshot [Width] (rf : Raft C) (index : Int) (snapshot : List UInt8) : Option (Raft C) :=
  if rf.state ≠ .leader then some rf
  else if rf.log.firstLogIndex ≤ index then
    if index > rf.lastApplied then none
    else
      match rf.getEntryTerm index, rf.trimTo index with
      | some term, some log =>
        some ({rf with
          snapshot := snapshot
          snapshotLastIncludeIndex := index
          snapshotLastIncludeTerm := term
          log := log
          commitIndex := max rf.commitIndex index
          lastApplied := max rf.lastApplied index} : Raft C).persist
      | _, _ => none
  else some rf

/-- The part of `RequestInstallSnapshot` that replaces the state. -/
def installState [Width] (rf : Raft C) (args : RequestInstallSnapShotArgs) : Raft C × Bool :=
  let rf := {rf with
    snapshot := args.snapshot
    snapshotLastIncludeIndex := args.lastIncludeIndex
    snapshotLastIncludeTerm := args.lastIncludeTerm}
  match rf.compactTo args.lastIncludeIndex with
  | none => (rf, false)
  | some log =>
    let rf := {rf with log := log}
    let rf :=
      if args.lastIncludeIndex > rf.lastApplied then
        {rf with
          -- a snapshot message never panics in `tryApply`
          applyHelper := (rf.applyHelper.tryApply
            (.snapshot args.lastIncludeIndex args.lastIncludeTerm args.snapshot)).getD rf.applyHelper
          lastApplied := args.lastIncludeIndex}
      else rf
    ({rf with commitIndex := max rf.commitIndex args.lastIncludeIndex}, true)

def requestInstallSnapshot [Width] (rf : Raft C) (args : RequestInstallSnapShotArgs) :
    Raft C × Option RequestInstallSnapShotReply :=
  if args.term < rf.currentTerm then (rf, some ⟨rf.currentTerm⟩)
  else
    let rf := {rf with state := .follower}
    let rf :=
      if args.term > rf.currentTerm then {rf with votedFor := -1, currentTerm := args.term} else rf
    if args.lastIncludeIndex > rf.snapshotLastIncludeIndex then
      let result := rf.installState args
      (result.1.persist, if result.2 then some ⟨rf.currentTerm⟩ else none)
    else (rf.persist, some ⟨rf.currentTerm⟩)

/-- The reply to a snapshot sent to the peer at index `serverId`. -/
def installSnapshotReply [Width] (rf : Raft C) (serverId : Nat) (args : RequestInstallSnapShotArgs)
    (reply : RequestInstallSnapShotReply) : Option (Raft C) :=
  if rf.state ≠ .leader then some rf
  else if reply.term < rf.currentTerm then some rf
  else if reply.term > rf.currentTerm then some (rf.stepDown reply.term)
  else if serverId < rf.peerTrackers.length then
    (rf.setTracker serverId ⟨wrap (args.lastIncludeIndex + 1), args.lastIncludeIndex⟩).tryCommitL
      args.lastIncludeIndex
  else none

/-! ### Applying and stopping -/

/-- The guard of the inner loop of `sendMsgToTester`. -/
def hasNext [Width] (rf : Raft C) : Bool :=
  wrap (rf.lastApplied + 1) ≤ rf.commitIndex && wrap (rf.lastApplied + 1) ≤ rf.log.lastLogIndex

/-- One turn of that loop: the next entry goes to the service. -/
def applyNext [Width] (rf : Raft C) : Option (Raft C) :=
  let i := wrap (rf.lastApplied + 1)
  if i < rf.log.firstLogIndex then none
  else
    match rf.log.getOneEntry i with
    | none => none
    | some entry =>
      (rf.applyHelper.tryApply (.command i entry.command)).map fun helper =>
        {rf with lastApplied := i, applyHelper := helper}

/-- The inner loop, which a wake-up runs to its end. -/
def sendMsgToTester [Width] (rf : Raft C) : Nat → Option (Raft C)
  | 0 => some rf
  | fuel + 1 =>
    if rf.hasNext then
      match rf.applyNext with
      | none => none
      | some rf' => rf'.sendMsgToTester fuel
    else some rf

def kill (rf : Raft C) : Raft C := {rf with dead := true, state := .follower}

/-! ### What following a leader leaves alone -/

theorem observeLeader_kept (rf : Raft C) (term : Int) :
    (rf.observeLeader term).log = rf.log ∧ (rf.observeLeader term).commitIndex = rf.commitIndex ∧
      (rf.observeLeader term).lastApplied = rf.lastApplied ∧
        (rf.observeLeader term).applyHelper = rf.applyHelper := by
  unfold observeLeader
  dsimp only
  split
  · exact ⟨persist_log _, persist_commitIndex _, persist_lastApplied _, persist_applyHelper _⟩
  · exact ⟨rfl, rfl, rfl, rfl⟩

theorem matchesPrev_observeLeader [Width] (rf : Raft C) (term : Int) (args : RequestAppendEntriesArgs C) :
    (rf.observeLeader term).matchesPrev args = rf.matchesPrev args := by
  unfold matchesPrev
  rw [(rf.observeLeader_kept term).1]

end Raft
end Wjetcd
