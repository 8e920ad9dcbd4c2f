import Wjetcd.Raft.Log

/-! One Raft peer: its fields, `Make`, and the helpers its handlers share.

The record follows `raft/raft.go`. The mutex, the condition variable, channels
and the timers are left out: every handler runs under the lock, so a handler is
a function of the record, and when a timer fires is for the callers to choose.
`me` is the id the node was started with, which is 1-based in a deployed
cluster while `peers` and `peerTrackers` are 0-based. -/
namespace Wjetcd

inductive Role where
  | follower
  | candidate
  | leader
deriving Repr, DecidableEq

/-- What `persist` encodes. -/
structure RaftState (C : Type) where
  currentTerm : Int
  votedFor : Int
  log : Log C
  snapshotLastIncludeIndex : Int
  snapshotLastIncludeTerm : Int
deriving Repr, DecidableEq

structure Persister (C : Type) where
  raftstate : Option (RaftState C)
  snapshot : List UInt8
deriving Repr, DecidableEq

def makePersister {C : Type} : Persister C := ⟨none, []⟩

structure PeerTracker where
  nextIndex : Int
  matchIndex : Int
deriving Repr, DecidableEq

/-- A message for the service: a committed command or an installed snapshot. -/
inductive ApplyMsg (C : Type) where
  | command (index : Int) (command : C)
  | snapshot (index : Int) (term : Int) (data : List UInt8)
deriving Repr, DecidableEq

structure ApplyHelper (C : Type) where
  lastItemIndex : Int
  q : List (ApplyMsg C)
deriving Repr, DecidableEq

/-- Queue a message unless it is old; a command that skips an index panics. -/
def ApplyHelper.tryApply {C : Type} [Width] (helper : ApplyHelper C) : ApplyMsg C → Option (ApplyHelper C)
  | .command index cmd =>
    if index ≤ helper.lastItemIndex then some helper
    else if index = wrap (helper.lastItemIndex + 1) then
      some ⟨wrap (helper.lastItemIndex + 1), helper.q ++ [.command index cmd]⟩
    else none
  | .snapshot index term data =>
    if index ≤ helper.lastItemIndex then some helper
    else some ⟨index, helper.q ++ [.snapshot index term data]⟩

structure Raft (C : Type) where
  peers : List String
  persister : Persister C
  me : Int
  dead : Bool
  state : Role
  currentTerm : Int
  votedFor : Int
  peerTrackers : List PeerTracker
  log : Log C
  commitIndex : Int
  lastApplied : Int
  applyHelper : ApplyHelper C
  snapshot : List UInt8
  snapshotLastIncludeIndex : Int
  snapshotLastIncludeTerm : Int
  electionVotes : Nat
  electionDone : Bool
deriving Repr, DecidableEq

namespace Raft
variable {C : Type}

/-- The constant `None`: no vote has been cast in the term. -/
def noVote : Int := -1

def persist (rf : Raft C) : Raft C :=
  let data : RaftState C :=
    ⟨rf.currentTerm, rf.votedFor, rf.log, rf.snapshotLastIncludeIndex, rf.snapshotLastIncludeTerm⟩
  if rf.snapshotLastIncludeIndex > 0 then {rf with persister := ⟨some data, rf.snapshot⟩}
  else {rf with persister := {rf.persister with raftstate := some data}}

/-- Gob omits a zero field of a struct, so decoding leaves that field of the
destination as it was. -/
def gobDecodeLog (dst data : Log C) : Log C :=
  { entries := if data.entries.isEmpty then dst.entries else data.entries
    firstLogIndex := if data.firstLogIndex = 0 then dst.firstLogIndex else data.firstLogIndex
    lastLogIndex := if data.lastLogIndex = 0 then dst.lastLogIndex else data.lastLogIndex }

def readPersist (rf : Raft C) : Raft C :=
  match rf.persister.raftstate with
  | none => rf
  | some data =>
    {rf with
      currentTerm := data.currentTerm
      votedFor := data.votedFor
      log := gobDecodeLog rf.log data.log
      snapshotLastIncludeIndex := data.snapshotLastIncludeIndex
      snapshotLastIncludeTerm := data.snapshotLastIncludeTerm
      snapshot := rf.persister.snapshot
      commitIndex := data.snapshotLastIncludeIndex
      lastApplied := data.snapshotLastIncludeIndex}

/-- A node as `Make` starts it. -/
def make (peers : List String) (me : Int) (persister : Persister C) : Raft C :=
  let rf : Raft C :=
    { peers := peers
      persister := persister
      me := me
      dead := false
      state := .follower
      currentTerm := 0
      votedFor := noVote
      peerTrackers := []
      log := Log.newLog
      commitIndex := 0
      lastApplied := -1
      applyHelper := ⟨0, []⟩
      snapshot := []
      snapshotLastIncludeIndex := 0
      snapshotLastIncludeTerm := 0
      electionVotes := 0
      electionDone := false }
  let rf := rf.readPersist
  {rf with
    applyHelper := ⟨rf.lastApplied, []⟩
    peerTrackers := List.replicate peers.length ⟨0, 0⟩}

/-- The term at an index: the snapshot's just before the log, -1 outside it. -/
def getEntryTerm [Width] (rf : Raft C) (index : Int) : Option Int :=
  if index = wrap (rf.log.firstLogIndex - 1) then some rf.snapshotLastIncludeTerm
  else if index < rf.log.firstLogIndex ∨ index > rf.log.lastLogIndex then some (-1)
  else (rf.log.getOneEntry index).map Entry.term

def getLastEntryTerm [Width] (rf : Raft C) : Int :=
  if rf.log.lastLogIndex ≥ rf.log.firstLogIndex then
    match rf.log.getOneEntry rf.log.lastLogIndex with
    | none => 0
    | some entry => entry.term
  else rf.snapshotLastIncludeTerm

def resetTrackedIndex [Width] (rf : Raft C) : Raft C :=
  {rf with peerTrackers := rf.peerTrackers.map fun _ => ⟨wrap (rf.log.lastLogIndex + 1), 0⟩}

/-! ### What persisting leaves alone -/

section Persist
variable (rf : Raft C)

@[simp] theorem persist_state : rf.persist.state = rf.state := by unfold persist; split <;> rfl
@[simp] theorem persist_currentTerm : rf.persist.currentTerm = rf.currentTerm := by
  unfold persist; split <;> rfl
@[simp] theorem persist_votedFor : rf.persist.votedFor = rf.votedFor := by
  unfold persist; split <;> rfl
@[simp] theorem persist_me : rf.persist.me = rf.me := by unfold persist; split <;> rfl
@[simp] theorem persist_peers : rf.persist.peers = rf.peers := by unfold persist; split <;> rfl
@[simp] theorem persist_dead : rf.persist.dead = rf.dead := by unfold persist; split <;> rfl
@[simp] theorem persist_log : rf.persist.log = rf.log := by unfold persist; split <;> rfl
@[simp] theorem persist_electionVotes : rf.persist.electionVotes = rf.electionVotes := by
  unfold persist; split <;> rfl
@[simp] theorem persist_electionDone : rf.persist.electionDone = rf.electionDone := by
  unfold persist; split <;> rfl
@[simp] theorem persist_lastApplied : rf.persist.lastApplied = rf.lastApplied := by
  unfold persist; split <;> rfl
@[simp] theorem persist_applyHelper : rf.persist.applyHelper = rf.applyHelper := by
  unfold persist; split <;> rfl
@[simp] theorem persist_commitIndex : rf.persist.commitIndex = rf.commitIndex := by
  unfold persist; split <;> rfl
@[simp] theorem persist_peerTrackers : rf.persist.peerTrackers = rf.peerTrackers := by
  unfold persist; split <;> rfl
@[simp] theorem persist_snapshotLastIncludeIndex :
    rf.persist.snapshotLastIncludeIndex = rf.snapshotLastIncludeIndex := by
  unfold persist; split <;> rfl
@[simp] theorem persist_snapshotLastIncludeTerm :
    rf.persist.snapshotLastIncludeTerm = rf.snapshotLastIncludeTerm := by
  unfold persist; split <;> rfl

end Persist

end Raft
end Wjetcd
