import Wjetcd.Raft.Handlers
import Wjetcd.Server.Apply
import Wjetcd.Server.Wire

/-! A server process: the machine together with what the apply loop touches besides
it, the reply channels, the journal, the watch events and the Raft node.

`Process.iterate` is what one iteration of `applyLoop` leaves behind. The loop
itself, with its locks, is in `Server.Locking`. -/
namespace Wjetcd

/-- What a log entry carries: a command the node was handed itself, one that came
in a message, or something else. -/
inductive Payload where
  | typed (cmd : Command)
  | object (m : GoMap Bytes Value)
  | other

/-- `cmd, ok := msg.Command.(kv.Command)`, and the conversion if it is a map. -/
def Payload.decode : Payload → Option Command
  | .typed cmd => some cmd
  | .object m => some (Command.ofMap m)
  | .other => none

/-- What arrives on `applyCh`: messages of the Raft node and the barrier of `Shutdown`. -/
inductive Message where
  | barrier
  | raft (msg : ApplyMsg Payload)

/-- The index and command of a message that the loop goes on with. -/
def Message.decode : Message → Option (Int × Command)
  | .raft (.command index payload) => payload.decode.map fun cmd => (index, cmd)
  | _ => none

inductive EventType where
  | put
  | delete
deriving Repr, DecidableEq

structure WatchEvent where
  key : Bytes
  value : Bytes
  type : EventType
  revision : Int
deriving Repr, DecidableEq

/-- The event `notifyWatchers` logs for a command. -/
def watchEvent (cmd : Command) : Option WatchEvent :=
  match cmd.type with
  | .put => some ⟨cmd.key, cmd.value, .put, cmd.revision⟩
  | .delete => some ⟨cmd.key, cmd.value, .delete, cmd.revision⟩
  | .deletePrefix => some ⟨cmd.key, cmd.value, .delete, cmd.revision⟩
  | _ => none

/-- A reply channel has room for one result; `buffers` has those that hold one. The
channels of the watchers are left out. -/
structure Process where
  server : Server
  rf : Raft Payload
  replyCh : GoMap Int Nat
  buffers : GoMap Nat (Except String Bytes)
  journal : List Command
  eventLog : List WatchEvent

namespace Process

/-- A process that found nothing to recover. -/
def fresh (peers : List String) (id : Int) : Process :=
  ⟨Server.fresh, Raft.make peers id makePersister, ∅, ∅, [], []⟩

def withMachine (p : Process) (m : Machine) : Process :=
  {p with server := {p.server with machine := m}}

/-- The channel registered under an index gets the result, if it has room, and is
forgotten. -/
def notifyReply (p : Process) (cmdIdx : Int) (result : Except String Bytes) : Process :=
  match p.replyCh[cmdIdx]? with
  | none => p
  | some ch =>
    {p with
      buffers := if p.buffers[ch]?.isNone then p.buffers.insert ch result else p.buffers
      replyCh := p.replyCh.erase cmdIdx}

/-- `if msg.CommandIndex > s.rf.LastApplied { .. }` -/
def markApplied (p : Process) (index : Int) : Process :=
  if index > p.rf.lastApplied then {p with rf := {p.rf with lastApplied := index}} else p

/-- The types that the loop answers before it gives up the server's lock. -/
def answersLocked (type : CommandType) : Bool :=
  type = .get ∨ type = .getPrefix ∨ type = .deletePrefix

/-- What is left of an iteration once the command has been executed. -/
def answer (p : Process) (index : Int) (type : CommandType) (result : Except String Bytes) : Process :=
  (if 0 ≤ index ∨ answersLocked type then p.notifyReply index result else p).markApplied index

/-- What an iteration does under the server's lock. -/
def perform (p : Process) (iteration : Iteration) : Process :=
  {p with
    server := iteration.server
    journal := p.journal ++ iteration.journaled.toList
    eventLog := p.eventLog ++ iteration.notified.filterMap watchEvent}

/-- What it does afterwards. Nothing is marked as applied if the command was not
journaled. -/
def conclude (p : Process) (index : Int) (type : CommandType) (iteration : Iteration) : Process :=
  if iteration.journaled.isSome then p.answer index type iteration.reply
  else p.notifyReply index iteration.reply

/-- An iteration with a command; `writeErr` is how `WriteEntry` ends. -/
def deliver (p : Process) (env : Env) (writeErr : Option String) (index : Int) (cmd : Command) :
    Process :=
  let iteration := p.server.applyLoop ⟨env, cmd, writeErr⟩
  (p.perform iteration).conclude index cmd.type iteration

/-- One iteration of `applyLoop`. -/
def iterate (p : Process) (env : Env) (writeErr : Option String) (msg : Message) : Process :=
  match msg.decode with
  | none => p
  | some (index, cmd) => p.deliver env writeErr index cmd

section Deliver
variable (p : Process) (env : Env) (index : Int) (cmd : Command)

theorem deliver_stopped (writeErr : Option String) {failure : String}
    (h : p.server.persistenceErr = some failure) :
    p.deliver env writeErr index cmd =
      (p.withMachine (p.server.machine.fill env.now cmd).1).notifyReply index (.error failure) := by
  simp [deliver, perform, conclude, Server.applyLoop, withMachine, h]

theorem deliver_failed (err : String) (h : p.server.persistenceErr = none) :
    p.deliver env (some err) index cmd =
      {p with server := ⟨(p.server.machine.fill env.now cmd).1, some ("write WAL: " ++ err)⟩}.notifyReply
        index (.error ("write WAL: " ++ err)) := by
  simp [deliver, perform, conclude, Server.applyLoop, h]

theorem deliver_executed (h : p.server.persistenceErr = none) :
    p.deliver env none index cmd =
      (let filled := p.server.machine.fill env.now cmd
      let outcome := filled.1.execute env filled.2
      {p.withMachine outcome.machine with
        journal := p.journal ++ [filled.2]
        eventLog := p.eventLog ++ outcome.notified.filterMap watchEvent}.answer index cmd.type
          (.ok outcome.result)) := by
  simp [deliver, perform, conclude, Server.applyLoop, h, withMachine]

end Deliver

end Process
end Wjetcd
