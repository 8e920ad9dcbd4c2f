import Wjetcd.Lib.Runs
import Wjetcd.Server.Process
import Wjetcd.Server.Recovery

/-! Shutting down a server.

Four goroutines stand between Raft's log and the machine: `sendMsgToTester` puts committed entries
into the queue of the `ApplyHelper`, its `applier` moves them to `applyCh`, and `applyLoop`
executes them; `cleanupLoop` runs beside. `Shutdown` ends one after the other: it kills Raft,
waits until the first two are gone, sends a barrier after their messages, stops the loop when
the barrier has come through, and saves the machine. Two of the goroutines wait on condition
variables, with a flag that is set before the broadcast.

`shutdown_drains`: what is saved is the machine after all messages that had been queued when the
helper was told to stop, and maybe some more, in their order. `shutdown_returns`: no wakeup is
lost and nobody waits for anybody forever, unless the loop waits for itself (`Locking`). -/
namespace Wjetcd.Shutdown
open Runs

/-! ### The goroutines -/

/-- How far `Shutdown` has got. -/
inductive Phase where
  | serving
  /-- `rf.dead` is set, and `Kill` waits for `rf.Mu`. -/
  | killing
  | locked
  /-- `applyHelper.dead` is set. -/
  | stored
  /-- The applier has been woken, and next the sender is. -/
  | woken
  /-- `Kill` has returned, and `WaitForApplyExit` waits for the sender. -/
  | killed
  /-- It waits for the applier. -/
  | quiesced
  | drained
  /-- The barrier has been sent. -/
  | barred
  | answered
  /-- `applyStop` is closed. -/
  | stopping
  /-- `cleanupStop` is closed. -/
  | stopped
  | saving
  | returned
deriving Repr, DecidableEq

def Phase.rank : Phase → Nat
  | .serving => 0
  | .killing => 1
  | .locked => 2
  | .stored => 3
  | .woken => 4
  | .killed => 5
  | .quiesced => 6
  | .drained => 7
  | .barred => 8
  | .answered => 9
  | .stopping => 10
  | .stopped => 11
  | .saving => 12
  | .returned => 13

instance : Preorder Phase := Preorder.lift Phase.rank

instance (p q : Phase) : Decidable (p ≤ q) := inferInstanceAs (Decidable (p.rank ≤ q.rank))

/-- `sendMsgToTester`, which has `rf.Mu` whenever it does not wait for it or on `applyCond`. -/
inductive Sender where
  | acquiring
  | turning
  | waiting
  | done
deriving Repr, DecidableEq

/-- `applyCond.Broadcast()` -/
def Sender.wake : Sender → Sender
  | .waiting => .acquiring
  | sender => sender

/-- The `applier` of the helper. -/
inductive Applier where
  | checking
  | asleep
  | sending (msg : ApplyMsg Payload)
  | done

/-- `applyHelper.cond.Broadcast()` -/
def Applier.wake : Applier → Applier
  | .asleep => .checking
  | applier => applier

/-- The message that has left the queue and has not been sent. -/
def Applier.held : Applier → List (ApplyMsg Payload)
  | .sending msg => [msg]
  | _ => []

/-- `applyLoop`, between two iterations. -/
inductive Loop where
  | ready
  /-- It waits for a lock of its own. -/
  | blocked
  | done
deriving Repr, DecidableEq

inductive Cleanup where
  | selecting
  | sweeping
  | done
deriving Repr, DecidableEq

structure Stopping where
  phase : Phase
  sender : Sender
  helper : ApplyHelper Payload
  applier : Applier
  applyCh : List Message
  barrierClosed : Bool
  loop : Loop
  cleanup : Cleanup
  server : Server
  /-- The machine that `savePersistentState` was called for. -/
  saved : Option Machine
  /-- All that `tryApply` has queued. -/
  emitted : List (ApplyMsg Payload)
  /-- What it had queued when the helper was told to stop. -/
  owed : List (ApplyMsg Payload)
  /-- What the loop has received. -/
  handled : List (ApplyMsg Payload)
  /-- What it has executed. -/
  executed : List Delivery

/-- The goroutines have been started. -/
def boot (server : Server) : Stopping where
  phase := .serving
  sender := .acquiring
  helper := ⟨-1, []⟩
  applier := .checking
  applyCh := []
  barrierClosed := false
  loop := .ready
  cleanup := .selecting
  server := server
  saved := none
  emitted := []
  owed := []
  handled := []
  executed := []

inductive Action where
  /-- Raft calls `tryApply`. -/
  | emit (msg : ApplyMsg Payload)
  /-- Raft calls `applyCond.Broadcast`. -/
  | broadcast
  /-- The ticker of `cleanupLoop` fires. -/
  | tick
  | acquire
  | turn
  | check
  | send
  | receive (env : Env) (writeErr : Option String)
  | leave
  | swept
  | quit
  /-- The next statement of `Shutdown`. -/
  | shutdown

/-- What happens to the goroutines from outside. -/
def Action.outside : Action → Bool
  | .emit _ | .broadcast | .tick => true
  | _ => false

namespace Stopping

/-- `Kill` has `rf.Mu`. -/
def locks (s : Stopping) : Bool := decide (.locked ≤ s.phase ∧ s.phase ≤ .woken)

/-- Raft calls `tryApply` with `rf.Mu` locked: the sender, or the handler of a snapshot. -/
def emit (s : Stopping) (msg : ApplyMsg Payload) : Option Stopping :=
  if s.locks then none
  else
    (s.helper.tryApply msg).map fun helper =>
      if helper.q.length = s.helper.q.length then {s with helper := helper}
      else {s with helper := helper, emitted := s.emitted ++ [msg], applier := s.applier.wake}

def broadcast (s : Stopping) : Option Stopping :=
  if s.locks then none else some {s with sender := s.sender.wake}

def tick (s : Stopping) : Option Stopping :=
  if s.cleanup = .selecting then some {s with cleanup := .sweeping} else none

/-- The sender gets `rf.Mu`. -/
def acquire (s : Stopping) : Option Stopping :=
  if s.sender = .acquiring ∧ s.locks = false then some {s with sender := .turning} else none

/-- The condition of the sender's outer loop, and `applyCond.Wait()`. -/
def turn (s : Stopping) : Option Stopping :=
  if s.sender = .turning then
    some {s with sender := if .killing ≤ s.phase then .done else .waiting}
  else none

/-- What the applier does with `applyHelper.mu` locked. -/
def check (s : Stopping) : Option Stopping :=
  match s.applier, s.helper.q with
  | .checking, [] => some {s with applier := if .stored ≤ s.phase then .done else .asleep}
  | .checking, msg :: rest => some {s with applier := .sending msg, helper := {s.helper with q := rest}}
  | _, _ => none

/-- `applyCh` has room for 100 messages. -/
def send (s : Stopping) : Option Stopping :=
  match s.applier with
  | .sending msg =>
    if s.applyCh.length < 100 then some {s with applier := .checking, applyCh := s.applyCh ++ [.raft msg]} else none
  | _ => none

/-- An iteration of the loop. -/
def receive (s : Stopping) (env : Env) (writeErr : Option String) : Option Stopping :=
  match s.loop, s.applyCh with
  | .ready, .barrier :: rest => some {s with applyCh := rest, barrierClosed := true}
  | .ready, .raft msg :: rest =>
    let s := {s with applyCh := rest, handled := s.handled ++ [msg]}
    match (Message.raft msg).decode with
    | none => some s
    | some (_, cmd) =>
      if s.server.persistenceErr = none ∧ writeErr = none ∧ Process.answersLocked cmd.type = true then
        some {s with loop := .blocked}
      else
        some {s with
          server := (s.server.applyLoop ⟨env, cmd, writeErr⟩).server
          executed := s.executed ++ [⟨env, cmd, writeErr⟩]}
  | _, _ => none

/-- `case <-s.applyStop: return` -/
def leave (s : Stopping) : Option Stopping :=
  if s.loop = .ready ∧ .stopping ≤ s.phase then some {s with loop := .done} else none

def swept (s : Stopping) : Option Stopping :=
  if s.cleanup = .sweeping then some {s with cleanup := .selecting} else none

/-- `case <-s.cleanupStop: return` -/
def quit (s : Stopping) : Option Stopping :=
  if s.cleanup = .selecting ∧ .stopped ≤ s.phase then some {s with cleanup := .done} else none

def shutdown (s : Stopping) : Option Stopping :=
  match s.phase with
  | .serving => some {s with phase := .killing}
  | .killing => if s.sender = .turning then none else some {s with phase := .locked}
  | .locked => some {s with phase := .stored, owed := s.emitted}
  | .stored => some {s with phase := .woken, applier := s.applier.wake}
  | .woken => some {s with phase := .killed, sender := s.sender.wake}
  | .killed => if s.sender = .done then some {s with phase := .quiesced} else none
  | .quiesced =>
    match s.applier with
    | .done => some {s with phase := .drained}
    | _ => none
  | .drained =>
    if s.applyCh.length < 100 then some {s with phase := .barred, applyCh := s.applyCh ++ [.barrier]} else none
  | .barred => if s.barrierClosed then some {s with phase := .answered} else none
  | .answered => some {s with phase := .stopping}
  | .stopping => if s.loop = .done then some {s with phase := .stopped} else none
  | .stopped => if s.cleanup = .done then some {s with phase := .saving} else none
  | .saving =>
    some {s with
      phase := .returned
      saved := if s.server.persistenceErr = none then some s.server.machine else none}
  | .returned => none

end Stopping

def step (action : Action) (s : Stopping) : Option Stopping :=
  match action with
  | .emit msg => s.emit msg
  | .broadcast => s.broadcast
  | .tick => s.tick
  | .acquire => s.acquire
  | .turn => s.turn
  | .check => s.check
  | .send => s.send
  | .receive env writeErr => s.receive env writeErr
  | .leave => s.leave
  | .swept => s.swept
  | .quit => s.quit
  | .shutdown => s.shutdown

/-! ### What is where -/

/-- The messages of the helper that are in `applyCh`, and where the barrier is. -/
inductive Traffic : Phase → Bool → List Message → List (ApplyMsg Payload) → Prop
  | flowing {p : Phase} (h : ¬.barred ≤ p) (msgs : List (ApplyMsg Payload)) :
      Traffic p false (msgs.map .raft) msgs
  | pending (msgs : List (ApplyMsg Payload)) : Traffic .barred false (msgs.map .raft ++ [.barrier]) msgs
  | passed {p : Phase} (h : .barred ≤ p) : Traffic p true [] []

/-- The command of a message, if it has one. -/
def commandOf (msg : ApplyMsg Payload) : Option Command := (Message.raft msg).decode.map Prod.snd

structure Inv (server : Server) (s : Stopping) (inFlight : List (ApplyMsg Payload)) : Prop where
  traffic : Traffic s.phase s.barrierClosed s.applyCh inFlight
  /-- No message is lost or doubled, and none overtakes another. -/
  conserved : s.handled ++ inFlight ++ s.applier.held ++ s.helper.q = s.emitted
  owed : .stored ≤ s.phase → s.owed <+: s.emitted
  /-- The applier goes when it has sent all that it owes. -/
  emptied : s.applier = .done → .stored ≤ s.phase ∧ s.owed <+: s.handled ++ inFlight
  drained : .drained ≤ s.phase → s.applier = .done
  awake : .woken ≤ s.phase → s.applier ≠ .asleep
  roused : .killed ≤ s.phase → s.sender ≠ .waiting
  ended : s.loop = .done → .stopping ≤ s.phase
  stopped : .stopped ≤ s.phase → s.loop = .done
  executed : s.loop ≠ .blocked → s.executed.map Delivery.cmd = s.handled.filterMap commandOf
  live : s.server = (server.live s.executed).1
  saved : s.phase = .returned →
    s.saved = if s.server.persistenceErr = none then some s.server.machine else none

theorem boot_inv (server : Server) : Inv server (boot server) [] where
  traffic := .flowing (show ¬Phase.barred ≤ .serving by decide) []
  conserved := rfl
  owed h := absurd h (show ¬Phase.stored ≤ .serving by decide)
  emptied := nofun
  drained h := absurd h (show ¬Phase.drained ≤ .serving by decide)
  awake h := absurd h (show ¬Phase.woken ≤ .serving by decide)
  roused h := absurd h (show ¬Phase.killed ≤ .serving by decide)
  ended := nofun
  stopped h := absurd h (show ¬Phase.stopped ≤ .serving by decide)
  executed _ := rfl
  live := rfl
  saved := nofun

section Steps
variable {server : Server} {s t : Stopping} {inFlight : List (ApplyMsg Payload)}

theorem Applier.wake_held (applier : Applier) : applier.wake.held = applier.held := by
  cases applier <;> rfl

theorem Applier.wake_ne_asleep (applier : Applier) : applier.wake ≠ .asleep := by
  cases applier <;> exact nofun

theorem Applier.wake_done {applier : Applier} : applier.wake = .done ↔ applier = .done := by
  cases applier <;> simp [Applier.wake]

theorem Sender.wake_ne_waiting (sender : Sender) : sender.wake ≠ .waiting := by
  cases sender <;> decide

/-- The helper queues a message at the end, or leaves it out. -/
theorem tryApply_queue {helper helper' : ApplyHelper Payload} {msg : ApplyMsg Payload}
    (h : helper.tryApply msg = some helper') : helper'.q = helper.q ∨ helper'.q = helper.q ++ [msg] := by
  unfold ApplyHelper.tryApply at h
  split at h
  · split at h
    · cases h
      exact Or.inl rfl
    split at h
    · cases h
      exact Or.inr rfl
    · cases h
  · split at h
    · cases h
      exact Or.inl rfl
    · cases h
      exact Or.inr rfl

/-! ### What a step can do -/

theorem emit_cases {msg : ApplyMsg Payload} (hs : s.emit msg = some t) : ∃ helper : ApplyHelper Payload,
    (helper.q = s.helper.q ∧ t = {s with helper := helper}) ∨
      (helper.q = s.helper.q ++ [msg] ∧
        t = {s with helper := helper, emitted := s.emitted ++ [msg], applier := s.applier.wake}) := by
  unfold Stopping.emit at hs
  split at hs
  · cases hs
  obtain ⟨helper, hhelper, rfl⟩ := Option.map_eq_some_iff.mp hs
  refine ⟨helper, ?_⟩
  rcases tryApply_queue hhelper with hq | hq
  · exact Or.inl ⟨hq, if_pos (congrArg List.length hq)⟩
  · exact Or.inr ⟨hq, if_neg (by simp [hq])⟩

theorem check_cases (hs : s.check = some t) : s.applier = .checking ∧
    ((s.helper.q = [] ∧ t = {s with applier := if .stored ≤ s.phase then .done else .asleep}) ∨
      ∃ msg rest, s.helper.q = msg :: rest ∧
        t = {s with applier := .sending msg, helper := {s.helper with q := rest}}) := by
  unfold Stopping.check at hs
  split at hs
  · rename_i happlier hq
    exact ⟨happlier, Or.inl ⟨hq, (Option.some.inj hs).symm⟩⟩
  · rename_i msg rest happlier hq
    exact ⟨happlier, Or.inr ⟨msg, rest, hq, (Option.some.inj hs).symm⟩⟩
  · cases hs

theorem send_cases (hs : s.send = some t) : ∃ msg, s.applier = .sending msg ∧
    t = {s with applier := .checking, applyCh := s.applyCh ++ [.raft msg]} := by
  unfold Stopping.send at hs
  split at hs
  · rename_i msg happlier
    exact ⟨msg, happlier, (Option.some.inj (Option.ite_none_right_eq_some.mp hs).2).symm⟩
  · cases hs

/-- An iteration of the loop has closed the barrier, passed over a message, begun to wait for
itself, or executed a command. -/
inductive Received (s : Stopping) (env : Env) (writeErr : Option String) : Stopping → Prop
  | barrier {rest : List Message} (hch : s.applyCh = .barrier :: rest) :
      Received s env writeErr {s with applyCh := rest, barrierClosed := true}
  | passed {msg : ApplyMsg Payload} {rest : List Message} (hch : s.applyCh = .raft msg :: rest)
      (hcmd : commandOf msg = none) :
      Received s env writeErr {s with applyCh := rest, handled := s.handled ++ [msg]}
  | blocked {msg : ApplyMsg Payload} {rest : List Message} {cmd : Command}
      (hch : s.applyCh = .raft msg :: rest) (hcmd : commandOf msg = some cmd)
      (hlocked : Process.answersLocked cmd.type = true) :
      Received s env writeErr {s with applyCh := rest, handled := s.handled ++ [msg], loop := .blocked}
  | executed {msg : ApplyMsg Payload} {rest : List Message} {cmd : Command}
      (hch : s.applyCh = .raft msg :: rest) (hcmd : commandOf msg = some cmd) :
      Received s env writeErr {s with
        applyCh := rest
        handled := s.handled ++ [msg]
        server := (s.server.applyLoop ⟨env, cmd, writeErr⟩).server
        executed := s.executed ++ [⟨env, cmd, writeErr⟩]}

theorem receive_cases {env : Env} {writeErr : Option String} (hs : s.receive env writeErr = some t) :
    s.loop = .ready ∧ Received s env writeErr t := by
  unfold Stopping.receive at hs
  split at hs
  · rename_i rest hloop hch
    cases hs
    exact ⟨hloop, .barrier hch⟩
  · rename_i msg rest hloop hch
    refine ⟨hloop, ?_⟩
    dsimp only at hs
    split at hs
    · rename_i hdecode
      cases hs
      exact .passed hch (by rw [commandOf, hdecode]; rfl)
    · rename_i index cmd hdecode
      have hcmd : commandOf msg = some cmd := by rw [commandOf, hdecode]; rfl
      split at hs
      · rename_i hlocked
        cases hs
        exact .blocked hch hcmd hlocked.2.2
      · cases hs
        exact .executed hch hcmd
  · cases hs

/-! ### The channel -/

theorem Traffic.append {p : Phase} {closed : Bool} {applyCh : List Message} {msgs : List (ApplyMsg Payload)}
    (h : Traffic p closed applyCh msgs) (hp : ¬.barred ≤ p) (msg : ApplyMsg Payload) :
    Traffic p closed (applyCh ++ [.raft msg]) (msgs ++ [msg]) := by
  cases h with
  | flowing _ =>
    have hmap : msgs.map Message.raft ++ [.raft msg] = (msgs ++ [msg]).map .raft := by simp
    rw [hmap]
    exact .flowing hp _
  | pending _ => exact absurd le_rfl hp
  | passed hbarred => exact absurd hbarred hp

theorem Traffic.raft_cons {p : Phase} {closed : Bool} {msg : ApplyMsg Payload} {rest : List Message}
    {msgs : List (ApplyMsg Payload)} (h : Traffic p closed (.raft msg :: rest) msgs) :
    ∃ later, msgs = msg :: later ∧ Traffic p closed rest later := by
  generalize hch : Message.raft msg :: rest = applyCh at h
  cases h with
  | flowing hp _ =>
    cases msgs with
    | nil => cases hch
    | cons first later =>
      cases hch
      exact ⟨later, rfl, .flowing hp later⟩
  | pending _ =>
    cases msgs with
    | nil => cases hch
    | cons first later =>
      cases hch
      exact ⟨later, rfl, .pending later⟩
  | passed _ => cases hch

/-- Nothing comes after the barrier. -/
theorem Traffic.barrier_cons {p : Phase} {closed : Bool} {rest : List Message} {msgs : List (ApplyMsg Payload)}
    (h : Traffic p closed (.barrier :: rest) msgs) : msgs = [] ∧ Traffic p true rest [] := by
  generalize hch : Message.barrier :: rest = applyCh at h
  cases h with
  | flowing hp _ =>
    cases msgs with
    | nil => cases hch
    | cons first later => cases hch
  | pending _ =>
    cases msgs with
    | nil =>
      cases hch
      exact ⟨rfl, .passed le_rfl⟩
    | cons first later => cases hch
  | passed _ => cases hch

/-- After the barrier the channel is empty. -/
theorem Traffic.silent {p : Phase} {closed : Bool} {applyCh : List Message} {msgs : List (ApplyMsg Payload)}
    (h : Traffic p closed applyCh msgs) (hp : .answered ≤ p) : applyCh = [] ∧ msgs = [] := by
  cases h with
  | flowing hbarred _ => exact absurd (le_trans (show Phase.barred ≤ .answered by decide) hp) hbarred
  | pending _ => exact absurd hp (by decide)
  | passed _ => exact ⟨rfl, rfl⟩

/-- Before the barrier is sent, and after it has come through, the phase does not matter. -/
theorem Traffic.early {p q : Phase} {closed : Bool} {applyCh : List Message} {msgs : List (ApplyMsg Payload)}
    (h : Traffic p closed applyCh msgs) (hp : ¬.barred ≤ p) (hq : ¬.barred ≤ q) :
    Traffic q closed applyCh msgs := by
  cases h with
  | flowing _ => exact .flowing hq _
  | pending _ => exact absurd le_rfl hp
  | passed hbarred => exact absurd hbarred hp

theorem Traffic.bar {p : Phase} {closed : Bool} {applyCh : List Message} {msgs : List (ApplyMsg Payload)}
    (h : Traffic p closed applyCh msgs) (hp : ¬.barred ≤ p) : Traffic .barred closed (applyCh ++ [.barrier]) msgs := by
  cases h with
  | flowing _ => exact .pending msgs
  | pending _ => exact absurd le_rfl hp
  | passed hbarred => exact absurd hbarred hp

theorem Traffic.late {p q : Phase} {applyCh : List Message} {msgs : List (ApplyMsg Payload)}
    (h : Traffic p true applyCh msgs) (hq : .barred ≤ q) : Traffic q true applyCh msgs := by
  cases h with
  | passed _ => exact .passed hq

/-- A barrier that is not closed is in the channel. -/
theorem Traffic.unsilent {applyCh : List Message} {msgs : List (ApplyMsg Payload)}
    (h : Traffic .barred false applyCh msgs) : applyCh ≠ [] := by
  cases h with
  | flowing hbarred _ => exact absurd le_rfl hbarred
  | pending _ => simp

theorem Traffic.later {p q : Phase} {closed : Bool} {applyCh : List Message} {msgs : List (ApplyMsg Payload)}
    (h : Traffic p closed applyCh msgs) (hp : .answered ≤ p) (hq : .barred ≤ q) : Traffic q closed applyCh msgs := by
  cases h with
  | flowing hbarred _ => exact absurd (le_trans (show Phase.barred ≤ .answered by decide) hp) hbarred
  | pending _ => exact absurd hp (by decide)
  | passed _ => exact .passed hq

namespace Inv

theorem wakeApplier (h : Inv server s inFlight) : Inv server {s with applier := s.applier.wake} inFlight :=
  { h with
    conserved := by
      dsimp only
      rw [Applier.wake_held]
      exact h.conserved
    emptied := fun hdone => h.emptied (Applier.wake_done.mp hdone)
    drained := fun hphase => Applier.wake_done.mpr (h.drained hphase)
    awake := fun _ => Applier.wake_ne_asleep _ }

theorem wakeSender (h : Inv server s inFlight) : Inv server {s with sender := s.sender.wake} inFlight :=
  { h with roused := fun _ => Sender.wake_ne_waiting _ }

theorem emit (h : Inv server s inFlight) {msg : ApplyMsg Payload} (hs : s.emit msg = some t) :
    Inv server t inFlight := by
  obtain ⟨helper, ⟨hq, rfl⟩ | ⟨hq, rfl⟩⟩ := emit_cases hs
  · exact { h with conserved := by rw [hq]; exact h.conserved }
  · refine
      { h.wakeApplier with
        conserved := ?_
        owed := fun hphase => (h.owed hphase).trans (List.prefix_append _ _) }
    rw [hq, ← List.append_assoc]
    exact congrArg (· ++ [msg]) h.wakeApplier.conserved

theorem broadcast (h : Inv server s inFlight) (hs : s.broadcast = some t) : Inv server t inFlight := by
  unfold Stopping.broadcast at hs
  split at hs
  · cases hs
  · cases hs
    exact h.wakeSender

/-- What `cleanupLoop` does touches nothing else. -/
theorem withCleanup (h : Inv server s inFlight) (cleanup : Cleanup) :
    Inv server {s with cleanup := cleanup} inFlight := { h with }

theorem acquire (h : Inv server s inFlight) (hs : s.acquire = some t) : Inv server t inFlight := by
  unfold Stopping.acquire at hs
  split at hs
  · cases hs
    exact { h with roused := fun _ => nofun }
  · cases hs

theorem turn (h : Inv server s inFlight) (hs : s.turn = some t) : Inv server t inFlight := by
  unfold Stopping.turn at hs
  split at hs
  · cases hs
    refine { h with roused := fun hphase => ?_ }
    dsimp only at hphase ⊢
    rw [if_pos (le_trans (show Phase.killing ≤ .killed by decide) hphase)]
    exact nofun
  · cases hs

/-- While the applier is there, `Shutdown` has not gone past it. -/
theorem undrained (h : Inv server s inFlight) (happlier : s.applier ≠ .done) : ¬.drained ≤ s.phase :=
  fun hphase => happlier (h.drained hphase)

theorem check (h : Inv server s inFlight) (hs : s.check = some t) : Inv server t inFlight := by
  obtain ⟨happlier, hcases⟩ := check_cases hs
  have hphase := h.undrained (by rw [happlier]; exact nofun)
  have hall := h.conserved
  rw [happlier] at hall
  rcases hcases with ⟨hq, rfl⟩ | ⟨msg, rest, hq, rfl⟩
  · refine
      { h with
        conserved := ?_
        emptied := ?_
        drained := fun hdrained => absurd hdrained hphase
        awake := ?_ }
    · rw [← hall]
      dsimp only
      split <;> rfl
    · intro hdone
      dsimp only at hdone
      split at hdone
      · rename_i hstored
        refine ⟨hstored, ?_⟩
        -- the queue is empty, so all that was emitted is with the loop or in its channel
        rw [hq] at hall
        simp only [Applier.held, List.append_nil] at hall
        dsimp only
        rw [hall]
        exact h.owed hstored
      · cases hdone
    · intro hwoken
      dsimp only at hwoken ⊢
      rw [if_pos (le_trans (show Phase.stored ≤ .woken by decide) hwoken)]
      exact nofun
  · refine
      { h with
        conserved := ?_
        emptied := nofun
        drained := fun hdrained => absurd hdrained hphase
        awake := fun _ => nofun }
    rw [← hall, hq]
    simp [Applier.held]

theorem send (h : Inv server s inFlight) (hs : s.send = some t) : ∃ inFlight', Inv server t inFlight' := by
  obtain ⟨msg, happlier, rfl⟩ := send_cases hs
  have hphase := h.undrained (by rw [happlier]; exact nofun)
  have hbarred : ¬.barred ≤ s.phase := fun hbarred =>
    hphase (le_trans (show Phase.drained ≤ .barred by decide) hbarred)
  refine ⟨inFlight ++ [msg],
    { h with
      traffic := h.traffic.append hbarred msg
      conserved := ?_
      emptied := nofun
      drained := fun hdrained => absurd hdrained hphase
      awake := fun _ => nofun }⟩
  rw [← h.conserved, happlier]
  simp [Applier.held]

/-- The loop has taken a message, with whatever has become of it and of the server. -/
theorem received {msg : ApplyMsg Payload} {later : List (ApplyMsg Payload)} (h : Inv server s (msg :: later))
    (hready : s.loop = .ready) {rest : List Message} (hrest : Traffic s.phase s.barrierClosed rest later)
    {loop : Loop} {server' : Server} {executed : List Delivery} (hloop : loop ≠ .done)
    (hexecuted : loop ≠ .blocked →
      executed.map Delivery.cmd = s.executed.map Delivery.cmd ++ (commandOf msg).toList)
    (hlive : server' = (server.live executed).1) :
    Inv server {s with
      applyCh := rest, loop := loop, server := server', handled := s.handled ++ [msg], executed := executed} later := by
  -- the loop is still there
  have hphase : ¬.stopped ≤ s.phase := by
    intro hphase
    have hdone := h.stopped hphase
    rw [hready] at hdone
    cases hdone
  have hmoved : s.handled ++ [msg] ++ later = s.handled ++ msg :: later := by
    rw [List.append_assoc, List.singleton_append]
  exact
    { traffic := hrest
      conserved := by
        dsimp only
        rw [hmoved]
        exact h.conserved
      owed := h.owed
      emptied := by
        intro hdone
        dsimp only
        rw [hmoved]
        exact h.emptied hdone
      drained := h.drained
      awake := h.awake
      roused := h.roused
      ended := fun hdone => absurd hdone hloop
      stopped := fun hstopped => absurd hstopped hphase
      executed := by
        intro hblocked
        dsimp only
        rw [hexecuted hblocked, h.executed (by rw [hready]; exact nofun), List.filterMap_append]
        cases hcmd : commandOf msg <;> simp [hcmd]
      live := hlive
      saved := fun hreturned => absurd (show .stopped ≤ s.phase by rw [hreturned]; decide) hphase }

/-- The loop takes what is first in its channel. -/
theorem receive (h : Inv server s inFlight) {env : Env} {writeErr : Option String}
    (hs : s.receive env writeErr = some t) : ∃ inFlight', Inv server t inFlight' := by
  have htraffic := h.traffic
  obtain ⟨hready, hreceived⟩ := receive_cases hs
  have hnotDone : s.loop ≠ .done := by
    rw [hready]
    exact nofun
  cases hreceived with
  | barrier hch =>
    rw [hch] at htraffic
    obtain ⟨rfl, hrest⟩ := htraffic.barrier_cons
    exact ⟨[], { h with traffic := hrest }⟩
  | passed hch hcmd =>
    rw [hch] at htraffic
    obtain ⟨later, rfl, hrest⟩ := htraffic.raft_cons
    exact ⟨later, h.received hready hrest hnotDone (fun _ => by simp [hcmd]) h.live⟩
  | blocked hch _ _ =>
    rw [hch] at htraffic
    obtain ⟨later, rfl, hrest⟩ := htraffic.raft_cons
    exact ⟨later, h.received hready hrest nofun (fun hblocked => absurd rfl hblocked) h.live⟩
  | executed hch hcmd =>
    rw [hch] at htraffic
    obtain ⟨later, rfl, hrest⟩ := htraffic.raft_cons
    refine ⟨later, h.received hready hrest hnotDone (fun _ => by simp [hcmd]) ?_⟩
    rw [Server.live_append, ← h.live]
    rfl

theorem leave (h : Inv server s inFlight) (hs : s.leave = some t) : Inv server t inFlight := by
  unfold Stopping.leave at hs
  split at hs
  · rename_i hleave
    cases hs
    refine { h with ended := fun _ => hleave.2, stopped := fun _ => rfl, executed := fun _ => ?_ }
    exact h.executed (by rw [hleave.1]; exact nofun)
  · cases hs

/-- `Shutdown` goes on: what is to hold from the next phase on has held before, or holds now. -/
theorem advance (h : Inv server s inFlight) {p q : Phase} {applyCh : List Message} {saved : Option Machine}
    (hp : s.phase = p) (hup : p ≤ q) (htraffic : Traffic q s.barrierClosed applyCh inFlight)
    (howed : (.stored ≤ q → .stored ≤ p) ∨ s.owed <+: s.emitted)
    (hdrained : (.drained ≤ q → .drained ≤ p) ∨ s.applier = .done)
    (hawake : (.woken ≤ q → .woken ≤ p) ∨ s.applier ≠ .asleep)
    (hroused : (.killed ≤ q → .killed ≤ p) ∨ s.sender ≠ .waiting)
    (hstopped : (.stopped ≤ q → .stopped ≤ p) ∨ s.loop = .done)
    (hsaved : q = .returned → saved = if s.server.persistenceErr = none then some s.server.machine else none) :
    Inv server {s with phase := q, applyCh := applyCh, saved := saved} inFlight := by
  subst hp
  exact
    { h with
      traffic := htraffic
      owed := fun hphase => howed.elim (fun hq => h.owed (hq hphase)) id
      emptied := fun hdone => ⟨(h.emptied hdone).1.trans hup, (h.emptied hdone).2⟩
      drained := fun hphase => hdrained.elim (fun hq => h.drained (hq hphase)) id
      awake := fun hphase => hawake.elim (fun hq => h.awake (hq hphase)) id
      roused := fun hphase => hroused.elim (fun hq => h.roused (hq hphase)) id
      ended := fun hdone => (h.ended hdone).trans hup
      stopped := fun hphase => hstopped.elim (fun hq => h.stopped (hq hphase)) id
      saved := hsaved }

/-- The same where nothing new is due. -/
theorem advance_same (h : Inv server s inFlight) {p q : Phase} {applyCh : List Message} (hp : s.phase = p)
    (hup : p ≤ q) (htraffic : Traffic q s.barrierClosed applyCh inFlight)
    (hdue : ∀ r ∈ [Phase.stored, .drained, .woken, .killed, .stopped], r ≤ q → r ≤ p) (hreturned : q ≠ .returned) :
    Inv server {s with phase := q, applyCh := applyCh} inFlight :=
  h.advance hp hup htraffic (.inl (hdue _ (by decide))) (.inl (hdue _ (by decide))) (.inl (hdue _ (by decide)))
    (.inl (hdue _ (by decide))) (.inl (hdue _ (by decide))) fun hq => absurd hq hreturned

/-- The helper is told to stop: it owes what has been emitted. -/
theorem owing (h : Inv server s inFlight) (hphase : s.phase = .locked) :
    Inv server {s with owed := s.emitted} inFlight :=
  { h with
    owed := fun _ => List.prefix_refl _
    emptied := fun hdone => absurd (h.emptied hdone).1 (by rw [hphase]; decide) }

theorem shutdown (h : Inv server s inFlight) (hs : s.shutdown = some t) : Inv server t inFlight := by
  have htraffic := h.traffic
  unfold Stopping.shutdown at hs
  split at hs
  case h_1 hphase =>
    cases hs
    rw [hphase] at htraffic
    exact h.advance_same hphase (by decide) (htraffic.early (by decide) (by decide)) (by decide) nofun
  case h_2 hphase =>
    rw [hphase] at htraffic
    split at hs
    · cases hs
    · cases hs
      exact h.advance_same hphase (by decide) (htraffic.early (by decide) (by decide)) (by decide) nofun
  case h_3 hphase =>
    cases hs
    rw [hphase] at htraffic
    exact (h.owing hphase).advance hphase (by decide) (htraffic.early (by decide) (by decide))
      (.inr (List.prefix_refl _)) (.inl (by decide)) (.inl (by decide)) (.inl (by decide)) (.inl (by decide)) nofun
  case h_4 hphase =>
    cases hs
    rw [hphase] at htraffic
    exact h.wakeApplier.advance hphase (by decide) (htraffic.early (by decide) (by decide)) (.inl (by decide))
      (.inl (by decide)) (.inr (Applier.wake_ne_asleep _)) (.inl (by decide)) (.inl (by decide)) nofun
  case h_5 hphase =>
    cases hs
    rw [hphase] at htraffic
    exact h.wakeSender.advance hphase (by decide) (htraffic.early (by decide) (by decide)) (.inl (by decide))
      (.inl (by decide)) (.inl (by decide)) (.inr (Sender.wake_ne_waiting _)) (.inl (by decide)) nofun
  case h_6 hphase =>
    rw [hphase] at htraffic
    split at hs
    · cases hs
      exact h.advance_same hphase (by decide) (htraffic.early (by decide) (by decide)) (by decide) nofun
    · cases hs
  case h_7 hphase =>
    rw [hphase] at htraffic
    split at hs
    · rename_i happlier
      cases hs
      exact h.advance hphase (by decide) (htraffic.early (by decide) (by decide)) (.inl (by decide)) (.inr happlier)
        (.inl (by decide)) (.inl (by decide)) (.inl (by decide)) nofun
    · cases hs
  case h_8 hphase =>
    rw [hphase] at htraffic
    split at hs
    · cases hs
      exact h.advance_same hphase (by decide) (htraffic.bar (by decide)) (by decide) nofun
    · cases hs
  case h_9 hphase =>
    split at hs
    · rename_i hclosed
      cases hs
      rw [hclosed] at htraffic
      exact h.advance_same hphase (by decide) (hclosed ▸ htraffic.late (by decide)) (by decide) nofun
    · cases hs
  case h_10 hphase =>
    cases hs
    rw [hphase] at htraffic
    exact h.advance_same hphase (by decide) (htraffic.later le_rfl (by decide)) (by decide) nofun
  case h_11 hphase =>
    rw [hphase] at htraffic
    split at hs
    · rename_i hdone
      cases hs
      exact h.advance hphase (by decide) (htraffic.later (by decide) (by decide)) (.inl (by decide))
        (.inl (by decide)) (.inl (by decide)) (.inl (by decide)) (.inr hdone) nofun
    · cases hs
  case h_12 hphase =>
    rw [hphase] at htraffic
    split at hs
    · cases hs
      exact h.advance_same hphase (by decide) (htraffic.later (by decide) (by decide)) (by decide) nofun
    · cases hs
  case h_13 hphase =>
    cases hs
    rw [hphase] at htraffic
    exact h.advance hphase (by decide) (htraffic.later (by decide) (by decide)) (.inl (by decide))
      (.inl (by decide)) (.inl (by decide)) (.inl (by decide)) (.inl (by decide)) fun _ => rfl
  case h_14 hphase => cases hs

theorem step (action : Action) (s t : Stopping) (h : ∃ inFlight, Inv server s inFlight)
    (hs : Shutdown.step action s = some t) : ∃ inFlight, Inv server t inFlight := by
  obtain ⟨inFlight, h⟩ := h
  cases action with
  | emit msg => exact ⟨inFlight, h.emit hs⟩
  | broadcast => exact ⟨inFlight, h.broadcast hs⟩
  | tick =>
    obtain ⟨_, heq⟩ := Option.ite_none_right_eq_some.mp hs
    cases heq
    exact ⟨inFlight, h.withCleanup _⟩
  | acquire => exact ⟨inFlight, h.acquire hs⟩
  | turn => exact ⟨inFlight, h.turn hs⟩
  | check => exact ⟨inFlight, h.check hs⟩
  | send => exact h.send hs
  | receive env writeErr => exact h.receive hs
  | leave => exact ⟨inFlight, h.leave hs⟩
  | swept =>
    obtain ⟨_, heq⟩ := Option.ite_none_right_eq_some.mp hs
    cases heq
    exact ⟨inFlight, h.withCleanup _⟩
  | quit =>
    obtain ⟨_, heq⟩ := Option.ite_none_right_eq_some.mp hs
    cases heq
    exact ⟨inFlight, h.withCleanup _⟩
  | shutdown => exact ⟨inFlight, h.shutdown hs⟩

end Inv
end Steps

/-- **Shutdown drains the queue.** When `Shutdown` has returned, whatever the goroutines' schedule and
whatever Raft has emitted meanwhile: the loop has received, in order and without a gap, a
beginning of what was emitted, with all that was queued when the helper was told to stop;
and the machine that was saved is the one after these, or none after a failure to journal. -/
theorem shutdown_drains (server : Server) (actions : List Action) (s : Stopping)
    (hs : run step (boot server) actions = some s) (hreturned : s.phase = .returned) :
    s.owed <+: s.handled ∧ s.handled <+: s.emitted ∧
      s.executed.map Delivery.cmd = s.handled.filterMap commandOf ∧
      s.saved = if (server.live s.executed).1.persistenceErr = none then some (server.live s.executed).1.machine
        else none := by
  obtain ⟨inFlight, h⟩ := run_invariant_all (P := fun s => ∃ inFlight, Inv server s inFlight) Inv.step actions _ _
    ⟨[], boot_inv server⟩ hs
  have hdone := h.drained (by rw [hreturned]; decide)
  obtain ⟨_, rfl⟩ := h.traffic.silent (by rw [hreturned]; decide)
  refine ⟨?_, ?_, ?_, ?_⟩
  · have howed := (h.emptied hdone).2
    rwa [List.append_nil] at howed
  · rw [← h.conserved, List.append_assoc, List.append_assoc]
    exact List.prefix_append _ _
  · refine h.executed ?_
    rw [h.stopped (by rw [hreturned]; decide)]
    exact nofun
  · rw [h.saved hreturned, h.live]

/-! ### It returns -/

def Applier.work : Applier → Nat
  | .checking => 1
  | .sending _ => 3
  | _ => 0

def Sender.work : Sender → Nat
  | .acquiring => 2
  | .turning => 1
  | _ => 0

def Loop.work : Loop → Nat
  | .ready => 1
  | _ => 0

def Cleanup.work : Cleanup → Nat
  | .selecting => 1
  | .sweeping => 2
  | .done => 0

/-- How many steps there can be if nothing comes from outside. -/
def Stopping.remaining (s : Stopping) : Nat :=
  3 * (13 - s.phase.rank) + 5 * s.helper.q.length + s.applyCh.length + s.applier.work + s.sender.work +
    s.loop.work + s.cleanup.work

theorem Applier.wake_work (applier : Applier) : applier.wake.work ≤ applier.work + 1 := by
  cases applier <;> simp [Applier.wake, Applier.work]

theorem Sender.wake_work (sender : Sender) : sender.wake.work ≤ sender.work + 2 := by
  cases sender <;> simp [Sender.wake, Sender.work]

theorem emit_remaining {s t : Stopping} {msg : ApplyMsg Payload} (hs : s.emit msg = some t) :
    t.remaining + 1 ≤ s.remaining + 7 := by
  have hwake := s.applier.wake_work
  obtain ⟨helper, ⟨hq, rfl⟩ | ⟨hq, rfl⟩⟩ := emit_cases hs
  · simp only [Stopping.remaining, hq]
    omega
  · simp only [Stopping.remaining, hq, List.length_append, List.length_singleton]
    omega

theorem check_remaining {s t : Stopping} (hs : s.check = some t) : t.remaining + 1 ≤ s.remaining := by
  obtain ⟨happlier, ⟨hq, rfl⟩ | ⟨msg, rest, hq, rfl⟩⟩ := check_cases hs
  · have hwork : Applier.work (if .stored ≤ s.phase then .done else .asleep) = 0 := by split <;> rfl
    simp only [Stopping.remaining, happlier, hwork, show Applier.work .checking = 1 from rfl]
    omega
  · simp only [Stopping.remaining, happlier, hq, List.length_cons, Applier.work]
    omega

theorem send_remaining {s t : Stopping} (hs : s.send = some t) : t.remaining + 1 ≤ s.remaining := by
  obtain ⟨msg, happlier, rfl⟩ := send_cases hs
  simp only [Stopping.remaining, happlier, List.length_append, List.length_singleton, Applier.work]
  omega

theorem receive_remaining {s t : Stopping} {env : Env} {writeErr : Option String}
    (hs : s.receive env writeErr = some t) : t.remaining + 1 ≤ s.remaining := by
  obtain ⟨hready, hreceived⟩ := receive_cases hs
  cases hreceived with
  | barrier hch | passed hch _ | executed hch _ =>
    simp only [Stopping.remaining, hch, List.length_cons]
    omega
  | blocked hch _ _ =>
    simp only [Stopping.remaining, hch, hready, List.length_cons, Loop.work]
    omega

theorem shutdown_remaining {s t : Stopping} (hs : s.shutdown = some t) : t.remaining + 1 ≤ s.remaining := by
  have happlier := s.applier.wake_work
  have hsender := s.sender.wake_work
  unfold Stopping.shutdown at hs
  -- a phase weighs more than what it wakes or sends
  split at hs <;> rename_i hphase <;> (try split at hs) <;> cases hs <;>
    simp only [Stopping.remaining, hphase, Phase.rank, List.length_append, List.length_singleton] <;> omega

theorem step_remaining (action : Action) (s t : Stopping) (hs : step action s = some t) :
    t.remaining + 1 ≤ s.remaining + if action.outside then 7 else 0 := by
  cases action with
  | emit msg => exact emit_remaining hs
  | broadcast =>
    have hwake := s.sender.wake_work
    obtain ⟨_, heq⟩ := Option.ite_none_left_eq_some.mp hs
    cases heq
    simp only [Stopping.remaining, Action.outside, if_true]
    omega
  | tick =>
    obtain ⟨hcleanup, heq⟩ := Option.ite_none_right_eq_some.mp hs
    cases heq
    simp only [Stopping.remaining, Action.outside, if_true, hcleanup, Cleanup.work]
    omega
  | acquire =>
    obtain ⟨⟨hsender, _⟩, heq⟩ := Option.ite_none_right_eq_some.mp hs
    cases heq
    simp only [Stopping.remaining, hsender, Sender.work]
    omega
  | turn =>
    obtain ⟨hsender, heq⟩ := Option.ite_none_right_eq_some.mp hs
    cases heq
    have hwork : Sender.work (if .killing ≤ s.phase then .done else .waiting) = 0 := by split <;> rfl
    simp only [Stopping.remaining, hsender, hwork, show Sender.work .turning = 1 from rfl]
    omega
  | check => exact (check_remaining hs).trans (Nat.le_add_right _ _)
  | send => exact (send_remaining hs).trans (Nat.le_add_right _ _)
  | receive env writeErr => exact (receive_remaining hs).trans (Nat.le_add_right _ _)
  | leave =>
    obtain ⟨⟨hloop, _⟩, heq⟩ := Option.ite_none_right_eq_some.mp hs
    cases heq
    simp only [Stopping.remaining, hloop, Loop.work]
    omega
  | swept =>
    obtain ⟨hcleanup, heq⟩ := Option.ite_none_right_eq_some.mp hs
    cases heq
    simp only [Stopping.remaining, hcleanup, Cleanup.work]
    omega
  | quit =>
    obtain ⟨⟨hcleanup, _⟩, heq⟩ := Option.ite_none_right_eq_some.mp hs
    cases heq
    simp only [Stopping.remaining, hcleanup, Cleanup.work]
    omega
  | shutdown => exact (shutdown_remaining hs).trans (Nat.le_add_right _ _)

/-! ### Nobody waits forever -/

/-- No command is emitted on which the loop waits for itself. -/
def Passing : Action → Prop
  | .emit msg => ∀ cmd ∈ commandOf msg, Process.answersLocked cmd.type = false
  | _ => True

structure Unblocked (s : Stopping) : Prop where
  passing : ∀ msg ∈ s.emitted, ∀ cmd ∈ commandOf msg, Process.answersLocked cmd.type = false
  loop : s.loop ≠ .blocked

theorem boot_unblocked (server : Server) : Unblocked (boot server) where
  passing _ hmem := absurd hmem List.not_mem_nil
  loop := nofun

/-- `Shutdown` itself emits nothing and does not touch the loop. -/
theorem shutdown_loop {s t : Stopping} (hs : s.shutdown = some t) : t.emitted = s.emitted ∧ t.loop = s.loop := by
  unfold Stopping.shutdown at hs
  split at hs <;> (try split at hs) <;> cases hs <;> exact ⟨rfl, rfl⟩

namespace Unblocked

theorem of_eq {s t : Stopping} (h : Unblocked s) (ht : t.emitted = s.emitted ∧ t.loop = s.loop) : Unblocked t where
  passing := by
    rw [ht.1]
    exact h.passing
  loop := by
    rw [ht.2]
    exact h.loop

theorem receive {server : Server} {s t : Stopping} (h : Unblocked s) (hinv : ∃ inFlight, Inv server s inFlight)
    {env : Env} {writeErr : Option String} (hs : s.receive env writeErr = some t) : Unblocked t := by
  cases (receive_cases hs).2 with
  | barrier _ | passed _ _ | executed _ _ => exact h.of_eq ⟨rfl, rfl⟩
  | blocked hch hcmd hlocked =>
    -- the message has been emitted
    obtain ⟨inFlight, hinv⟩ := hinv
    have htraffic := hinv.traffic
    rw [hch] at htraffic
    obtain ⟨later, rfl, _⟩ := htraffic.raft_cons
    rw [h.passing _ (by rw [← hinv.conserved]; simp) _ hcmd] at hlocked
    cases hlocked

theorem step {server : Server} (action : Action) (s t : Stopping) (h : Unblocked s)
    (hinv : ∃ inFlight, Inv server s inFlight) (hpassing : Passing action)
    (hs : Shutdown.step action s = some t) : Unblocked t := by
  cases action with
  | emit msg =>
    obtain ⟨helper, ⟨_, rfl⟩ | ⟨_, rfl⟩⟩ := emit_cases hs
    · exact h.of_eq ⟨rfl, rfl⟩
    · refine ⟨fun other hother => ?_, h.loop⟩
      rcases List.mem_append.mp hother with hold | hnew
      · exact h.passing other hold
      · obtain rfl := List.mem_singleton.mp hnew
        exact hpassing
  | broadcast =>
    obtain ⟨_, heq⟩ := Option.ite_none_left_eq_some.mp hs
    cases heq
    exact h.of_eq ⟨rfl, rfl⟩
  | receive env writeErr => exact h.receive hinv hs
  | check =>
    obtain ⟨_, ⟨_, rfl⟩ | ⟨_, _, _, rfl⟩⟩ := check_cases hs
    · exact h.of_eq ⟨rfl, rfl⟩
    · exact h.of_eq ⟨rfl, rfl⟩
  | send =>
    obtain ⟨_, _, rfl⟩ := send_cases hs
    exact h.of_eq ⟨rfl, rfl⟩
  | shutdown => exact h.of_eq (shutdown_loop hs)
  | leave =>
    obtain ⟨_, heq⟩ := Option.ite_none_right_eq_some.mp hs
    cases heq
    exact ⟨h.passing, nofun⟩
  | tick | acquire | turn | swept | quit =>
    obtain ⟨_, heq⟩ := Option.ite_none_right_eq_some.mp hs
    cases heq
    exact h.of_eq ⟨rfl, rfl⟩

end Unblocked

/-- The steps that bring about what `Shutdown` waits for: of the sender when it waits for `rf.Mu` or for the
sender's end, of the applier and of the loop that takes its messages, of the loop, of the cleanup. -/
def Phase.awaits : Phase → Action → Bool
  | .killing, .turn => true
  | .killed, .acquire => true
  | .killed, .turn => true
  | .quiesced, .check => true
  | .quiesced, .send => true
  | .quiesced, .receive .. => true
  | .drained, .receive .. => true
  | .barred, .receive .. => true
  | .stopping, .leave => true
  | .stopped, .swept => true
  | .stopped, .quit => true
  | _, _ => false

/-- `Shutdown` can go on, or a goroutine that it waits for can. -/
def Stopping.CanMove (s : Stopping) : Prop :=
  ∃ action t, (action = .shutdown ∨ s.phase.awaits action = true) ∧ step action s = some t

section Progress
variable {server : Server} {s : Stopping} {inFlight : List (ApplyMsg Payload)}

theorem canMove_shutdown {t : Stopping} (h : s.shutdown = some t) : s.CanMove := ⟨.shutdown, t, Or.inl rfl, h⟩

/-- The loop takes a message if there is one. -/
theorem canMove_receive (hphase : s.phase.awaits (.receive (Env.at 0) none) = true) (hloop : s.loop = .ready)
    (hch : s.applyCh ≠ []) : s.CanMove := by
  obtain ⟨msg, rest, hcons⟩ := List.exists_cons_of_ne_nil hch
  have hreceives : (s.receive (Env.at 0) none).isSome := by
    unfold Stopping.receive
    rw [hloop, hcons]
    cases msg with
    | barrier => rfl
    | raft msg =>
      dsimp only
      split
      · rfl
      · split <;> rfl
  obtain ⟨t, ht⟩ := Option.isSome_iff_exists.mp hreceives
  exact ⟨.receive (Env.at 0) none, t, Or.inr hphase, ht⟩

/-- While the loop is there, somebody makes room in its channel. -/
theorem canMove_full (hphase : s.phase.awaits (.receive (Env.at 0) none) = true) (hloop : s.loop = .ready)
    (hfull : ¬s.applyCh.length < 100) : s.CanMove := by
  refine canMove_receive hphase hloop fun hnil => hfull ?_
  rw [hnil]
  decide

theorem loop_ready (h : Inv server s inFlight) (hun : Unblocked s) (hphase : ¬.stopping ≤ s.phase) :
    s.loop = .ready := by
  cases hloop : s.loop with
  | ready => rfl
  | blocked => exact absurd hloop hun.loop
  | done => exact absurd (h.ended hloop) hphase

/-- The sender, once it has been killed. -/
theorem canMove_sender (hphase : s.phase = .killed) (hwaiting : s.sender ≠ .waiting) (hdone : s.sender ≠ .done) :
    s.CanMove := by
  have hlocks : s.locks = false := by
    rw [Stopping.locks, hphase]
    decide
  cases hsender : s.sender with
  | acquiring => exact ⟨.acquire, _, Or.inr (by rw [hphase]; rfl), if_pos ⟨hsender, hlocks⟩⟩
  | turning => exact ⟨.turn, _, Or.inr (by rw [hphase]; rfl), if_pos hsender⟩
  | waiting => exact absurd hsender hwaiting
  | done => exact absurd hsender hdone

theorem canMove_applier (hphase : s.phase = .quiesced) (hloop : s.loop = .ready) (hasleep : s.applier ≠ .asleep)
    (hdone : s.applier ≠ .done) : s.CanMove := by
  have hchecks : s.phase.awaits .check = true := by rw [hphase]; rfl
  cases happlier : s.applier with
  | checking =>
    cases hq : s.helper.q with
    | nil => exact ⟨.check, _, Or.inr hchecks, by show s.check = _; unfold Stopping.check; rw [happlier, hq]⟩
    | cons msg rest =>
      exact ⟨.check, _, Or.inr hchecks, by show s.check = _; unfold Stopping.check; rw [happlier, hq]⟩
  | asleep => exact absurd happlier hasleep
  | sending msg =>
    by_cases hroom : s.applyCh.length < 100
    · exact ⟨.send, _, Or.inr (by rw [hphase]; rfl), by
        show s.send = _; unfold Stopping.send; rw [happlier]; exact if_pos hroom⟩
    · exact canMove_full (by rw [hphase]; rfl) hloop hroom
  | done => exact absurd happlier hdone

theorem canMove_cleanup (hphase : s.phase = .stopped) (hdone : s.cleanup ≠ .done) : s.CanMove := by
  cases hcleanup : s.cleanup with
  | selecting => exact ⟨.quit, _, Or.inr (by rw [hphase]; rfl), if_pos ⟨hcleanup, by rw [hphase]⟩⟩
  | sweeping => exact ⟨.swept, _, Or.inr (by rw [hphase]; rfl), if_pos hcleanup⟩
  | done => exact absurd hcleanup hdone

/-- Phase by phase: what `Shutdown` waits for is there, or somebody works on it. -/
theorem canMove (h : Inv server s inFlight) (hun : Unblocked s) (hreturned : s.phase ≠ .returned) : s.CanMove := by
  cases hp : s.phase with
  | serving => exact canMove_shutdown (by unfold Stopping.shutdown; rw [hp])
  | killing =>
    by_cases hsender : s.sender = .turning
    · exact ⟨.turn, _, Or.inr (by rw [hp]; rfl), if_pos hsender⟩
    · exact canMove_shutdown (by unfold Stopping.shutdown; rw [hp]; exact if_neg hsender)
  | locked => exact canMove_shutdown (by unfold Stopping.shutdown; rw [hp])
  | stored => exact canMove_shutdown (by unfold Stopping.shutdown; rw [hp])
  | woken => exact canMove_shutdown (by unfold Stopping.shutdown; rw [hp])
  | killed =>
    by_cases hdone : s.sender = .done
    · exact canMove_shutdown (by unfold Stopping.shutdown; rw [hp]; exact if_pos hdone)
    · exact canMove_sender hp (h.roused (by rw [hp])) hdone
  | quiesced =>
    by_cases hdone : s.applier = .done
    · exact canMove_shutdown (by unfold Stopping.shutdown; rw [hp]; dsimp only; rw [hdone])
    · exact canMove_applier hp (loop_ready h hun (by rw [hp]; decide)) (h.awake (by rw [hp]; decide)) hdone
  | drained =>
    by_cases hroom : s.applyCh.length < 100
    · exact canMove_shutdown (by unfold Stopping.shutdown; rw [hp]; exact if_pos hroom)
    · exact canMove_full (by rw [hp]; rfl) (loop_ready h hun (by rw [hp]; decide)) hroom
  | barred =>
    by_cases hclosed : s.barrierClosed = true
    · exact canMove_shutdown (by unfold Stopping.shutdown; rw [hp]; exact if_pos hclosed)
    · -- the barrier is still in the channel
      refine canMove_receive (by rw [hp]; rfl) (loop_ready h hun (by rw [hp]; decide)) ?_
      have htraffic := h.traffic
      rw [hp, Bool.eq_false_iff.mpr hclosed] at htraffic
      exact htraffic.unsilent
  | answered => exact canMove_shutdown (by unfold Stopping.shutdown; rw [hp])
  | stopping =>
    by_cases hdone : s.loop = .done
    · exact canMove_shutdown (by unfold Stopping.shutdown; rw [hp]; exact if_pos hdone)
    · cases hloop : s.loop with
      | ready => exact ⟨.leave, _, Or.inr (by rw [hp]; rfl), if_pos ⟨hloop, by rw [hp]⟩⟩
      | blocked => exact absurd hloop hun.loop
      | done => exact absurd hloop hdone
  | stopped =>
    by_cases hdone : s.cleanup = .done
    · exact canMove_shutdown (by unfold Stopping.shutdown; rw [hp]; exact if_pos hdone)
    · exact canMove_cleanup hp hdone
  | saving => exact canMove_shutdown (by unfold Stopping.shutdown; rw [hp])
  | returned => exact absurd hp hreturned

end Progress

theorem run_unblocked {server : Server} {actions : List Action} {s t : Stopping}
    (hpassing : ∀ action ∈ actions, Passing action) (h : (∃ inFlight, Inv server s inFlight) ∧ Unblocked s)
    (hs : run step s actions = some t) : (∃ inFlight, Inv server t inFlight) ∧ Unblocked t :=
  run_invariant (P := fun s => (∃ inFlight, Inv server s inFlight) ∧ Unblocked s)
    (fun action s t h hrule hstep => ⟨Inv.step action s t h.1 hstep, h.2.step action s t h.1 hrule hstep⟩)
    actions s t h (along_of_forall hpassing) hs

/-- **Shutdown returns.** If no command is emitted on which the loop waits for itself, then, however
the goroutines are scheduled: until `Shutdown` has returned it can go on, or a goroutine can for which it
waits, and from any state on there are at most `remaining` steps, and seven more for each event from
outside. -/
theorem shutdown_returns (server : Server) (actions more : List Action) (s t : Stopping)
    (hpassing : ∀ action ∈ actions ++ more, Passing action)
    (hs : run step (boot server) actions = some s) (ht : run step s more = some t) :
    more.length ≤ s.remaining + 7 * more.countP Action.outside ∧ (t.phase ≠ .returned → t.CanMove) := by
  constructor
  · have hbound := run_measured step_remaining more s t ht
    omega
  · intro hphase
    have hmid := run_unblocked (fun action hmem => hpassing action (List.mem_append_left _ hmem))
      ⟨⟨[], boot_inv server⟩, boot_unblocked server⟩ hs
    obtain ⟨⟨inFlight, hinv⟩, hun⟩ :=
      run_unblocked (fun action hmem => hpassing action (List.mem_append_right _ hmem)) hmid ht
    exact canMove hinv hun hphase

/-- A put at index 0. -/
def firstPut (key : Bytes) : ApplyMsg Payload := .command 0 (.typed {Command.ofType .put with key := key})

/-- Sender and applier go to sleep; then a put is queued, and the server is shut down up to `Kill`. -/
def interrupted (key : Bytes) : List Action :=
  [.acquire, .turn, .check, .emit (firstPut key), .shutdown, .shutdown, .shutdown, .shutdown, .shutdown]

/-- The rest, in one of its orders. -/
def winding : List Action :=
  [.acquire, .turn, .shutdown, .check, .send, .check, .shutdown, .shutdown, .receive (Env.at 0) none,
    .receive (Env.at 0) none, .shutdown, .shutdown, .leave, .shutdown, .quit, .shutdown, .shutdown]

/-- The kernel evaluates the run; of its last state, what can be compared. -/
theorem winding_returns : (run step (boot Server.fresh) (interrupted (ascii "a") ++ winding)).map
    (fun s => (s.phase, s.owed.length)) = some (.returned, 1) := by
  decide +kernel

/-- The put is owed, so it is executed before the machine is saved. -/
theorem shutdown_drains_put :
    ∃ s, run step (boot Server.fresh) (interrupted (ascii "a") ++ winding) = some s ∧ s.phase = .returned ∧
      s.owed.length = 1 ∧ s.owed <+: s.handled ∧
      s.saved = if (Server.fresh.live s.executed).1.persistenceErr = none then
        some (Server.fresh.live s.executed).1.machine else none := by
  obtain ⟨s, hs, hview⟩ := Option.map_eq_some_iff.mp winding_returns
  obtain ⟨hreturned, howed⟩ := Prod.mk.inj hview
  obtain ⟨hhandled, _, _, hsaved⟩ := shutdown_drains Server.fresh _ s hs hreturned
  exact ⟨s, hs, hreturned, howed, hhandled, hsaved⟩

/-- After `Kill` the seventeen steps of `winding` are among those that remain. -/
theorem shutdown_returns_put :
    ∃ s t, run step (boot Server.fresh) (interrupted (ascii "a")) = some s ∧ run step s winding = some t ∧
      winding.length ≤ s.remaining + 7 * winding.countP Action.outside ∧ t.phase = .returned := by
  obtain ⟨t, hrun, hview⟩ := Option.map_eq_some_iff.mp winding_returns
  obtain ⟨s, hs, ht⟩ := run_append hrun
  have hpassing : ∀ action ∈ interrupted (ascii "a") ++ winding, Passing action := by
    simp [interrupted, winding, Passing, firstPut, commandOf, Message.decode, Payload.decode,
      Process.answersLocked, Command.ofType]
  exact ⟨s, t, hs, ht, (shutdown_returns Server.fresh _ winding s t hpassing hs ht).1, (Prod.mk.inj hview).1⟩

end Wjetcd.Shutdown
