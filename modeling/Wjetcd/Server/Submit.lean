import Wjetcd.Raft.Bounds
import Wjetcd.Server.Process

/-! Clients of one server: what a successful `Submit` tells them.

`Submit` starts a command in the log and waits on a channel that is registered under
the index `Start` returned. The apply loop sends the result of whatever command it is
handed at that index. `no_false_acknowledgement` says that the two commands are the
same as long as no message cuts the log at an index for which a call claims the result; the map
of channels does not know the term, so `overwritten_acknowledged` shows the client of an
overwritten command being told that it was applied.

`Submit` has the server's lock from its checks to the registration. The apply loop, and a call whose
timer has fired, wait for the lock; the Raft node has its own, and may take any step between
the checks and `Start`, and between `Start` and the registration. -/
namespace Wjetcd.Submit
open Runs

/-- A call of `Submit` that got as far as `Start`; its number is its channel. -/
structure Call where
  index : Int
  cmd : Command
deriving Repr, DecidableEq

/-- What the loop was handed at an index, and the result. -/
structure Delivered where
  index : Int
  cmd : Command
  reply : Except String Bytes
deriving DecidableEq

/-- A call that returned a result and no error. -/
structure Acknowledged where
  index : Int
  cmd : Command
  result : Bytes
deriving Repr, DecidableEq

/-- How far the call is that has the server's lock. -/
inductive Submitting where
  /-- It has passed the checks. -/
  | checked (cmd : Command)
  /-- `Start` has returned, and nothing is registered under the index yet. -/
  | started (index : Int) (ch : Nat)
deriving Repr, DecidableEq

structure Session where
  process : Process
  calls : List Call
  submitting : Option Submitting
  /-- The channels on which a call waits. -/
  waiting : List Nat
  /-- Those whose timer has fired; the call has not had the lock yet. -/
  expired : List Nat
  /-- The loop has executed a command and given up the lock, but not sent the reply. -/
  unanswered : Option (Int × CommandType × Iteration)
  delivered : List Delivered
  acknowledged : List Acknowledged

def boot (server : Server) (peers : List String) (id : Int) : Session :=
  ⟨{Process.fresh peers id with server := server}, [], none, [], [], none, [], []⟩

inductive Action where
  /-- The checks of `Submit`. -/
  | submit (now : Nat) (cmd : Command)
  | start
  | register
  /-- A step of the Raft node, whose messages are arbitrary. -/
  | raft (action : Leadership.Action Payload)
  /-- The loop takes the next message from the queue. -/
  | perform (env : Env) (writeErr : Option String)
  | conclude
  /-- A waiting call finds a result in its channel. -/
  | receive (ch : Nat)
  | timeout (ch : Nat)
  | forget (ch : Nat)

/-- The command that `Submit` passes on. -/
def submitted (now : Nat) (cmd : Command) : Command :=
  if cmd.type = .leaseGrant ∨ cmd.type = .leaseKeepAlive then
    let cmd := {cmd with ttl := Machine.defaultTTL cmd.ttl}
    if cmd.expireAt ≤ 0 then {cmd with expireAt := Machine.expiryFrom now cmd.ttl} else cmd
  else cmd

/-- The messages for which the loop takes the server's lock. -/
def locks : ApplyMsg Payload → Bool
  | .command .. => true
  | .snapshot .. => false

namespace Session

def submit (s : Session) (now : Nat) (cmd : Command) : Option Session :=
  if s.submitting.isSome then none
  else if s.process.server.persistenceErr.isSome then some s
  else if s.process.rf.state ≠ .leader then some s
  else some {s with submitting := some (.checked (submitted now cmd))}

/-- `idx, term, ok := s.rf.Start(cmd)`; the call has got its index. -/
def started (s : Session) (rf : Raft Payload) (idx : Int) (cmd : Command) : Session :=
  {s with
    process := {s.process with rf := rf}
    calls := s.calls ++ [⟨idx, cmd⟩]
    submitting := some (.started idx s.calls.length)}

def start [Width] (s : Session) : Option Session :=
  match s.submitting with
  | some (.checked cmd) =>
    (s.process.rf.start (.typed cmd)).map fun (rf, idx, _, ok) =>
      if ok then s.started rf idx cmd else {s with submitting := none}
  | _ => none

/-- `s.replyCh[idx] = replyCh`, and the lock is given up. -/
def register (s : Session) : Option Session :=
  match s.submitting with
  | some (.started idx ch) =>
    some {s with
      process := {s.process with replyCh := s.process.replyCh.insert idx ch}
      submitting := none
      waiting := ch :: s.waiting}
  | _ => none

/-- Only `Submit` calls `Start`. -/
def raft [Width] (s : Session) : Leadership.Action Payload → Option Session
  | .start _ => none
  | action =>
    (Leadership.step action ⟨s.process.rf, []⟩).map fun t =>
      {s with process := {s.process with rf := t.node}}

def perform (s : Session) (env : Env) (writeErr : Option String) : Option Session :=
  match s.unanswered, s.process.rf.applyHelper.q with
  | none, msg :: rest =>
    if s.submitting.isSome && locks msg then none
    else
      let p := {s.process with
        rf := {s.process.rf with applyHelper := {s.process.rf.applyHelper with q := rest}}}
      match (Message.raft msg).decode with
      | none => some {s with process := p}
      | some (index, cmd) =>
        let iteration := p.server.applyLoop ⟨env, cmd, writeErr⟩
        some {s with
          process := p.perform iteration
          unanswered := some (index, cmd.type, iteration)
          delivered := s.delivered ++ [⟨index, cmd, iteration.reply⟩]}
  | _, _ => none

def conclude (s : Session) : Option Session :=
  if s.submitting.isSome then none
  else
    s.unanswered.map fun (index, type, iteration) =>
      {s with process := s.process.conclude index type iteration, unanswered := none}

def receive (s : Session) (ch : Nat) : Option Session :=
  if ch ∈ s.waiting then
    match s.calls[ch]?, s.process.buffers[ch]? with
    | some call, some reply =>
      let s := {s with
        process := {s.process with buffers := s.process.buffers.erase ch}
        waiting := s.waiting.erase ch}
      match reply with
      | .ok result =>
        some {s with acknowledged := s.acknowledged ++ [⟨call.index, call.cmd, result⟩]}
      | .error _ => some s
    | _, _ => none
  else none

def timeout (s : Session) (ch : Nat) : Option Session :=
  if ch ∈ s.waiting then some {s with waiting := s.waiting.erase ch, expired := ch :: s.expired}
  else none

/-- Whatever is registered under the call's index is forgotten. -/
def forget (s : Session) (ch : Nat) : Option Session :=
  if s.submitting.isSome then none
  else if ch ∈ s.expired then
    s.calls[ch]?.map fun call =>
      {s with
        process := {s.process with replyCh := s.process.replyCh.erase call.index}
        expired := s.expired.erase ch}
  else none

end Session

def step [Width] (action : Action) (s : Session) : Option Session :=
  match action with
  | .submit now cmd => s.submit now cmd
  | .start => s.start
  | .register => s.register
  | .raft action => s.raft action
  | .perform env writeErr => s.perform env writeErr
  | .conclude => s.conclude
  | .receive ch => s.receive ch
  | .timeout ch => s.timeout ch
  | .forget ch => s.forget ch

/-! ### The property and the rules -/

/-- What was acknowledged is what was delivered at its index, the only thing ever
delivered there, with its result. -/
def Truthful (s : Session) : Prop :=
  ∀ a ∈ s.acknowledged, ⟨a.index, a.cmd, .ok a.result⟩ ∈ s.delivered ∧
    ∀ d ∈ s.delivered, d.index = a.index → d = ⟨a.index, a.cmd, .ok a.result⟩

/-- The result for an index is to go to a channel: it is registered, or is about to be. -/
def Claims (s : Session) (i : Int) (ch : Nat) : Prop :=
  s.process.replyCh[i]? = some ch ∨ s.submitting = some (.started i ch)

/-- What Raft is trusted with: no message cuts the log where it has been handed over. -/
def Final [Width] (action : Action) (s : Session) : Prop :=
  match action with
  | .raft action => Raft.CutsAfter (fun i => i ≤ s.process.rf.lastApplied) action s.process.rf
  | _ => True

/-- No message cuts the log at or below an index for which a call claims the result. -/
def Undisturbed [Width] (action : Action) (s : Session) : Prop :=
  match action with
  | .raft action => Raft.CutsAfter (fun i => ∃ ch, Claims s i ch) action s.process.rf
  | _ => True

/-- Every index is below the largest `int`. -/
def Bounded (action : Action) (s : Session) : Prop :=
  match action with
  | .start => s.process.rf.log.lastLogIndex + 1 < 2 ^ 63 - 1
  | .raft action => Raft.InBounds action s.process.rf
  | _ => True

/-! ### The invariant -/

/-- The indices of the commands in a queue. -/
def commandIndices (q : List (ApplyMsg Payload)) : List Int :=
  q.filterMap fun
    | .command index _ => some index
    | .snapshot .. => none

/-- The call that claims the result for an index. -/
def Registered (s : Session) (i : Int) (call : Call) : Prop :=
  ∃ ch, Claims s i ch ∧ s.calls[ch]? = some call

structure Inv (s : Session) : Prop where
  ordered : s.process.rf.Ordered
  sized : s.process.rf.feed.Sized
  /-- Whoever claims a result is a call, under its own index. -/
  known : ∀ i ch, Claims s i ch → ∃ call : Call, s.calls[ch]? = some call ∧ call.index = i
  /-- Until it is handed over, the log has the command of the registered call. -/
  logged : ∀ i call, Registered s i call → s.process.rf.lastApplied < i →
    ∃ term, s.process.rf.log.getOneEntry i = some ⟨term, .typed call.cmd⟩
  /-- Then the queue has it. -/
  queued : ∀ i payload, .command i payload ∈ s.process.rf.applyHelper.q →
    ∀ call, Registered s i call → payload = .typed call.cmd
  /-- Then the loop does. -/
  answering : ∀ i type iteration, s.unanswered = some (i, type, iteration) →
    i ∈ s.delivered.map Delivered.index ∧
      ∀ call, Registered s i call → ⟨i, call.cmd, iteration.reply⟩ ∈ s.delivered
  /-- Then the channel has its result. -/
  buffered : ∀ (ch : Nat) (reply : Except String Bytes), s.process.buffers[ch]? = some reply →
    ∃ call : Call, s.calls[ch]? = some call ∧ ⟨call.index, call.cmd, reply⟩ ∈ s.delivered
  acknowledged : ∀ a ∈ s.acknowledged, ⟨a.index, a.cmd, .ok a.result⟩ ∈ s.delivered
  /-- Every index comes once, in order. -/
  once : (s.delivered.map Delivered.index ++
    commandIndices s.process.rf.applyHelper.q).Pairwise (· < ·)
  applied : ∀ i ∈ s.delivered.map Delivered.index ++ commandIndices s.process.rf.applyHelper.q,
    i ≤ s.process.rf.lastApplied

theorem boot_inv (server : Server) (peers : List String) (id : Int) : Inv (boot server peers id) where
  ordered := Raft.make_ordered peers id
  sized := Raft.make_sized peers id
  known := by simp [boot, Process.fresh, Claims]
  logged := by simp [boot, Process.fresh, Registered, Claims]
  queued := by simp [boot, Process.fresh, Raft.make, Raft.readPersist, makePersister]
  answering := by simp [boot]
  buffered := by simp [boot, Process.fresh]
  acknowledged := by simp [boot]
  once := by simp [boot, Process.fresh, Raft.make, Raft.readPersist, makePersister, commandIndices]
  applied := by simp [boot, Process.fresh, Raft.make, Raft.readPersist, makePersister, commandIndices]

theorem mem_commandIndices {q : List (ApplyMsg Payload)} {i : Int} {payload : Payload}
    (h : .command i payload ∈ q) : i ∈ commandIndices q :=
  List.mem_filterMap.mpr ⟨_, h, rfl⟩

section Steps
variable {s t : Session}

/-- Claims only go. -/
theorem Inv.fewer (h : Inv s) (hrf : t.process.rf = s.process.rf)
    (hbuffers : t.process.buffers = s.process.buffers) (hcalls : t.calls = s.calls) (hunanswered : t.unanswered = s.unanswered)
    (hdelivered : t.delivered = s.delivered) (hacknowledged : t.acknowledged = s.acknowledged)
    (hclaims : ∀ i ch, Claims t i ch → Claims s i ch) : Inv t := by
  have hreg : ∀ i call, Registered t i call → Registered s i call := by
    rintro i call ⟨ch, hch, hcall⟩
    exact ⟨ch, hclaims i ch hch, hcalls ▸ hcall⟩
  refine
    { ordered := hrf ▸ h.ordered
      sized := hrf ▸ h.sized
      known := ?_
      logged := ?_
      queued := ?_
      answering := ?_
      buffered := ?_
      acknowledged := ?_
      once := ?_
      applied := ?_ }
  · rw [hcalls]
    exact fun i ch hch => h.known i ch (hclaims i ch hch)
  · rw [hrf]
    exact fun i call hr hi => h.logged i call (hreg i call hr) hi
  · rw [hrf]
    exact fun i payload hq call hr => h.queued i payload hq call (hreg i call hr)
  · rw [hunanswered, hdelivered]
    exact fun i type iteration hu => ⟨(h.answering i type iteration hu).1,
      fun call hr => (h.answering i type iteration hu).2 call (hreg i call hr)⟩
  · rw [hbuffers, hcalls, hdelivered]
    exact h.buffered
  · rw [hacknowledged, hdelivered]
    exact h.acknowledged
  · rw [hdelivered, hrf]
    exact h.once
  · rw [hdelivered, hrf]
    exact h.applied

/-- A result belongs to the call whose channel it is in. -/
theorem Inv.result_of (h : Inv s) {ch : Nat} {reply : Except String Bytes} {call : Call}
    (hreply : s.process.buffers[ch]? = some reply) (hcall : s.calls[ch]? = some call) :
    ⟨call.index, call.cmd, reply⟩ ∈ s.delivered := by
  obtain ⟨call', hcall', hdel⟩ := h.buffered ch reply hreply
  rw [hcall] at hcall'
  cases hcall'
  exact hdel

/-- A call that has not got an index claims nothing. -/
theorem Claims.of_unstarted {submitting : Option Submitting} (h : ∀ i ch, submitting ≠ some (.started i ch))
    {i : Int} {ch : Nat} (hch : Claims {s with submitting := submitting} i ch) : Claims s i ch :=
  hch.imp_right fun hstarted => absurd hstarted (h i ch)

/-- Who registers has claimed the result before. -/
theorem Claims.of_register (hs : s.register = some t) {i : Int} {ch : Nat} (hch : Claims t i ch) :
    Claims s i ch := by
  unfold Session.register at hs
  split at hs
  · rename_i idx ch' hsubmitting
    cases hs
    rcases hch with hreg | hnone
    · dsimp only at hreg
      rw [GoMap.get_insert] at hreg
      split at hreg
      · rename_i heq
        cases hreg
        exact Or.inr (heq ▸ hsubmitting)
      · exact Or.inl hreg
    · cases hnone
  · cases hs

theorem erase_sub {replyCh : GoMap Int Nat} (k : Int) :
    ∀ (i : Int) (ch : Nat), (replyCh.erase k)[i]? = some ch → replyCh[i]? = some ch := by
  intro i ch hch
  rw [GoMap.get_erase] at hch
  split at hch
  · cases hch
  · exact hch

theorem submit_inv (h : Inv s) {now : Nat} {cmd : Command} (hs : s.submit now cmd = some t) : Inv t := by
  unfold Session.submit at hs
  split_ifs at hs
  · cases hs
    exact h
  · cases hs
    exact h
  · cases hs
    exact h.fewer rfl rfl rfl rfl rfl rfl fun i ch => Claims.of_unstarted (by simp)

theorem register_inv (h : Inv s) (hs : s.register = some t) : Inv t := by
  have hclaims : ∀ i ch, Claims t i ch → Claims s i ch := fun i ch => Claims.of_register hs
  unfold Session.register at hs
  split at hs
  · cases hs
    exact h.fewer rfl rfl rfl rfl rfl rfl hclaims
  · cases hs

theorem timeout_inv (h : Inv s) {ch : Nat} (hs : s.timeout ch = some t) : Inv t := by
  unfold Session.timeout at hs
  split_ifs at hs
  cases hs
  exact h.fewer rfl rfl rfl rfl rfl rfl fun i ch hch => hch

theorem forget_inv (h : Inv s) {ch : Nat} (hs : s.forget ch = some t) : Inv t := by
  unfold Session.forget at hs
  split_ifs at hs
  obtain ⟨call, _, rfl⟩ := Option.map_eq_some_iff.mp hs
  exact h.fewer rfl rfl rfl rfl rfl rfl fun i ch hch => hch.imp_left (erase_sub call.index i ch)

/-- The call takes its result, and returns it unless it is an error. -/
theorem receive_cases {ch : Nat} (hs : s.receive ch = some t) :
    ch ∈ s.waiting ∧ ∃ (call : Call) (reply : Except String Bytes) (acknowledged : List Acknowledged),
      s.calls[ch]? = some call ∧ s.process.buffers[ch]? = some reply ∧
      (∀ a ∈ acknowledged, a ∈ s.acknowledged ∨
        a.index = call.index ∧ a.cmd = call.cmd ∧ reply = .ok a.result) ∧
      t = {s with
        process := {s.process with buffers := s.process.buffers.erase ch}
        waiting := s.waiting.erase ch
        acknowledged := acknowledged} := by
  unfold Session.receive at hs
  split at hs
  · rename_i hch
    split at hs
    · rename_i call reply hcall hreply
      refine ⟨hch, call, reply, ?_⟩
      dsimp only at hs
      split at hs
      · rename_i result
        cases hs
        refine ⟨_, hcall, hreply, fun a ha => ?_, rfl⟩
        rcases List.mem_append.mp ha with hold | hnew
        · exact Or.inl hold
        · cases List.mem_singleton.mp hnew
          exact Or.inr ⟨rfl, rfl, rfl⟩
      · cases hs
        exact ⟨_, hcall, hreply, fun a ha => Or.inl ha, rfl⟩
    · cases hs
  · cases hs

theorem receive_inv (h : Inv s) {ch : Nat} (hs : s.receive ch = some t) : Inv t := by
  obtain ⟨_, call, reply, acknowledged, hcall, hreply, hnew, rfl⟩ := receive_cases hs
  refine { h with buffered := ?_, acknowledged := ?_ }
  · intro ch' reply' hreply'
    rw [GoMap.get_erase] at hreply'
    split at hreply'
    · cases hreply'
    · exact h.buffered ch' reply' hreply'
  · intro a ha
    rcases hnew a ha with hold | ⟨hindex, hcmd, rfl⟩
    · exact h.acknowledged a hold
    · rw [hindex, hcmd]
      exact h.result_of hreply hcall

/-- At most one index joins the queue, and it is a new one. -/
theorem progress_indices {W : Int → Prop} {rf rf' : Raft Payload} (h : Raft.Progress W rf rf') :
    commandIndices rf'.applyHelper.q = commandIndices rf.applyHelper.q ∨
      (commandIndices rf'.applyHelper.q = commandIndices rf.applyHelper.q ++ [rf'.lastApplied] ∧
        rf.lastApplied < rf'.lastApplied) := by
  rcases h.queued with hq | ⟨index, term, data, hq⟩ | ⟨entry, _, hlt, hq⟩
  · exact Or.inl (by rw [hq])
  · exact Or.inl (by simp [hq, commandIndices])
  · exact Or.inr ⟨by simp [hq, commandIndices], hlt⟩

/-- What joins the queue under a claimed index is the command of the call. -/
theorem progress_queued (h : Inv s) {W : Int → Prop} {rf' : Raft Payload}
    (hp : Raft.Progress W s.process.rf rf') {i : Int} {payload : Payload}
    (hmem : .command i payload ∈ rf'.applyHelper.q) {call : Call} (hreg : Registered s i call) :
    payload = .typed call.cmd := by
  rcases hp.queued with hq | ⟨index, term, data, hq⟩ | ⟨entry, hentry, hlt, hq⟩
  · rw [hq] at hmem
    exact h.queued i payload hmem call hreg
  · rw [hq] at hmem
    rcases List.mem_append.mp hmem with hold | hnew
    · exact h.queued i payload hold call hreg
    · cases List.mem_singleton.mp hnew
  · rw [hq] at hmem
    rcases List.mem_append.mp hmem with hold | hnew
    · exact h.queued i payload hold call hreg
    · -- the entry that was logged for the call
      cases List.mem_singleton.mp hnew
      obtain ⟨term, hlog⟩ := h.logged _ call hreg hlt
      rw [hentry] at hlog
      cases hlog
      rfl

/-- The node moves on, and keeps the entries for which a result is claimed. -/
theorem Inv.progress (h : Inv s) {rf' : Raft Payload} (hsized : rf'.feed.Sized)
    (hp : Raft.Progress (fun i => i ≤ s.process.rf.lastApplied ∨ ∃ ch, Claims s i ch) s.process.rf rf') :
    Inv {s with process := {s.process with rf := rf'}} := by
  have happlied := hp.applied
  have hindices := progress_indices hp
  refine
    { ordered := hp.ordered
      sized := hsized
      known := h.known
      logged := ?_
      queued := fun i payload hmem call hreg => progress_queued h hp hmem hreg
      answering := h.answering
      buffered := h.buffered
      acknowledged := h.acknowledged
      once := ?_
      applied := ?_ }
  · intro i call hreg hi
    dsimp only at hi
    obtain ⟨term, hentry⟩ := h.logged i call hreg (by omega)
    obtain ⟨ch, hch, _⟩ := hreg
    exact ⟨term, hp.kept i _ (Or.inr ⟨ch, hch⟩) hi hentry⟩
  · dsimp only
    rcases hindices with hq | ⟨hq, hlt⟩
    · rw [hq]
      exact h.once
    · rw [hq, ← List.append_assoc, List.pairwise_append]
      refine ⟨h.once, List.pairwise_singleton _ _, ?_⟩
      intro i hi j hj
      rw [List.mem_singleton.mp hj]
      have := h.applied i hi
      omega
  · intro i hi
    dsimp only at hi ⊢
    rcases hindices with hq | ⟨hq, hlt⟩
    · rw [hq] at hi
      have := h.applied i hi
      omega
    · rw [hq, ← List.append_assoc] at hi
      rcases List.mem_append.mp hi with hold | hnew
      · have := h.applied i hold
        omega
      · rw [List.mem_singleton.mp hnew]

theorem calls_kept {ch : Nat} {call : Call} (h : s.calls[ch]? = some call) (new : Call) :
    (s.calls ++ [new])[ch]? = some call := by
  rw [List.getElem?_append_left (List.getElem?_eq_some_iff.mp h).1]
  exact h

/-- Whoever claims a result is the new call or one from before. -/
theorem registered_started (h : Inv s) {rf : Raft Payload} {index : Int} {cmd : Command} {i : Int}
    {call : Call} (hr : Registered (s.started rf index cmd) i call) :
    (i = index ∧ call.cmd = cmd) ∨ Registered s i call := by
  obtain ⟨ch, hch, hcall⟩ := hr
  dsimp only [Session.started] at hcall
  rcases hch with hreg | hnew
  · have hclaims : Claims s i ch := Or.inl hreg
    obtain ⟨call', hcall', _⟩ := h.known i ch hclaims
    rw [calls_kept hcall'] at hcall
    cases hcall
    exact Or.inr ⟨ch, hclaims, hcall'⟩
  · cases hnew
    rw [List.getElem?_concat_length] at hcall
    cases hcall
    exact Or.inl ⟨rfl, rfl⟩

/-- A command that has been started has the next index, which nobody has claimed. -/
theorem Inv.started (h : Inv s) {cmd : Command} {rf : Raft Payload} (hordered : rf.Ordered)
    (hsized : rf.feed.Sized) (happlied : rf.lastApplied = s.process.rf.lastApplied)
    (hhelper : rf.applyHelper = s.process.rf.applyHelper)
    (hentry : ∃ term, rf.log.getOneEntry (s.process.rf.log.lastLogIndex + 1) = some ⟨term, .typed cmd⟩)
    (hkept : ∀ i entry, s.process.rf.log.getOneEntry i = some entry → rf.log.getOneEntry i = some entry) :
    Inv (s.started rf (s.process.rf.log.lastLogIndex + 1) cmd) := by
  have hbounded := h.ordered.bounded
  refine
    { ordered := hordered
      sized := hsized
      known := ?_
      logged := ?_
      queued := ?_
      answering := ?_
      buffered := ?_
      acknowledged := h.acknowledged
      once := ?_
      applied := ?_ }
  · rintro i ch (hreg | hnew)
    · obtain ⟨call, hcall, hindex⟩ := h.known i ch (Or.inl hreg)
      exact ⟨call, calls_kept hcall _, hindex⟩
    · cases hnew
      exact ⟨_, List.getElem?_concat_length .., rfl⟩
  · intro i call hr hi
    dsimp only [Session.started] at hi ⊢
    rcases registered_started h hr with ⟨rfl, hcmd⟩ | hr
    · rw [hcmd]
      exact hentry
    · obtain ⟨term, hlog⟩ := h.logged i call hr (by omega)
      exact ⟨term, hkept i _ hlog⟩
  · intro i payload hmem call hr
    dsimp only [Session.started] at hmem
    rw [hhelper] at hmem
    rcases registered_started h hr with ⟨rfl, _⟩ | hr
    · have := h.applied _ (List.mem_append_right _ (mem_commandIndices hmem))
      omega
    · exact h.queued i payload hmem call hr
  · intro i type iteration hu
    obtain ⟨hmem, hdel⟩ := h.answering i type iteration hu
    refine ⟨hmem, fun call hr => ?_⟩
    rcases registered_started h hr with ⟨rfl, _⟩ | hr
    · have := h.applied _ (List.mem_append_left _ hmem)
      omega
    · exact hdel call hr
  · intro ch reply hreply
    obtain ⟨call, hcall, hdel⟩ := h.buffered ch reply hreply
    exact ⟨call, calls_kept hcall _, hdel⟩
  · dsimp only [Session.started]
    rw [hhelper]
    exact h.once
  · dsimp only [Session.started]
    rw [hhelper, happlied]
    exact h.applied

/-- The first message has been taken from the queue. -/
def Session.popped (s : Session) (rest : List (ApplyMsg Payload)) : Session :=
  {s with process := {s.process with
    rf := {s.process.rf with applyHelper := {s.process.rf.applyHelper with q := rest}}}}

/-- An iteration is over, up to its reply. -/
def Session.executed (s : Session) (index : Int) (cmd : Command) (iteration : Iteration) : Session :=
  {s with
    process := s.process.perform iteration
    unanswered := some (index, cmd.type, iteration)
    delivered := s.delivered ++ [⟨index, cmd, iteration.reply⟩]}

/-- The loop passes over a message, or executes the command in it. -/
theorem perform_cases {env : Env} {writeErr : Option String} (hs : s.perform env writeErr = some t) :
    s.unanswered = none ∧ ∃ msg rest, s.process.rf.applyHelper.q = msg :: rest ∧
      (((Message.raft msg).decode = none ∧ t = s.popped rest) ∨
        ∃ index payload cmd, msg = .command index payload ∧ payload.decode = some cmd ∧
          t = (s.popped rest).executed index cmd (s.process.server.applyLoop ⟨env, cmd, writeErr⟩)) := by
  unfold Session.perform at hs
  split at hs
  · rename_i msg rest hidle hq
    refine ⟨hidle, msg, rest, hq, ?_⟩
    split_ifs at hs
    dsimp only at hs
    split at hs
    · rename_i hdecode
      cases hs
      exact Or.inl ⟨hdecode, rfl⟩
    · rename_i index cmd hdecode
      cases hs
      refine Or.inr ?_
      cases msg with
      | snapshot i term data => cases hdecode
      | command i payload =>
        obtain ⟨cmd', hcmd', heq⟩ := Option.map_eq_some_iff.mp hdecode
        cases heq
        exact ⟨_, payload, _, rfl, hcmd', rfl⟩
  · cases hs

theorem Inv.popped (h : Inv s) {msg : ApplyMsg Payload} {rest : List (ApplyMsg Payload)}
    (hq : s.process.rf.applyHelper.q = msg :: rest) : Inv (s.popped rest) := by
  have hsub : (s.delivered.map Delivered.index ++ commandIndices rest).Sublist
      (s.delivered.map Delivered.index ++ commandIndices s.process.rf.applyHelper.q) := by
    rw [hq]
    exact ((List.sublist_cons_self msg rest).filterMap _).append_left _
  exact
    { ordered := ⟨h.ordered.shaped, h.ordered.bounded, h.ordered.item⟩
      sized := ⟨h.sized.log, h.sized.included, h.sized.applied, h.sized.item⟩
      known := h.known
      logged := h.logged
      queued := fun i payload hmem => h.queued i payload (hq ▸ List.mem_cons_of_mem _ hmem)
      answering := h.answering
      buffered := h.buffered
      acknowledged := h.acknowledged
      once := h.once.sublist hsub
      applied := fun i hi => h.applied i (hsub.subset hi) }

/-- What is executed under a claimed index is the command of the call. -/
theorem Inv.executed (h : Inv s) {index : Int} {payload : Payload} {rest : List (ApplyMsg Payload)} {cmd : Command}
    (hq : s.process.rf.applyHelper.q = .command index payload :: rest) (hpay : payload.decode = some cmd)
    (iteration : Iteration) : Inv ((s.popped rest).executed index cmd iteration) := by
  have hpopped := h.popped hq
  -- the index moves from the queue to the deliveries
  have hindices : ((s.popped rest).executed index cmd iteration).delivered.map Delivered.index ++
      commandIndices rest = s.delivered.map Delivered.index ++ commandIndices s.process.rf.applyHelper.q := by
    rw [hq]
    simp [Session.executed, Session.popped, commandIndices]
  refine
    { ordered := hpopped.ordered
      sized := hpopped.sized
      known := h.known
      logged := h.logged
      queued := hpopped.queued
      answering := ?_
      buffered := ?_
      acknowledged := fun a ha => List.mem_append_left _ (h.acknowledged a ha)
      once := hindices ▸ h.once
      applied := fun i hi => h.applied i (hindices ▸ hi) }
  · intro i type iteration hu
    cases hu
    refine ⟨by simp [Session.executed], fun call hr => ?_⟩
    have hcmd := h.queued index payload (by rw [hq]; exact List.mem_cons_self) call hr
    rw [hcmd] at hpay
    cases hpay
    exact List.mem_append_right _ List.mem_cons_self
  · intro ch reply hreply
    obtain ⟨call, hcall, hdel⟩ := h.buffered ch reply hreply
    exact ⟨call, hcall, List.mem_append_left _ hdel⟩

theorem perform_inv (h : Inv s) {env : Env} {writeErr : Option String}
    (hs : s.perform env writeErr = some t) : Inv t := by
  obtain ⟨_, msg, rest, hq, ⟨_, rfl⟩ | ⟨index, payload, cmd, rfl, hpay, rfl⟩⟩ := perform_cases hs
  · exact h.popped hq
  · exact h.executed hq hpay _

/-- The reply goes to the call whose command was delivered. -/
theorem notifyReply_inv (h : Inv s) {i : Int} {reply : Except String Bytes}
    (hdel : ∀ call, Registered s i call → ⟨i, call.cmd, reply⟩ ∈ s.delivered) :
    Inv {s with process := s.process.notifyReply i reply} := by
  unfold Process.notifyReply
  split
  · exact h
  · rename_i ch hch
    have hforgotten : Inv {s with process := {s.process with replyCh := s.process.replyCh.erase i}} :=
      h.fewer rfl rfl rfl rfl rfl rfl fun i' ch' hch' => hch'.imp_left (erase_sub i i' ch')
    refine { hforgotten with buffered := ?_ }
    intro ch' reply' hreply'
    dsimp only at hreply'
    split at hreply'
    · rw [GoMap.get_insert] at hreply'
      split at hreply'
      · rename_i heq
        cases hreply'
        subst heq
        obtain ⟨call, hcall, rfl⟩ := h.known i ch (Or.inl hch)
        exact ⟨call, hcall, hdel call ⟨ch, Or.inl hch, hcall⟩⟩
      · exact h.buffered ch' reply' hreply'
    · exact h.buffered ch' reply' hreply'

theorem notifyReply_rf (p : Process) (i : Int) (reply : Except String Bytes) :
    (p.notifyReply i reply).rf = p.rf := by
  unfold Process.notifyReply
  split <;> rfl

/-- The index of a command is not past `LastApplied` when its reply is sent. -/
theorem markApplied_eq {p : Process} {index : Int} (h : index ≤ p.rf.lastApplied) : p.markApplied index = p := by
  unfold Process.markApplied
  rw [if_neg (not_lt.mpr h)]

theorem conclude_inv (h : Inv s) (hs : s.conclude = some t) : Inv t := by
  unfold Session.conclude at hs
  split_ifs at hs
  obtain ⟨⟨index, type, iteration⟩, hu, rfl⟩ := Option.map_eq_some_iff.mp hs
  obtain ⟨hmem, hdel⟩ := h.answering index type iteration hu
  have hle := h.applied index (List.mem_append_left _ hmem)
  have hdone : Inv {s with unanswered := none} :=
    { h with answering := fun i type iteration hu => nomatch hu }
  have hnotified := @notifyReply_inv _ hdone index iteration.reply hdel
  dsimp only
  unfold Process.conclude Process.answer
  split
  · split
    · rw [markApplied_eq (by rw [notifyReply_rf]; exact hle)]
      exact hnotified
    · rw [markApplied_eq hle]
      exact hdone
  · exact hnotified

theorem Inv.truthful (h : Inv s) : Truthful s := by
  intro a ha
  have hdel := h.acknowledged a ha
  refine ⟨hdel, fun d hd hindex => ?_⟩
  -- indices are distinct, so a delivery is determined by its index
  have hsorted : (s.delivered.map Delivered.index).Pairwise (· < ·) :=
    (List.pairwise_append.mp h.once).1
  exact List.inj_on_of_nodup_map (hsorted.imp fun hlt => ne_of_lt hlt) hd hdel hindex

theorem start_sized {node rf : Raft Payload} {cmd : Payload} {index term : Int} {ok : Bool}
    (h : node.feed.Sized) (hroom : node.log.lastLogIndex + 1 < 2 ^ 63 - 1)
    (hstart : node.start cmd = some (rf, index, term, ok)) : rf.feed.Sized :=
  Raft.Effect.sized h (show Raft.InBounds (.start cmd) node from hroom) (Raft.start_effect hstart)

section Word
open scoped Word64

/-- A step of the Raft node changes nothing else. -/
theorem raft_step {action : Leadership.Action Payload} (hs : s.raft action = some t) :
    (∀ cmd, action ≠ .start cmd) ∧ ∃ tenure : Leadership.Tenure Payload,
      Leadership.step action ⟨s.process.rf, []⟩ = some tenure ∧
      t = {s with process := {s.process with rf := tenure.node}} := by
  have hstart : ∀ cmd, action ≠ .start cmd := by
    intro cmd heq
    rw [heq] at hs
    cases hs
  have hstep : (Leadership.step action ⟨s.process.rf, []⟩).map (fun t =>
      {s with process := {s.process with rf := t.node}}) = some t := by
    cases action <;> first | exact hs | cases hs
  obtain ⟨tenure, htenure, heq⟩ := Option.map_eq_some_iff.mp hstep
  exact ⟨hstart, tenure, htenure, heq.symm⟩

theorem start_inv (h : Inv s) (hroom : s.process.rf.log.lastLogIndex + 1 < 2 ^ 63 - 1)
    (hs : s.start = some t) : Inv t := by
  unfold Session.start at hs
  split at hs
  · rename_i cmd hsubmitting
    have hlog : s.process.rf.log.Sized := h.sized.log
    have hnobody : Inv {s with submitting := none} :=
      h.fewer rfl rfl rfl rfl rfl rfl fun i ch => Claims.of_unstarted (by simp)
    by_cases hlead : s.process.rf.state = .leader
    · obtain ⟨rf, hstart, hordered, happlied, hhelper, hentry, hkept⟩ :=
        Raft.start_spec h.ordered hlead (.typed cmd)
      have hsized := start_sized h.sized hroom hstart
      rw [Raft.start_unbounded hlog (by omega), hstart] at hs
      cases hs
      exact h.started hordered hsized happlied hhelper ⟨_, hentry⟩ hkept
    · rw [Raft.start, if_pos hlead] at hs
      cases hs
      exact hnobody
  · cases hs

theorem raft_inv (h : Inv s) {action : Leadership.Action Payload}
    (hfinal : Raft.CutsAfter (fun i => i ≤ s.process.rf.lastApplied) action s.process.rf)
    (hund : Raft.CutsAfter (fun i => ∃ ch, Claims s i ch) action s.process.rf)
    (hb : Raft.InBounds action s.process.rf) (hs : s.raft action = some t) : Inv t := by
  obtain ⟨hstart, tenure, htenure, rfl⟩ := raft_step hs
  obtain ⟨heffect, hsized⟩ := Raft.step_unbounded h.sized hb htenure
  have hcuts : Raft.CutsAfter (fun i => i ≤ s.process.rf.lastApplied ∨ ∃ ch, Claims s i ch) action
      s.process.rf := by
    unfold Raft.CutsAfter at hfinal hund ⊢
    split
    · intro haccepts j hj i hi
      exact hi.elim (hfinal haccepts j hj i) (hund haccepts j hj i)
    · trivial
  exact h.progress hsized (heffect.progress h.ordered (Or.inl le_rfl)
    (hcuts.unbounded h.ordered.shaped h.sized.log hb) hstart)

/-- The rules under which a successful `Submit` tells the truth. -/
def Honest (action : Action) (s : Session) : Prop :=
  Final action s ∧ Undisturbed action s ∧ Bounded action s

theorem step_inv (action : Action) (s t : Session) (h : Inv s) (hr : Honest action s)
    (hs : step action s = some t) : Inv t := by
  cases action with
  | submit now cmd => exact submit_inv h hs
  | start => exact start_inv h hr.2.2 hs
  | register => exact register_inv h hs
  | raft action => exact raft_inv h hr.1 hr.2.1 hr.2.2 hs
  | perform env writeErr => exact perform_inv h hs
  | conclude => exact conclude_inv h hs
  | receive ch => exact receive_inv h hs
  | timeout ch => exact timeout_inv h hs
  | forget ch => exact forget_inv h hs

end Word
end Steps

section Word
open scoped Word64

/-- **A successful `Submit` tells the truth**, in every run in which no message cuts
the log where it has been handed over, or at an index that a call has got and is not answered for, and
in which every index is below the largest `int`. -/
theorem no_false_acknowledgement (server : Server) (peers : List String) (id : Int)
    (actions : List Action) (s : Session) (hr : Along step Honest (boot server peers id) actions)
    (hs : run step (boot server peers id) actions = some s) : Truthful s :=
  (run_invariant step_inv actions _ _ (boot_inv server peers id) hr hs).truthful

/-- A call of `Submit` up to where it waits, with nothing in between. -/
def submitting (key : Bytes) : List Action :=
  [.submit 0 {Command.ofType .put with key := key}, .start, .register]

/-- A node of three wins term 1 and takes a put. -/
def putting (key : Bytes) : List Action :=
  [.raft .startElection, .raft (.electionReply 1 ⟨1, true⟩)] ++ submitting key

/-- The loop is handed index 0 and the call gets its result. -/
def answeringFirst : List Action :=
  [.raft .applyNext, .perform (Env.at 0) none, .conclude, .receive 0]

/-- The put is delivered, and its client told so. -/
theorem no_false_acknowledgement_put :
    ∃ s, run step (boot Server.fresh ["a", "b", "c"] 1) (putting (ascii "a") ++ answeringFirst) = some s ∧
      s.acknowledged.length = 1 ∧ Truthful s := by
  refine ⟨_, rfl, rfl, no_false_acknowledgement Server.fresh ["a", "b", "c"] 1
    (putting (ascii "a") ++ answeringFirst) _ ?_ rfl⟩
  exact ⟨⟨trivial, trivial, trivial⟩, ⟨trivial, trivial, trivial⟩, ⟨trivial, trivial, trivial⟩,
    ⟨trivial, trivial, (by decide : (-1 : Int) + 1 < 2 ^ 63 - 1)⟩, ⟨trivial, trivial, trivial⟩,
    ⟨trivial, trivial, trivial⟩,
    ⟨trivial, trivial, trivial⟩, ⟨trivial, trivial, trivial⟩, ⟨trivial, trivial, trivial⟩, trivial⟩

/-- The leader of term 2 has another put at index 0. -/
def overwriting (key : Bytes) : Action :=
  .raft (.handleAppendEntriesRPC ⟨2, 2, -1, 0,
    [⟨2, .object (Command.marshalled {Command.ofType .put with key := key})⟩], 0⟩)

/-- A put of `a` at index 0 is overwritten by a put of `b` before it is handed over; the
client that put `a` is told that it was applied. -/
theorem overwritten_acknowledged :
    ¬∀ server peers id actions s, Along step Final (boot server peers id) actions →
      run step (boot server peers id) actions = some s → Truthful s := by
  intro h
  have htruth := h Server.fresh ["a", "b", "c"] 1
    (putting (ascii "a") ++ overwriting (ascii "b") :: answeringFirst) _
    ⟨trivial, trivial, trivial, trivial, trivial, by
      rintro _ j ⟨k, _, _, _, rfl, _⟩ i (hi : i ≤ -1)
      show i < -1 + 1 + _
      omega, trivial, trivial, trivial, trivial, trivial⟩ rfl
  obtain ⟨hdel, _⟩ := htruth ⟨0, {Command.ofType .put with key := ascii "a"}, []⟩ (by decide)
  revert hdel
  decide

end Word

end Wjetcd.Submit
