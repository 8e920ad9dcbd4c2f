import Wjetcd.Lib.Locks
import Wjetcd.Server.Life
import Wjetcd.Server.Process

/-! The apply loop with its locks.

The loop runs under the server's `mu` and calls into the store, the leases, the
watchers and the journal, each with a mutex of its own. `applyLoop` is one
iteration of it and `applyRecoveredCommand` its sibling at startup, lock by lock;
with the locks ignored they do what `Process.iterate` and
`Machine.applyRecoveredCommand` say. `completion` says which commands they get
through: three types are answered by `notifyReply`, which locks `mu`, before `mu` is
given up, and a `CmdGet` makes the store lock itself twice. -/
namespace Wjetcd.Locking
open Locks

inductive Mutex where
  | mu
  | store
  | lease
  | watch
  | wal
deriving Repr, DecidableEq

/-- The goroutine of the loop. -/
abbrev Goroutine := Prog Mutex Process

abbrev onMachine {α : Type} (f : Machine → Machine × α) : Goroutine α := act fun p =>
  (p.withMachine (f p.server.machine).1, (f p.server.machine).2)

/-! ### The methods the loop calls -/

abbrev onStore {α : Type} (f : KVStore → KVStore × α) : Goroutine α :=
  onMachine fun m => ({m with store := (f m.store).1}, (f m.store).2)

def setKeyLease (key : Bytes) (leaseId : Int) : Goroutine Unit :=
  locked .store (onStore fun kv => (kv.setKeyLease key leaseId, ()))

def getKeyLease (key : Bytes) : Goroutine Int :=
  rlocked .store (onStore fun kv => (kv, kv.getKeyLease key))

def getCurrentRevision : Goroutine Int := rlocked .store (onStore fun kv => (kv, kv.currentRev))

def getAtRevision (key : Bytes) (rev : Int) : Goroutine (Bytes × Int) :=
  rlocked .store (onStore fun kv => (kv, kv.getAtRevision key rev))

/-- The branch for `CmdGet` goes through `GetAtRevision`, with the lock held. -/
def apply (cmd : Command) : Goroutine (Except String Bytes) :=
  locked .store <|
    if cmd.type = .get then do
      let found ← getAtRevision cmd.key cmd.revision
      pure (.ok found.1)
    else onStore fun kv => kv.apply cmd

def getPrefix (keyPrefix : Bytes) : Goroutine (GoMap Bytes Bytes) :=
  rlocked .store (onStore fun kv => (kv, kv.getPrefix keyPrefix))

def deletePrefix (keyPrefix : Bytes) : Goroutine (List Bytes) :=
  locked .store (onStore fun kv => kv.deletePrefix keyPrefix)

/-- A method of the lease manager. -/
def leases {α : Type} (f : LeaseManager → LeaseManager × α) : Goroutine α :=
  locked .lease (onMachine fun m => ({m with leaseMgr := (f m.leaseMgr).1}, (f m.leaseMgr).2))

def revoke (env : Env) (key : Bytes) : Goroutine Int := leases fun le => le.revoke (env.order key) key

def attach (leaseId : Int) (key value : Bytes) : Goroutine Unit :=
  leases fun le => (le.attach leaseId key value, ())

def notifyWatchers (cmd : Command) : Goroutine Unit :=
  match watchEvent cmd with
  | none => pure ()
  | some event => locked .watch (modify fun p => {p with eventLog := p.eventLog ++ [event]})

def notifyReply (cmdIdx : Int) (result : Except String Bytes) : Goroutine Unit :=
  locked .mu (modify fun p => p.notifyReply cmdIdx result)

/-- The journal takes the command or fails. -/
def writeEntry (writeErr : Option String) (cmd : Command) : Goroutine (Option String) :=
  locked .wal <| act fun p =>
    match writeErr with
    | some err => (p, some err)
    | none => ({p with journal := p.journal ++ [cmd]}, none)

/-- `s.currentRev++` -/
abbrev nextRev : Goroutine Int :=
  onMachine fun m => ({m with currentRev := m.currentRev + 1}, m.currentRev + 1)

/-- `if storeRev := s.store.GetCurrentRevision(); storeRev > s.currentRev { .. }` -/
def catchUp : Goroutine Unit := do
  let storeRev ← getCurrentRevision
  onMachine fun m => (if storeRev > m.currentRev then {m with currentRev := storeRev} else m, ())

/-- The keys of a revoked lease. -/
def expireKeys : List Bytes → Goroutine Unit
  | [] => pure ()
  | key :: rest => do
    let rev ← nextRev
    let _ ← apply (Machine.deleteCmd key rev)
    notifyWatchers (Machine.deleteCmd key rev)
    expireKeys rest

def revokeAll (env : Env) : List Bytes → Goroutine Unit
  | [] => pure ()
  | key :: rest => do
    let _ ← revoke env key
    revokeAll env rest

def notifyDeleted (rev : Int) : List Bytes → Goroutine Unit
  | [] => pure ()
  | key :: rest => do
    notifyWatchers (Machine.deleteCmd key rev)
    notifyDeleted rev rest

/-! ### One iteration -/

def markApplied (index : Int) : Goroutine Unit := locked .mu (modify fun p => p.markApplied index)

/-- The end of most branches: the lock is given up, then the result is sent. -/
def finish (index : Int) (result : Bytes) : Goroutine Unit := do
  unlock .mu
  runIf (0 ≤ index) (notifyReply index (.ok result))
  markApplied index

/-- The end of the branches for `CmdGet`, `CmdGetPrefix` and `CmdDeletePrefix`. -/
def finishLocked (index : Int) (result : Bytes) : Goroutine Unit := do
  notifyReply index (.ok result)
  unlock .mu
  markApplied index

/-- Put and delete, and whatever type the switch does not list. -/
def executeDefault (env : Env) (index : Int) (cmd : Command) : Goroutine Unit := do
  runIf (cmd.type = .put ∨ cmd.type = .delete) do
    let _ ← revoke env cmd.key
    pure ()
  let result ← apply cmd
  runIf (cmd.leaseID > 0 ∧ cmd.type = .put) do
    attach cmd.leaseID cmd.key cmd.value
    setKeyLease cmd.key cmd.leaseID
  notifyWatchers cmd
  finish index (Machine.textOf result)

/-- The switch of `applyLoop`, on the command as journaled. -/
def execute (env : Env) (index : Int) (cmd : Command) : Goroutine Unit :=
  match cmd.type with
  | .leaseGrant => do
    let leaseId ← leases fun le => le.grantUntil (Machine.defaultTTL cmd.ttl) cmd.expireAt
    finish index (decimal leaseId)
  | .leaseRevoke => do
    runIf (cmd.leaseID > 0) do
      let keys ← leases fun le =>
        if cmd.expireAt > 0 then le.revokeLeaseIfMatches cmd.leaseID cmd.expireAt
        else le.revokeLease cmd.leaseID
      expireKeys keys
    finish index (ascii "OK")
  | .leaseKeepAlive => do
    let ok ← leases fun le =>
      le.keepAliveUntil cmd.leaseID (Machine.defaultTTL cmd.ttl) cmd.expireAt
    finish index (if ok then ascii "OK" else ascii "ERROR")
  | .leaseAttach => do
    runIf (cmd.leaseID > 0) do
      let _ ← revoke env cmd.key
      attach cmd.leaseID cmd.key cmd.value
      setKeyLease cmd.key cmd.leaseID
      let _ ← apply {cmd with type := .put}
      pure ()
    finish index (ascii "OK")
  | .cas => do
    let leaseID ← getKeyLease cmd.key
    let result ← apply cmd
    runIf (Machine.textOf result = ascii "OK") do
      runIf (leaseID > 0) (attach leaseID cmd.key cmd.value)
      notifyWatchers {cmd with type := .put}
    finish index (Machine.textOf result)
  | .deletePrefix => do
    let deletedKeys ← deletePrefix cmd.keyPrefix
    revokeAll env deletedKeys
    catchUp
    let rev ← read fun p => p.server.machine.currentRev
    notifyDeleted rev deletedKeys
    finishLocked index (decimal deletedKeys.length)
  | .getPrefix => do
    let found ← getPrefix cmd.keyPrefix
    finishLocked index (Machine.formatMap found)
  | .get => do
    let result ← apply cmd
    finishLocked index (Machine.textOf result)
  | _ => executeDefault env index cmd

/-- A failed iteration only answers. -/
def fail (index : Int) (failure : String) : Goroutine Unit := do
  unlock .mu
  notifyReply index (.error failure)

/-- The iteration from the decoded command on, under the server's lock. -/
def handle (env : Env) (writeErr : Option String) (index : Int) (cmd : Command) : Goroutine Unit := do
  let cmd ← onMachine fun m => m.fill env.now cmd
  match ← read fun p => p.server.persistenceErr with
  | some failure => fail index failure
  | none =>
    match ← writeEntry writeErr cmd with
    | some err =>
      modify fun p =>
        {p with server := {p.server with persistenceErr := some ("write WAL: " ++ err)}}
      fail index ("write WAL: " ++ err)
    | none => execute env index cmd

/-- One iteration of `applyLoop`. -/
def applyLoop (env : Env) (writeErr : Option String) : Message → Goroutine Unit
  | .barrier => pure ()
  | .raft (.snapshot ..) => pure ()
  | .raft (.command index payload) => do
    lock .mu
    match payload.decode with
    | none => unlock .mu
    | some cmd => handle env writeErr index cmd

/-! ### Recovery -/

def recoverKeys : List Bytes → Goroutine (Except String Unit)
  | [] => pure (.ok ())
  | key :: rest => do
    let rev ← nextRev
    match ← apply (Machine.deleteCmd key rev) with
    | .error err => pure (.error err)
    | .ok _ => recoverKeys rest

def recoverDefault (env : Env) (cmd : Command) : Goroutine (Except String Unit) := do
  runIf (cmd.type = .put ∨ cmd.type = .delete) do
    let _ ← revoke env cmd.key
    pure ()
  match ← apply cmd with
  | .error err => pure (.error err)
  | .ok _ =>
    runIf (cmd.type = .put ∧ cmd.leaseID > 0) do
      attach cmd.leaseID cmd.key cmd.value
      setKeyLease cmd.key cmd.leaseID
    pure (.ok ())

/-- The switch of `applyRecoveredCommand`. -/
def recoverSwitch (env : Env) (cmd : Command) : Goroutine (Except String Unit) :=
  match cmd.type with
  | .leaseGrant => do
    let _ ← leases fun le =>
      le.grantUntil (Machine.defaultTTL cmd.ttl) (Machine.recoveredExpiry env cmd)
    pure (.ok ())
  | .leaseRevoke => do
    let keys ← leases fun le =>
      if cmd.expireAt > 0 then le.revokeLeaseIfMatches cmd.leaseID cmd.expireAt
      else le.revokeLease cmd.leaseID
    recoverKeys keys
  | .leaseKeepAlive => do
    let _ ← leases fun le =>
      le.keepAliveUntil cmd.leaseID (Machine.defaultTTL cmd.ttl) (Machine.recoveredExpiry env cmd)
    pure (.ok ())
  | .leaseAttach =>
    if cmd.leaseID > 0 then do
      let _ ← revoke env cmd.key
      attach cmd.leaseID cmd.key cmd.value
      setKeyLease cmd.key cmd.leaseID
      match ← apply {cmd with type := .put} with
      | .error err => pure (.error err)
      | .ok _ => pure (.ok ())
    else pure (.ok ())
  | .deletePrefix => do
    let deletedKeys ← deletePrefix cmd.keyPrefix
    revokeAll env deletedKeys
    pure (.ok ())
  | .getPrefix => pure (.ok ())
  | .cas => do
    let leaseID ← getKeyLease cmd.key
    match ← apply cmd with
    | .error err => pure (.error err)
    | .ok result =>
      runIf (result = ascii "OK" ∧ leaseID > 0) (attach leaseID cmd.key cmd.value)
      pure (.ok ())
  | _ => recoverDefault env cmd

def applyRecoveredCommand (env : Env) (cmd : Command) : Goroutine (Except String Unit) := do
  let cmd ← onMachine fun m => m.renumbered cmd
  match ← recoverSwitch env cmd with
  | .error err => pure (.error err)
  | .ok _ =>
    catchUp
    pure (.ok ())

/-! ### What the methods do -/

section Methods
variable {α : Type} {mode : Mode} {w : World Mutex Process}

/-- The world after a step that only changes the machine. -/
def become (w : World Mutex Process) (m : Machine) : World Mutex Process :=
  ⟨w.held, w.state.withMachine m⟩

/-- The machine in a world. -/
abbrev machine (w : World Mutex Process) : Machine := w.state.server.machine

theorem wp_onMachine {f : Machine → Machine × α} {Q : α → World Mutex Process → Prop}
    (h : Q (f (machine w)).2 (become w (f (machine w)).1)) : wp (onMachine f) mode w Q := wp_act h

theorem wp_leases {f : LeaseManager → LeaseManager × α} {Q : α → World Mutex Process → Prop}
    (hl : w.held .lease = .free)
    (h : Q (f (machine w).leaseMgr).2
      (become w {machine w with leaseMgr := (f (machine w).leaseMgr).1})) :
    wp (leases f) mode w Q := wp_locked_step hl h

theorem wp_store {f : KVStore → KVStore × α} {Q : α → World Mutex Process → Prop}
    (hs : w.held .store = .free)
    (h : Q (f (machine w).store).2 (become w {machine w with store := (f (machine w).store).1})) :
    wp (locked .store (onStore f)) mode w Q := wp_locked_step hs h

theorem wp_readStore {f : KVStore → α} {Q : α → World Mutex Process → Prop}
    (hs : w.held .store = .free) (h : Q (f (machine w).store) w) :
    wp (rlocked .store (onStore fun kv => (kv, f kv))) mode w Q := wp_rlocked_step hs h

/-- `Apply` gets its lock back unless the command is a `CmdGet`. -/
theorem wp_apply {cmd : Command} {Q : Except String Bytes → World Mutex Process → Prop}
    (hget : mode = .ignored ∨ cmd.type ≠ .get) (hs : w.held .store = .free)
    (h : Q ((machine w).store.apply cmd).2
      (become w {machine w with store := ((machine w).store.apply cmd).1})) :
    wp (apply cmd) mode w Q := by
  unfold apply
  by_cases ht : cmd.type = .get
  · rw [if_pos ht]
    have hignored : mode = .ignored := hget.resolve_right (not_not_intro ht)
    refine wp_locked (Or.inl hignored) (wp_bind (wp_rlocked (Or.inl hignored) (wp_act
      ⟨Or.inl hignored, wp_pure ⟨Or.inl hignored, ?_⟩⟩)))
    simp only [KVStore.apply, ht] at h
    simp only [Function.update_idem, update_free hs]
    exact h
  · rw [if_neg ht]
    exact wp_store hs h

theorem stuck_apply {cmd : Command} (ht : cmd.type = .get) (hs : w.held .store = .free) :
    Stuck (apply cmd) w := by
  unfold apply
  rw [if_pos ht]
  refine stuck_after (wp_shift (Or.inr hs) (stuck_bind (stuck_bind (stuck_bind (stuck_shift ?_)))))
  simp

/-- The world after watchers have been told about commands. -/
def note (w : World Mutex Process) (cmds : List Command) : World Mutex Process :=
  ⟨w.held, {w.state with eventLog := w.state.eventLog ++ cmds.filterMap watchEvent}⟩

theorem note_nil (w : World Mutex Process) : note w [] = w := by simp [note]

theorem note_note (w : World Mutex Process) (a b : List Command) :
    note (note w a) b = note w (a ++ b) := by
  simp [note]

theorem wp_notifyWatchers {cmd : Command} {Q : Unit → World Mutex Process → Prop}
    (hw : w.held .watch = .free) (h : Q () (note w [cmd])) : wp (notifyWatchers cmd) mode w Q := by
  unfold notifyWatchers
  split
  · rename_i hnone
    refine wp_pure ?_
    simpa [note, hnone] using h
  · rename_i event hsome
    refine wp_locked_step hw ?_
    simpa [note, hsome] using h

theorem wp_catchUp {Q : Unit → World Mutex Process → Prop} (hs : w.held .store = .free)
    (h : Q () (become w (machine w).catchUp)) : wp catchUp mode w Q :=
  wp_bind (wp_readStore hs (wp_onMachine h))

theorem wp_expireKeys (keys : List Bytes) : ∀ (w : World Mutex Process)
    {Q : Unit → World Mutex Process → Prop}, w.held .store = .free → w.held .watch = .free →
    Q () (note (become w (Machine.expireKeys (machine w) keys).1)
      (Machine.expireKeys (machine w) keys).2) →
    wp (expireKeys keys) mode w Q := by
  induction keys with
  | nil =>
    intro w Q _ _ h
    rw [Machine.expireKeys, note_nil] at h
    exact wp_pure h
  | cons key rest ih =>
    intro w Q hs hw h
    refine wp_bind (wp_onMachine (wp_bind (wp_apply (Or.inr ?_) hs
      (wp_bind (wp_notifyWatchers hw (ih _ hs hw ?_))))))
    · show CommandType.delete ≠ .get
      decide
    rw [Machine.expireKeys, ← List.singleton_append, ← note_note] at h
    exact h

theorem wp_revokeAll (env : Env) (keys : List Bytes) : ∀ (w : World Mutex Process)
    {Q : Unit → World Mutex Process → Prop}, w.held .lease = .free →
    Q () (become w {machine w with
      leaseMgr := Machine.revokeAll env (machine w).leaseMgr keys}) →
    wp (revokeAll env keys) mode w Q := by
  induction keys with
  | nil =>
    intro w Q _ h
    exact wp_pure h
  | cons key rest ih =>
    intro w Q hl h
    exact wp_bind (wp_leases hl (ih _ hl h))

theorem wp_notifyDeleted (rev : Int) (keys : List Bytes) : ∀ (w : World Mutex Process)
    {Q : Unit → World Mutex Process → Prop}, w.held .watch = .free →
    Q () (note w (keys.map fun key => Machine.deleteCmd key rev)) →
    wp (notifyDeleted rev keys) mode w Q := by
  induction keys with
  | nil =>
    intro w Q _ h
    rw [List.map_nil, note_nil] at h
    exact wp_pure h
  | cons key rest ih =>
    intro w Q hw h
    rw [List.map_cons, ← List.singleton_append, ← note_note] at h
    exact wp_bind (wp_notifyWatchers hw (ih _ hw h))

end Methods

/-! ### What an iteration does -/

def unlocked : Mutex → Hold := fun _ => .free

/-- Only the server's lock is held. -/
def inside : Mutex → Hold := Function.update unlocked .mu .writing

theorem update_inside : Function.update inside .mu .free = unlocked := by
  funext l
  cases l <;> rfl

section Iteration
variable {mode : Mode} {w : World Mutex Process} {Q : Unit → World Mutex Process → Prop}

/-- The world in which an iteration ends. -/
def answered (w : World Mutex Process) (index : Int) (type : CommandType) (result : Bytes) :
    World Mutex Process := ⟨unlocked, w.state.answer index type (.ok result)⟩

theorem wp_markApplied {p : Process} {index : Int} (h : Q () ⟨unlocked, p.markApplied index⟩) :
    wp (markApplied index) mode ⟨unlocked, p⟩ Q := wp_locked_step rfl h

theorem wp_finish {index : Int} {type : CommandType} {result : Bytes} (hw : w.held = inside)
    (ht : Process.answersLocked type = false) (h : Q () (answered w index type result)) :
    wp (finish index result) mode w Q := by
  refine wp_bind (wp_shift (Or.inr (by rw [hw]; rfl)) ?_)
  rw [hw, update_inside]
  simp only [answered, Process.answer, ht, Bool.false_eq_true, or_false] at h
  refine wp_bind (wp_runIf (fun hi => ?_) (fun hi => ?_))
  · rw [if_pos hi] at h
    exact wp_locked_step rfl (wp_markApplied h)
  · rw [if_neg hi] at h
    exact wp_markApplied h

theorem wp_finishLocked {index : Int} {type : CommandType} {result : Bytes} (hm : mode = .ignored)
    (hw : w.held = inside) (ht : Process.answersLocked type = true)
    (h : Q () (answered w index type result)) : wp (finishLocked index result) mode w Q := by
  simp only [answered, Process.answer, ht, or_true, if_true] at h
  refine wp_bind (wp_locked_act (Or.inl hm) (wp_bind (wp_shift (Or.inl hm) ?_)))
  rw [hw, update_inside, update_free rfl]
  exact wp_markApplied h

/-- `notifyReply` waits for the lock its caller holds. -/
theorem stuck_finishLocked {index : Int} {result : Bytes} (hw : w.held .mu = .writing) :
    Stuck (finishLocked index result) w := by
  refine stuck_bind (stuck_bind (stuck_shift ?_))
  rw [hw]
  decide

theorem wp_executeDefault (env : Env) (index : Int) (cmd : Command) (p : Process)
    (ht : Process.answersLocked cmd.type = false)
    (h : Q () (answered (note (become ⟨inside, p⟩ (p.server.machine.executeDefault env cmd).machine)
      (p.server.machine.executeDefault env cmd).notified) index cmd.type
      (p.server.machine.executeDefault env cmd).result)) :
    wp (executeDefault env index cmd) mode ⟨inside, p⟩ Q := by
  have hget : cmd.type ≠ .get := by
    intro heq
    rw [heq] at ht
    cases ht
  -- a lease manager for each of the two ways through the first `if`
  have hrest : ∀ le, le = (if cmd.type = .put ∨ cmd.type = .delete then
      (p.server.machine.leaseMgr.revoke (env.order cmd.key) cmd.key).1 else p.server.machine.leaseMgr) →
      wp (do
        let result ← apply cmd
        runIf (cmd.leaseID > 0 ∧ cmd.type = .put) do
          attach cmd.leaseID cmd.key cmd.value
          setKeyLease cmd.key cmd.leaseID
        notifyWatchers cmd
        finish index (Machine.textOf result))
        mode (become ⟨inside, p⟩ {p.server.machine with leaseMgr := le}) Q := by
    intro le hle
    unfold Machine.executeDefault at h
    rw [← hle] at h
    dsimp only at h
    refine wp_bind (wp_apply (Or.inr hget) rfl (wp_bind (wp_runIf (fun hput => ?_) (fun hput => ?_))))
    · rw [if_pos hput] at h
      exact wp_bind (wp_leases rfl (wp_store rfl (wp_bind (wp_notifyWatchers rfl (wp_finish rfl ht h)))))
    · rw [if_neg hput] at h
      exact wp_bind (wp_notifyWatchers rfl (wp_finish rfl ht h))
  refine wp_bind (wp_runIf (fun hkey => ?_) (fun hkey => ?_))
  · exact wp_bind (wp_leases rfl (wp_pure (hrest _ (by rw [if_pos hkey]))))
  · exact hrest _ (by rw [if_neg hkey])

/-- A command of a type that is answered late, or with the locks ignored. -/
theorem wp_execute (env : Env) (index : Int) (cmd : Command) (p : Process)
    (hsafe : mode = .ignored ∨ Process.answersLocked cmd.type = false)
    (h : Q () (answered (note (become ⟨inside, p⟩ (p.server.machine.execute env cmd).machine)
      (p.server.machine.execute env cmd).notified) index cmd.type
      (p.server.machine.execute env cmd).result)) :
    wp (execute env index cmd) mode ⟨inside, p⟩ Q := by
  have hget : mode = .ignored ∨ cmd.type ≠ .get := by
    refine hsafe.imp_right fun hlate ht => ?_
    rw [ht] at hlate
    cases hlate
  unfold execute
  unfold Machine.execute at h
  cases ht : cmd.type with
  | leaseGrant =>
    rw [ht] at h
    simp only [note_nil] at h
    exact wp_bind (wp_leases rfl (wp_finish rfl rfl h))
  | leaseRevoke =>
    rw [ht] at h
    refine wp_bind (wp_runIf (fun hid => ?_) (fun hid => ?_))
    · simp only [hid, if_true] at h
      exact wp_bind (wp_leases rfl (wp_expireKeys _ _ rfl rfl (wp_finish rfl rfl h)))
    · simp only [hid, if_false, note_nil] at h
      exact wp_finish rfl rfl h
  | leaseKeepAlive =>
    rw [ht] at h
    simp only [note_nil] at h
    exact wp_bind (wp_leases rfl (wp_finish rfl rfl h))
  | leaseAttach =>
    rw [ht] at h
    refine wp_bind (wp_runIf (fun hid => ?_) (fun hid => ?_))
    · simp only [hid, if_true, note_nil] at h
      exact wp_bind (wp_leases rfl (wp_bind (wp_leases rfl (wp_bind (wp_store rfl
        (wp_bind (wp_apply (Or.inr (by simp)) rfl (wp_pure (wp_finish rfl rfl h)))))))))
    · simp only [hid, if_false, note_nil] at h
      exact wp_finish rfl rfl h
  | cas =>
    rw [ht] at h
    refine wp_bind (wp_readStore rfl (wp_bind (wp_apply hget rfl (wp_bind (wp_runIf
      (fun hok => wp_bind (wp_runIf (fun hid => ?_) (fun hid => ?_))) (fun hok => ?_))))))
    · dsimp only at h hok hid
      rw [if_pos hok, if_pos hid] at h
      exact wp_leases rfl (wp_notifyWatchers rfl (wp_finish rfl rfl h))
    · dsimp only at h hok hid
      rw [if_pos hok, if_neg hid] at h
      exact wp_notifyWatchers rfl (wp_finish rfl rfl h)
    · dsimp only at h hok
      rw [if_neg hok, note_nil] at h
      exact wp_finish rfl rfl h
  | deletePrefix =>
    rw [ht] at h
    have hm : mode = .ignored := hsafe.resolve_right (by rw [ht]; decide)
    exact wp_bind (wp_store rfl (wp_bind (wp_revokeAll env _ _ rfl (wp_bind (wp_catchUp rfl
      (wp_bind (wp_act (wp_bind (wp_notifyDeleted _ _ _ rfl (wp_finishLocked hm rfl rfl h))))))))))
  | getPrefix =>
    rw [ht] at h
    simp only [note_nil] at h
    have hm : mode = .ignored := hsafe.resolve_right (by rw [ht]; decide)
    exact wp_bind (wp_readStore rfl (wp_finishLocked hm rfl rfl h))
  | get =>
    rw [ht] at h
    simp only [note_nil] at h
    have hm : mode = .ignored := hsafe.resolve_right (by rw [ht]; decide)
    refine wp_bind (wp_apply hget rfl (@wp_finishLocked mode _ _ index .get _ hm rfl rfl ?_))
    simp only [KVStore.apply, ht] at h ⊢
    exact h
  | put => exact wp_executeDefault env index cmd p (by rw [ht]; rfl) (by rw [ht] at h ⊢; exact h)
  | delete => exact wp_executeDefault env index cmd p (by rw [ht]; rfl) (by rw [ht] at h ⊢; exact h)
  | other n hn =>
    exact wp_executeDefault env index cmd p (by rw [ht]; rfl) (by rw [ht] at h ⊢; exact h)

theorem stuck_execute (env : Env) (index : Int) (cmd : Command) (p : Process)
    (ht : Process.answersLocked cmd.type = true) : Stuck (execute env index cmd) ⟨inside, p⟩ := by
  have htypes : cmd.type = .get ∨ cmd.type = .getPrefix ∨ cmd.type = .deletePrefix :=
    of_decide_eq_true ht
  unfold execute
  rcases htypes with ht | ht | ht
  · -- the store's lock comes before the server's
    rw [ht]
    exact stuck_bind (stuck_apply ht rfl)
  · rw [ht]
    exact stuck_after (wp_readStore rfl (stuck_finishLocked rfl))
  · rw [ht]
    exact stuck_after (wp_store rfl (stuck_after (wp_revokeAll env _ _ rfl (stuck_after (wp_catchUp rfl
      (stuck_after (wp_act (stuck_after (wp_notifyDeleted _ _ _ rfl (stuck_finishLocked rfl))))))))))

/-- A message that the loop can answer: none of the three types, or a failure to journal. -/
def Clear (p : Process) (writeErr : Option String) (msg : Message) : Prop :=
  ∀ index cmd, msg.decode = some (index, cmd) → p.server.persistenceErr = none → writeErr = none →
    Process.answersLocked cmd.type = false

/-- `fail` after `mu.Lock()`. -/
theorem wp_fail {p : Process} {index : Int} {failure : String}
    (h : Q () ⟨unlocked, p.notifyReply index (.error failure)⟩) :
    wp (fail index failure) mode ⟨inside, p⟩ Q := by
  refine wp_bind (wp_shift (Or.inr rfl) ?_)
  rw [update_inside]
  exact wp_locked_step rfl h

theorem wp_writeEntry {writeErr : Option String} {cmd : Command}
    {R : Option String → World Mutex Process → Prop} (hw : w.held .wal = .free)
    (hfail : ∀ err, writeErr = some err → R (some err) w)
    (hdone : writeErr = none →
      R none ⟨w.held, {w.state with journal := w.state.journal ++ [cmd]}⟩) :
    wp (writeEntry writeErr cmd) mode w R := by
  refine wp_locked_step hw ?_
  cases writeErr with
  | some err => exact hfail err rfl
  | none => exact hdone rfl

theorem wp_handle (env : Env) (writeErr : Option String) (index : Int) (cmd : Command) (p : Process)
    (hsafe : mode = .ignored ∨ (p.server.persistenceErr = none → writeErr = none →
      Process.answersLocked cmd.type = false))
    (h : Q () ⟨unlocked, p.deliver env writeErr index cmd⟩) :
    wp (handle env writeErr index cmd) mode ⟨inside, p⟩ Q := by
  have htype := Machine.fill_type p.server.machine env.now cmd
  refine wp_bind (wp_onMachine (wp_bind (wp_read fun failed (herr : p.server.persistenceErr = _) => ?_)))
  cases failed with
  | some failure =>
    rw [p.deliver_stopped env index cmd writeErr herr] at h
    exact wp_fail h
  | none =>
    refine wp_bind (wp_writeEntry rfl ?_ ?_)
    · rintro err rfl
      rw [p.deliver_failed env index cmd err herr] at h
      exact wp_bind (wp_act (wp_fail h))
    · rintro rfl
      rw [p.deliver_executed env index cmd herr, ← htype] at h
      refine wp_execute env index _ _ ?_ h
      rw [← htype] at hsafe
      exact hsafe.imp_right fun hlate => hlate herr rfl

theorem stuck_handle (env : Env) (index : Int) (cmd : Command) (p : Process)
    (herr : p.server.persistenceErr = none) (ht : Process.answersLocked cmd.type = true) :
    Stuck (handle env none index cmd) ⟨inside, p⟩ := by
  refine stuck_after (wp_onMachine (stuck_after (wp_read
    fun failed (hread : p.server.persistenceErr = _) => ?_)))
  rw [herr] at hread
  subst hread
  refine stuck_after (wp_writeEntry rfl (fun err herr' => nomatch herr') fun _ => ?_)
  refine stuck_execute env index _ _ ?_
  rw [← Machine.fill_type p.server.machine env.now cmd] at ht
  exact ht

/-- With the locks ignored, and in clear cases with them, an iteration is `iterate`. -/
theorem wp_applyLoop (env : Env) (writeErr : Option String) (msg : Message) (p : Process)
    (hsafe : mode = .ignored ∨ Clear p writeErr msg)
    (h : Q () ⟨unlocked, p.iterate env writeErr msg⟩) :
    wp (applyLoop env writeErr msg) mode ⟨unlocked, p⟩ Q := by
  match msg with
  | .barrier => exact wp_pure h
  | .raft (.snapshot _ _ _) => exact wp_pure h
  | .raft (.command index payload) =>
    refine wp_bind (wp_shift (Or.inr rfl) ?_)
    have hdecode : (Message.raft (.command index payload)).decode =
      payload.decode.map fun cmd => (index, cmd) := rfl
    rw [Process.iterate, hdecode] at h
    unfold Clear at hsafe
    rw [hdecode] at hsafe
    cases hpay : payload.decode with
    | none =>
      rw [hpay] at h
      refine wp_shift (Or.inr rfl) ?_
      show Q () ⟨Function.update inside .mu .free, p⟩
      rw [update_inside]
      exact h
    | some cmd =>
      rw [hpay] at h hsafe
      exact wp_handle env writeErr index cmd p (hsafe.imp_right fun hclear => hclear index cmd rfl) h

theorem stuck_applyLoop (env : Env) {writeErr : Option String} {msg : Message} {p : Process}
    (h : ¬Clear p writeErr msg) : Stuck (applyLoop env writeErr msg) ⟨unlocked, p⟩ := by
  unfold Clear at h
  push Not at h
  obtain ⟨index, cmd, hdecode, herr, rfl, ht⟩ := h
  match msg with
  | .barrier => cases hdecode
  | .raft (.snapshot _ _ _) => cases hdecode
  | .raft (.command index' payload) =>
    cases hpay : payload.decode with
    | none =>
      rw [Message.decode, hpay] at hdecode
      cases hdecode
    | some cmd' =>
      rw [Message.decode, hpay] at hdecode
      cases hdecode
      refine stuck_after (wp_shift (Or.inr rfl) ?_)
      rw [hpay]
      exact stuck_handle env index cmd p herr (by simpa using ht)

end Iteration

/-! ### What recovery does -/

section Recovery
variable {mode : Mode}

/-- How a program of recovery ends, given what the machine says. -/
def Recovered (p : Process) (outcome : Except String Machine) (result : Except String Unit)
    (w : World Mutex Process) : Prop :=
  w.held = unlocked ∧
    match outcome with
    | .ok m => result = .ok () ∧ w.state = p.withMachine m
    | .error err => result = .error err

theorem wp_recoverKeys (keys : List Bytes) : ∀ p : Process,
    wp (recoverKeys keys) mode ⟨unlocked, p⟩
      (Recovered p (p.server.machine.recoverKeys keys)) := by
  induction keys with
  | nil =>
    intro p
    exact wp_pure ⟨rfl, rfl, rfl⟩
  | cons key rest ih =>
    intro p
    refine wp_bind (wp_onMachine (wp_bind (wp_apply (Or.inr ?_) rfl ?_)))
    · show CommandType.delete ≠ .get
      decide
    · have hok : ((p.server.machine.store.apply
          (Machine.deleteCmd key (p.server.machine.currentRev + 1))).2) = .ok [] := rfl
      refine wp_mono (ih _) ?_
      rintro result w ⟨hheld, hstate⟩
      refine ⟨hheld, ?_⟩
      rw [Machine.recoverKeys, hok]
      exact hstate

theorem wp_recoverDefault (env : Env) (cmd : Command) (p : Process)
    (hget : mode = .ignored ∨ cmd.type ≠ .get) :
    wp (recoverDefault env cmd) mode ⟨unlocked, p⟩
      (Recovered p (p.server.machine.recoverDefault env cmd)) := by
  have hrest : ∀ le, le = (if cmd.type = .put ∨ cmd.type = .delete then
      (p.server.machine.leaseMgr.revoke (env.order cmd.key) cmd.key).1 else p.server.machine.leaseMgr) →
      wp (do
        match ← apply cmd with
        | .error err => pure (.error err)
        | .ok _ =>
          runIf (cmd.type = .put ∧ cmd.leaseID > 0) do
            attach cmd.leaseID cmd.key cmd.value
            setKeyLease cmd.key cmd.leaseID
          pure (.ok ()))
        mode (become ⟨unlocked, p⟩ {p.server.machine with leaseMgr := le})
        (Recovered p (p.server.machine.recoverDefault env cmd)) := by
    intro le hle
    unfold Machine.recoverDefault
    rw [← hle]
    dsimp only
    refine wp_bind (wp_apply hget rfl ?_)
    show wp (match (p.server.machine.store.apply cmd).2 with | .error err => _ | .ok _ => _) _ _ _
    cases (p.server.machine.store.apply cmd).2 with
    | error err => exact wp_pure ⟨rfl, rfl⟩
    | ok text =>
      refine wp_bind (wp_runIf (fun hput => ?_) (fun hput => ?_))
      · refine wp_bind (wp_leases rfl (wp_store rfl (wp_pure ?_)))
        rw [if_pos hput]
        exact ⟨rfl, rfl, rfl⟩
      · refine wp_pure ?_
        rw [if_neg hput]
        exact ⟨rfl, rfl, rfl⟩
  refine wp_bind (wp_runIf (fun hkey => ?_) (fun hkey => ?_))
  · exact wp_bind (wp_leases rfl (wp_pure (hrest _ (by rw [if_pos hkey]))))
  · exact hrest _ (by rw [if_neg hkey])

theorem wp_recoverSwitch (env : Env) (cmd : Command) (p : Process)
    (hget : mode = .ignored ∨ cmd.type ≠ .get) :
    wp (recoverSwitch env cmd) mode ⟨unlocked, p⟩
      (Recovered p (p.server.machine.recoverSwitch env cmd)) := by
  have hdefault := wp_recoverDefault env cmd p hget
  unfold recoverSwitch Machine.recoverSwitch
  cases ht : cmd.type with
  | leaseGrant => exact wp_bind (wp_leases rfl (wp_pure ⟨rfl, rfl, rfl⟩))
  | leaseRevoke => exact wp_bind (wp_leases rfl (wp_recoverKeys _ _))
  | leaseKeepAlive => exact wp_bind (wp_leases rfl (wp_pure ⟨rfl, rfl, rfl⟩))
  | leaseAttach =>
    dsimp only
    split
    · exact wp_bind (wp_leases rfl (wp_bind (wp_leases rfl (wp_bind (wp_store rfl
        (wp_bind (wp_apply (Or.inr (by simp)) rfl (wp_pure ⟨rfl, rfl, rfl⟩))))))))
    · exact wp_pure ⟨rfl, rfl, rfl⟩
  | deletePrefix =>
    exact wp_bind (wp_store rfl (wp_bind (wp_revokeAll env _ _ rfl (wp_pure ⟨rfl, rfl, rfl⟩))))
  | getPrefix => exact wp_pure ⟨rfl, rfl, rfl⟩
  | cas =>
    refine wp_bind (wp_readStore rfl (wp_bind (wp_apply hget rfl ?_)))
    show wp (match (p.server.machine.store.apply cmd).2 with | .error err => _ | .ok _ => _) _ _ _
    dsimp only
    cases (p.server.machine.store.apply cmd).2 with
    | error err => exact wp_pure ⟨rfl, rfl⟩
    | ok text =>
      refine wp_bind (wp_runIf (fun hok => ?_) (fun hok => ?_))
      · refine wp_leases rfl (wp_pure ?_)
        dsimp only at hok ⊢
        rw [if_pos hok]
        exact ⟨rfl, rfl, rfl⟩
      · refine wp_pure ?_
        dsimp only at hok ⊢
        rw [if_neg hok]
        exact ⟨rfl, rfl, rfl⟩
  | get => exact hdefault
  | put => exact hdefault
  | delete => exact hdefault
  | other n hn => exact hdefault

/-- With the locks ignored, and but for `CmdGet` with them, recovery does what the
machine's does. -/
theorem wp_applyRecoveredCommand (env : Env) (cmd : Command) (p : Process)
    (hget : mode = .ignored ∨ cmd.type ≠ .get) :
    wp (applyRecoveredCommand env cmd) mode ⟨unlocked, p⟩
      (Recovered p (p.server.machine.applyRecoveredCommand env cmd)) := by
  have htype : (p.server.machine.renumbered cmd).2.type = cmd.type := by
    unfold Machine.renumbered
    split
    · split
      · rfl
      · split <;> rfl
    · rfl
  refine wp_bind (wp_onMachine (wp_bind (wp_mono (wp_recoverSwitch env _ _ ?_) ?_)))
  · rw [← htype] at hget
    exact hget
  · rintro result ⟨held, state⟩ ⟨hheld, hstate⟩
    unfold Machine.applyRecoveredCommand
    dsimp only at hheld hstate ⊢
    subst hheld
    revert hstate
    show (match Machine.recoverSwitch env (p.server.machine.renumbered cmd).1
      (p.server.machine.renumbered cmd).2 with | .ok m => _ | .error err => _) → _
    cases Machine.recoverSwitch env (p.server.machine.renumbered cmd).1
      (p.server.machine.renumbered cmd).2 with
    | error err =>
      rintro rfl
      exact wp_pure ⟨rfl, rfl⟩
    | ok m =>
      rintro ⟨rfl, rfl⟩
      exact wp_bind (wp_catchUp rfl (wp_pure ⟨rfl, rfl, rfl⟩))

theorem stuck_applyRecoveredCommand (env : Env) {cmd : Command} (p : Process) (ht : cmd.type = .get) :
    Stuck (applyRecoveredCommand env cmd) ⟨unlocked, p⟩ := by
  have hsame : p.server.machine.renumbered cmd = (p.server.machine, cmd) := by
    simp [Machine.renumbered, ht, CommandType.writes]
  refine stuck_after (wp_onMachine (stuck_bind ?_))
  show Stuck (recoverSwitch env (p.server.machine.renumbered cmd).2) _
  rw [hsame]
  unfold recoverSwitch
  rw [ht]
  refine stuck_after (wp_runIf (fun hkey => ?_) fun _ => stuck_bind (stuck_apply ht rfl))
  rw [ht] at hkey
  cases hkey <;> contradiction

end Recovery

/-- The program ends, and no lock is held. -/
def Completes {α : Type} (prog : Goroutine α) (p : Process) : Prop :=
  wp prog .enforced ⟨unlocked, p⟩ fun _ w => w.held = unlocked

/-- A record that the loop may have journaled. -/
def Journaled (record : Command) : Prop :=
  ∃ s d, Reachable s ∧ (s.applyLoop d).journaled = some record

/-- Which messages the loop, and which records recovery, gets through. -/
theorem completion (p : Process) (env : Env) (writeErr : Option String) (msg : Message)
    (record : Command) :
    (Completes (applyLoop env writeErr msg) p ↔ Clear p writeErr msg) ∧
      (Completes (applyRecoveredCommand env record) p ↔ record.type ≠ .get) := by
  refine ⟨⟨fun h => ?_, fun h => ?_⟩, ⟨fun h ht => ?_, fun h => ?_⟩⟩
  · by_contra hclear
    exact not_wp_of_stuck (stuck_applyLoop env hclear) h
  · exact wp_applyLoop env writeErr msg p (Or.inr h) rfl
  · exact not_wp_of_stuck (stuck_applyRecoveredCommand env p ht) h
  · exact wp_mono (wp_applyRecoveredCommand env record p (Or.inr h)) fun _ _ hr => hr.1

/-- A `CmdGetPrefix` stops the loop of a fresh server for good, and a journaled
`CmdGet` every later startup. -/
theorem loop_waits_for_itself :
    (¬∀ p : Process, Reachable p.server → ∀ env writeErr index cmd,
      Completes (applyLoop env writeErr (.raft (.command index (.typed cmd)))) p) ∧
    ¬∀ p : Process, Reachable p.server → ∀ env record, Journaled record →
      Completes (applyRecoveredCommand env record) p := by
  refine ⟨fun h => ?_, fun h => ?_⟩
  · refine not_wp_of_stuck (stuck_applyLoop (Env.at 0) ?_)
      (h (Process.fresh [] 1) Reachable.fresh (Env.at 0) none 0 (Command.ofType .getPrefix))
    intro hclear
    exact absurd (hclear 0 _ rfl rfl rfl) (by decide)
  · refine not_wp_of_stuck (stuck_applyRecoveredCommand (Env.at 0) (Process.fresh [] 1) rfl)
      (h (Process.fresh [] 1) Reachable.fresh (Env.at 0) (Command.ofType .get)
        ⟨Server.fresh, ⟨Env.at 0, Command.ofType .get, none⟩, Reachable.fresh, rfl⟩)

end Wjetcd.Locking
