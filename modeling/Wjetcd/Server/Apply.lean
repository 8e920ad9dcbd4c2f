import Wjetcd.Server.Lease

/-! What a committed command does to a server: the state effects of `applyLoop` and
of `applyRecoveredCommand`.

The two interpret the same ten command types, written out separately. The live
loop hands out revisions and expiry times, journals the command with them filled
in, and executes it; recovery takes revisions from the journaled command. Locks,
replies and watcher channels are not effects on the machine: `Server.Locking` has
the locks, `Server.Submit` the replies. What the loop passes to `notifyWatchers`
is returned as a list. -/
namespace Wjetcd

/-- What the process around one command decides: the clock, and the order in which
`Revoke` iterates over the leases. -/
structure Env where
  now : Nat
  order : Bytes → List Int → List Int
  perm : ∀ key ids, (order key ids).Perm ids

/-- A clock, and maps iterated in ascending order. -/
def Env.at (now : Nat) : Env := ⟨now, fun _ ids => ids, fun _ ids => List.Perm.refl ids⟩

/-- The replicated part of a server. -/
structure Machine where
  store : KVStore
  leaseMgr : LeaseManager
  currentRev : Int
deriving DecidableEq

namespace Machine

def fresh : Machine := ⟨KVStore.newKVStore, LeaseManager.newLeaseManager, 0⟩

def defaultTTL (ttl : Int) : Int := if ttl ≤ 0 then 10 else ttl

theorem defaultTTL_pos (ttl : Int) : 0 < defaultTTL ttl := by
  unfold defaultTTL
  split <;> omega

/-- `time.Now().UnixNano() + ttl*1e9`, in 64 bits. -/
def expiryFrom (now : Nat) (ttl : Int) : Int := Int.bmod (now + ttl * 1000000000) (2 ^ 64)

/-- A sum that fits in 64 bits is exact. -/
theorem expiryFrom_exact {now : Nat} {ttl : Int} (hpos : 0 < ttl) (h : now + ttl * 1000000000 < 2 ^ 63) :
    expiryFrom now ttl = now + ttl * 1000000000 := by
  unfold expiryFrom
  exact Int.bmod_eq_of_le (by omega) (by omega)

/-! ### The live loop -/

/-- A revision for a write. -/
def numbered (m : Machine) (cmd : Command) : Machine × Command :=
  if cmd.type.writes then
    ({m with currentRev := m.currentRev + 1}, {cmd with revision := m.currentRev + 1})
  else (m, cmd)

/-- An expiry time for a grant or renewal that has none. -/
def timed (now : Nat) (cmd : Command) : Command :=
  if cmd.type = .leaseGrant ∨ cmd.type = .leaseKeepAlive then
    if cmd.expireAt ≤ 0 then {cmd with expireAt := expiryFrom now (defaultTTL cmd.ttl)} else cmd
  else cmd

/-- The command as it is journaled. -/
def fill (m : Machine) (now : Nat) (cmd : Command) : Machine × Command :=
  ((m.numbered cmd).1, timed now (m.numbered cmd).2)

theorem timed_set (now : Nat) {cmd : Command} (h : 0 < cmd.expireAt) : timed now cmd = cmd := by
  unfold timed
  rw [if_neg (not_le.mpr h), ite_self]

theorem timed_unset (now : Nat) {cmd : Command}
    (ht : cmd.type = .leaseGrant ∨ cmd.type = .leaseKeepAlive) (h : cmd.expireAt ≤ 0) :
    timed now cmd = {cmd with expireAt := expiryFrom now (defaultTTL cmd.ttl)} := by
  unfold timed
  rw [if_pos ht, if_pos h]

/-- A grant or renewal is not numbered. -/
theorem fill_lease (m : Machine) (now : Nat) {cmd : Command}
    (ht : cmd.type = .leaseGrant ∨ cmd.type = .leaseKeepAlive) : (m.fill now cmd).2 = timed now cmd := by
  have hw : cmd.type.writes = false := by
    rcases ht with ht | ht
    · rw [ht]
      rfl
    · rw [ht]
      rfl
  simp [fill, numbered, hw]

/-- An expiry that is set stays. -/
theorem fill_expireAt (m : Machine) (now : Nat) {cmd : Command} (h : 0 < cmd.expireAt) :
    (m.fill now cmd).2.expireAt = cmd.expireAt := by
  have hnumbered : (m.numbered cmd).2.expireAt = cmd.expireAt := by
    unfold numbered
    split <;> rfl
  unfold fill
  rw [timed_set now (hnumbered.symm ▸ h), hnumbered]

@[simp] theorem fill_store (m : Machine) (now : Nat) (cmd : Command) :
    (m.fill now cmd).1.store = m.store := by
  unfold fill numbered
  split <;> rfl

@[simp] theorem fill_leaseMgr (m : Machine) (now : Nat) (cmd : Command) :
    (m.fill now cmd).1.leaseMgr = m.leaseMgr := by
  unfold fill numbered
  split <;> rfl

/-- `kv.Command{Type: kv.CmdDelete, Key: key, Revision: rev}` -/
def deleteCmd (key : Bytes) (rev : Int) : Command :=
  {Command.ofType .delete with key := key, revision := rev}

/-- The keys of a revoked lease are deleted, each at a revision of its own. -/
def expireKeys (m : Machine) : List Bytes → Machine × List Command
  | [] => (m, [])
  | key :: rest =>
    let cmd := deleteCmd key (m.currentRev + 1)
    let result := expireKeys
      {m with currentRev := m.currentRev + 1, store := (m.store.apply cmd).1} rest
    (result.1, cmd :: result.2)

/-- Take a list of keys out of the leases that hold them. -/
def revokeAll (env : Env) (le : LeaseManager) (keys : List Bytes) : LeaseManager :=
  keys.foldl (fun le key => (le.revoke (env.order key) key).1) le

/-- `if storeRev := s.store.GetCurrentRevision(); storeRev > s.currentRev { .. }` -/
def catchUp (m : Machine) : Machine :=
  if m.store.currentRev > m.currentRev then {m with currentRev := m.store.currentRev} else m

@[simp] theorem catchUp_store (m : Machine) : m.catchUp.store = m.store := by
  unfold catchUp
  split <;> rfl

@[simp] theorem catchUp_leaseMgr (m : Machine) : m.catchUp.leaseMgr = m.leaseMgr := by
  unfold catchUp
  split <;> rfl

/-- `fmt.Sprintf("%v", m)` -/
def formatMap (m : GoMap Bytes Bytes) : Bytes :=
  ascii "map[" ++ List.intercalate (ascii " ") (m.toList.map fun kv => kv.1 ++ ascii ":" ++ kv.2) ++
    ascii "]"

/-- The text of a result, empty next to an error. -/
def textOf : Except String Bytes → Bytes
  | .ok text => text
  | .error _ => []

structure Outcome where
  machine : Machine
  result : Bytes
  notified : List Command

/-- Put and delete, and whatever type the switch does not list. -/
def executeDefault (env : Env) (m : Machine) (cmd : Command) : Outcome :=
  let le :=
    if cmd.type = .put ∨ cmd.type = .delete then (m.leaseMgr.revoke (env.order cmd.key) cmd.key).1
    else m.leaseMgr
  let applied := m.store.apply cmd
  let m :=
    if cmd.leaseID > 0 ∧ cmd.type = .put then
      {m with
        store := applied.1.setKeyLease cmd.key cmd.leaseID
        leaseMgr := le.attach cmd.leaseID cmd.key cmd.value}
    else {m with store := applied.1, leaseMgr := le}
  ⟨m, textOf applied.2, [cmd]⟩

/-- The switch of `applyLoop`, on the command as journaled. -/
def execute (env : Env) (m : Machine) (cmd : Command) : Outcome :=
  match cmd.type with
  | .leaseGrant =>
    let granted := m.leaseMgr.grantUntil (defaultTTL cmd.ttl) cmd.expireAt
    ⟨{m with leaseMgr := granted.1}, decimal granted.2, []⟩
  | .leaseRevoke =>
    if cmd.leaseID > 0 then
      let revoked :=
        if cmd.expireAt > 0 then m.leaseMgr.revokeLeaseIfMatches cmd.leaseID cmd.expireAt
        else m.leaseMgr.revokeLease cmd.leaseID
      let result := expireKeys {m with leaseMgr := revoked.1} revoked.2
      ⟨result.1, ascii "OK", result.2⟩
    else ⟨m, ascii "OK", []⟩
  | .leaseKeepAlive =>
    let kept := m.leaseMgr.keepAliveUntil cmd.leaseID (defaultTTL cmd.ttl) cmd.expireAt
    ⟨{m with leaseMgr := kept.1}, if kept.2 then ascii "OK" else ascii "ERROR", []⟩
  | .leaseAttach =>
    if cmd.leaseID > 0 then
      let le := (m.leaseMgr.revoke (env.order cmd.key) cmd.key).1.attach cmd.leaseID cmd.key cmd.value
      let store := m.store.setKeyLease cmd.key cmd.leaseID
      ⟨{m with leaseMgr := le, store := (store.apply {cmd with type := .put}).1}, ascii "OK", []⟩
    else ⟨m, ascii "OK", []⟩
  | .cas =>
    let leaseID := m.store.getKeyLease cmd.key
    let applied := m.store.apply cmd
    if textOf applied.2 = ascii "OK" then
      let le := if leaseID > 0 then m.leaseMgr.attach leaseID cmd.key cmd.value else m.leaseMgr
      ⟨{m with store := applied.1, leaseMgr := le}, textOf applied.2, [{cmd with type := .put}]⟩
    else ⟨{m with store := applied.1}, textOf applied.2, []⟩
  | .deletePrefix =>
    let deleted := m.store.deletePrefix cmd.keyPrefix
    let m := {m with store := deleted.1, leaseMgr := revokeAll env m.leaseMgr deleted.2}.catchUp
    ⟨m, decimal deleted.2.length, deleted.2.map fun key => deleteCmd key m.currentRev⟩
  | .getPrefix => ⟨m, formatMap (m.store.getPrefix cmd.keyPrefix), []⟩
  | .get => ⟨m, textOf (m.store.apply cmd).2, []⟩
  | _ => executeDefault env m cmd

/-! ### Recovery -/

/-- The revision counter follows a journaled write; a write journaled without a
revision gets the next one. -/
def renumbered (m : Machine) (cmd : Command) : Machine × Command :=
  if cmd.type.writes then
    if cmd.revision = 0 then
      ({m with currentRev := m.currentRev + 1}, {cmd with revision := m.currentRev + 1})
    else if cmd.revision > m.currentRev then ({m with currentRev := cmd.revision}, cmd)
    else (m, cmd)
  else (m, cmd)

def recoverKeys (m : Machine) : List Bytes → Except String Machine
  | [] => .ok m
  | key :: rest =>
    let applied := m.store.apply (deleteCmd key (m.currentRev + 1))
    match applied.2 with
    | .error err => .error err
    | .ok _ => recoverKeys {m with currentRev := m.currentRev + 1, store := applied.1} rest

/-- The expiry recovery uses, from its own clock if the record has none. -/
def recoveredExpiry (env : Env) (cmd : Command) : Int :=
  if cmd.expireAt ≤ 0 then expiryFrom env.now (defaultTTL cmd.ttl) else cmd.expireAt

def recoverDefault (env : Env) (m : Machine) (cmd : Command) : Except String Machine :=
  let le :=
    if cmd.type = .put ∨ cmd.type = .delete then (m.leaseMgr.revoke (env.order cmd.key) cmd.key).1
    else m.leaseMgr
  let applied := m.store.apply cmd
  match applied.2 with
  | .error err => .error err
  | .ok _ =>
    if cmd.type = .put ∧ cmd.leaseID > 0 then
      .ok {m with
        store := applied.1.setKeyLease cmd.key cmd.leaseID
        leaseMgr := le.attach cmd.leaseID cmd.key cmd.value}
    else .ok {m with store := applied.1, leaseMgr := le}

/-- The switch of `applyRecoveredCommand`. -/
def recoverSwitch (env : Env) (m : Machine) (cmd : Command) : Except String Machine :=
  match cmd.type with
  | .leaseGrant =>
    .ok {m with leaseMgr :=
      (m.leaseMgr.grantUntil (defaultTTL cmd.ttl) (recoveredExpiry env cmd)).1}
  | .leaseRevoke =>
    let revoked :=
      if cmd.expireAt > 0 then m.leaseMgr.revokeLeaseIfMatches cmd.leaseID cmd.expireAt
      else m.leaseMgr.revokeLease cmd.leaseID
    recoverKeys {m with leaseMgr := revoked.1} revoked.2
  | .leaseKeepAlive =>
    .ok {m with leaseMgr :=
      (m.leaseMgr.keepAliveUntil cmd.leaseID (defaultTTL cmd.ttl) (recoveredExpiry env cmd)).1}
  | .leaseAttach =>
    if cmd.leaseID > 0 then
      let le := (m.leaseMgr.revoke (env.order cmd.key) cmd.key).1.attach cmd.leaseID cmd.key cmd.value
      let applied := (m.store.setKeyLease cmd.key cmd.leaseID).apply {cmd with type := .put}
      match applied.2 with
      | .error err => .error err
      | .ok _ => .ok {m with leaseMgr := le, store := applied.1}
    else .ok m
  | .deletePrefix =>
    let deleted := m.store.deletePrefix cmd.keyPrefix
    .ok {m with store := deleted.1, leaseMgr := revokeAll env m.leaseMgr deleted.2}
  | .getPrefix => .ok m
  | .cas =>
    let leaseID := m.store.getKeyLease cmd.key
    let applied := m.store.apply cmd
    match applied.2 with
    | .error err => .error err
    | .ok result =>
      if result = ascii "OK" ∧ leaseID > 0 then
        .ok {m with store := applied.1, leaseMgr := m.leaseMgr.attach leaseID cmd.key cmd.value}
      else .ok {m with store := applied.1}
  | _ => recoverDefault env m cmd

def applyRecoveredCommand (env : Env) (m : Machine) (cmd : Command) : Except String Machine :=
  let numbered := m.renumbered cmd
  (recoverSwitch env numbered.1 numbered.2).map catchUp

end Machine

/-! ### One iteration of the loop -/

/-- A server with a journal, and the failure that stopped it from journaling. -/
structure Server where
  machine : Machine
  persistenceErr : Option String
deriving DecidableEq

def Server.fresh : Server := ⟨Machine.fresh, none⟩

/-- A committed command as the loop gets it, and how `WriteEntry` ends. -/
structure Delivery where
  env : Env
  cmd : Command
  writeErr : Option String

/-- What an iteration hands to the journal with success, its reply, and what it
passes to the watchers. -/
structure Iteration where
  server : Server
  journaled : Option Command
  reply : Except String Bytes
  notified : List Command

def Server.applyLoop (s : Server) (d : Delivery) : Iteration :=
  let filled := s.machine.fill d.env.now d.cmd
  match s.persistenceErr with
  | some failure => ⟨{s with machine := filled.1}, none, .error failure, []⟩
  | none =>
    match d.writeErr with
    | some err =>
      ⟨⟨filled.1, some ("write WAL: " ++ err)⟩, none, .error ("write WAL: " ++ err), []⟩
    | none =>
      let outcome := filled.1.execute d.env filled.2
      ⟨⟨outcome.machine, none⟩, some filled.2, .ok outcome.result, outcome.notified⟩

/-- All an iteration can do: number the command and answer with the failure, or journal the
command and execute it. -/
theorem Server.applyLoop_cases (s : Server) (d : Delivery) :
    (¬(s.persistenceErr = none ∧ d.writeErr = none) ∧ ∃ failure, s.applyLoop d =
      ⟨⟨(s.machine.fill d.env.now d.cmd).1, some failure⟩, none, .error failure, []⟩) ∨
    ((s.persistenceErr = none ∧ d.writeErr = none) ∧ ∃ outcome,
      outcome = (s.machine.fill d.env.now d.cmd).1.execute d.env (s.machine.fill d.env.now d.cmd).2 ∧
      s.applyLoop d = ⟨⟨outcome.machine, none⟩, some (s.machine.fill d.env.now d.cmd).2,
        .ok outcome.result, outcome.notified⟩) := by
  obtain ⟨m, persistenceErr⟩ := s
  unfold applyLoop
  cases persistenceErr with
  | some failure => exact Or.inl ⟨by simp, failure, rfl⟩
  | none =>
    cases d.writeErr with
    | some err => exact Or.inl ⟨by simp, _, rfl⟩
    | none => exact Or.inr ⟨⟨rfl, rfl⟩, _, rfl, rfl⟩

/-- An iteration that journals its command executes it. -/
theorem Server.applyLoop_open {s : Server} (hs : s.persistenceErr = none) {d : Delivery}
    (hd : d.writeErr = none) :
    (s.applyLoop d).server = ⟨((s.machine.fill d.env.now d.cmd).1.execute d.env
        (s.machine.fill d.env.now d.cmd).2).machine, none⟩ ∧
      (s.applyLoop d).journaled = some (s.machine.fill d.env.now d.cmd).2 := by
  rcases s.applyLoop_cases d with ⟨hfailed, _⟩ | ⟨_, outcome, rfl, heq⟩
  · exact absurd ⟨hs, hd⟩ hfailed
  · rw [heq]
    exact ⟨rfl, rfl⟩

end Wjetcd
