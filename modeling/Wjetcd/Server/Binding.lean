import Wjetcd.Server.Expiry
import Wjetcd.Server.History

/-! Which keys a lease holds, and what becomes of them.

A binding is kept twice: the store's `key2Lease` says which lease a key was last given, and
the `Keys` of a lease which keys it will take with it. `Bound` says what the `Keys` of a
lease are good for in every state: the key is live, and the value noted there is its
value. With `Consistent` this makes revoking a lease safe (`lease_keys_bound`).

The other direction fails. A key given to a lease that does not exist yet is in `key2Lease`
only, and releasing a lock removes its lease without deleting anything. `leak_iff` says when
a lease that goes leaves no key behind. -/
namespace Wjetcd
open Runs

/-! ### The lease manager changes by its own operations -/

namespace LeaseManager

/-- What a committed command calls: a grant and a renewal with a positive time to live, and
the removal of the lease that a revocation names. -/
def Op.Served (cmd : Command) : Op → Prop
  | .grantUntil ttl _ => cmd.type = .leaseGrant ∧ 0 < ttl
  | .keepAliveUntil _ ttl _ => cmd.type = .leaseKeepAlive ∧ 0 < ttl
  | .revokeLease leaseId => cmd.type = .leaseRevoke ∧ leaseId = cmd.leaseID
  | .revokeLeaseIfMatches leaseId _ => cmd.type = .leaseRevoke ∧ leaseId = cmd.leaseID
  | .removeExpiredLease _ _ => False
  | .attach _ _ _ => True
  | .revoke _ _ => True

/-- What an action of the node calls. -/
def Op.Called : Node.Action → Op → Prop
  | .deliver d, op => op.Served d.cmd
  | .acquire _ _ _ _, .grantUntil ttl _ => 0 < ttl
  | .release _ leaseID _, .revokeLease leaseId => leaseId = leaseID
  | .renew _ _ _, .keepAliveUntil _ ttl _ => 0 < ttl
  | _, _ => False

/-- A property that these calls keep. -/
def Closed (Q : Op → Prop) (P : LeaseManager → Prop) : Prop :=
  ∀ op le le', Q op → P le → step op le = some le' → P le'

/-- The lease that a call removes. -/
def Op.removes : Op → Option Int
  | .revokeLease leaseId => some leaseId
  | .revokeLeaseIfMatches leaseId _ => some leaseId
  | _ => none

/-- All that an operation other than a grant can do to the table of leases: nothing, remove
a lease, or change one, and its times only as a renewal. -/
theorem step_leases {op : Op} {le le' : LeaseManager} (hs : step op le = some le') :
    (∃ ttl expireAt, op = .grantUntil ttl expireAt) ∨
    le'.leaseID = le.leaseID ∧
      (le'.leases = le.leases ∨
       (∃ id, (op.removes = some id ∨ ∃ now order, op = .removeExpiredLease now order) ∧
         ∀ i : Int, le'.leases[i]? = if id = i then none else le.leases[i]?) ∨
       ∃ id f, ((∀ lease, Lease.ttl (f lease) = lease.ttl ∧ (f lease).expireAt = lease.expireAt) ∨
           ∃ ttl expireAt, op = .keepAliveUntil id ttl expireAt ∧ ∀ lease, Lease.ttl (f lease) = ttl) ∧
         ∀ i : Int, le'.leases[i]? = if id = i then (le.leases[i]?).map f else le.leases[i]?) := by
  have hmodify : ∀ (id : Int) (f : Lease → Lease) (i : Int),
      (le.leases.modify id f)[i]? = if id = i then (le.leases[i]?).map f else le.leases[i]? := by
    intro id f i
    rw [GoMap.get_modify]
    by_cases hid : id = i
    · rw [if_pos hid, if_pos hid, hid]
    · rw [if_neg hid, if_neg hid]
  have hcounter : ∀ id, (le.revokeLeaseLocked id).1.leaseID = le.leaseID := by
    intro id
    unfold revokeLeaseLocked
    split <;> rfl
  cases op with
  | grantUntil ttl expireAt => exact Or.inl ⟨ttl, expireAt, rfl⟩
  | keepAliveUntil leaseId ttl expireAt =>
    cases hs
    right
    refine ⟨?_, Or.inr (Or.inr ⟨leaseId, _, Or.inr ⟨ttl, expireAt, rfl, fun _ => ?_⟩,
      le.keepAliveUntil_leases leaseId ttl expireAt⟩)⟩
    · unfold keepAliveUntil
      split <;> rfl
    · rfl
  | revokeLease leaseId =>
    cases hs
    exact Or.inr ⟨hcounter leaseId, Or.inr (Or.inl ⟨leaseId, Or.inl rfl, le.revokeLeaseLocked_leases leaseId⟩)⟩
  | revokeLeaseIfMatches leaseId expected =>
    cases hs
    right
    rcases revokeLeaseIfMatches_cases le leaseId expected with heq | heq
    · rw [heq]
      exact ⟨rfl, Or.inl rfl⟩
    · rw [heq]
      exact ⟨hcounter leaseId, Or.inr (Or.inl ⟨leaseId, Or.inl rfl, le.revokeLeaseLocked_leases leaseId⟩)⟩
  | removeExpiredLease now order =>
    cases hs
    right
    unfold LeaseManager.removeExpiredLease
    split
    · exact ⟨rfl, Or.inl rfl⟩
    · split
      · exact ⟨rfl, Or.inl rfl⟩
      · split
        · exact ⟨rfl, Or.inl rfl⟩
        · exact ⟨rfl, Or.inr (Or.inl ⟨_, Or.inr ⟨now, order, rfl⟩, GoMap.get_erase le.leases _⟩)⟩
  | attach leaseId key value =>
    cases hs
    refine Or.inr ⟨rfl, Or.inr (Or.inr ⟨leaseId, _, Or.inl ?_, hmodify leaseId _⟩)⟩
    exact fun _ => ⟨rfl, rfl⟩
  | revoke order key =>
    cases hs
    right
    unfold LeaseManager.revoke
    split
    · exact ⟨rfl, Or.inl rfl⟩
    · refine ⟨rfl, Or.inr (Or.inr ⟨_, _, Or.inl ?_, hmodify _ _⟩)⟩
      exact fun _ => ⟨rfl, rfl⟩

/-- Every lease has a positive time to live. -/
def Lasting (le : LeaseManager) : Prop :=
  ∀ (id : Int) (lease : Lease), le.leases[id]? = some lease → 0 < lease.ttl

theorem closed_lasting (action : Node.Action) : Closed (Op.Called action) Lasting := by
  intro op le le' hop h hs i lease hi
  rcases step_leases hs with ⟨ttl, expireAt, rfl⟩ | ⟨_, hsame | ⟨id, _, hall⟩ | ⟨id, f, hf, hall⟩⟩
  · have hpos : 0 < ttl := by
      cases action <;> first | exact hop.2 | exact hop | cases hop
    cases hs
    rw [grantUntil_leases, GoMap.get_insert] at hi
    split at hi
    · cases hi
      exact hpos
    · exact h i lease hi
  · rw [hsame] at hi
    exact h i lease hi
  · rw [hall] at hi
    split at hi
    · cases hi
    · exact h i lease hi
  · rw [hall] at hi
    split at hi
    · obtain ⟨old, hold, rfl⟩ := Option.map_eq_some_iff.mp hi
      rcases hf with hf | ⟨ttl, expireAt, rfl, hf⟩
      · rw [(hf old).1]
        exact h i old hold
      · rw [hf]
        cases action <;> first | exact hop.2 | exact hop | cases hop
    · exact h i lease hi

end LeaseManager

namespace Machine

@[simp] theorem expireKeys_leaseMgr (keys : List Bytes) : ∀ m : Machine,
    (expireKeys m keys).1.leaseMgr = m.leaseMgr := by
  induction keys with
  | nil =>
    intro m
    rfl
  | cons key rest ih =>
    intro m
    rw [expireKeys]
    exact ih _

end Machine

namespace LeaseManager.Closed
variable {P : LeaseManager → Prop}

section Command
variable {cmd : Command} (hP : Closed (Op.Served cmd) P)
include hP

theorem revokeAll (env : Env) (keys : List Bytes) : ∀ le, P le → P (Machine.revokeAll env le keys) := by
  induction keys with
  | nil =>
    intro le h
    exact h
  | cons key rest ih =>
    intro le h
    exact ih _ (hP (.revoke (env.order key) key) le _ trivial h rfl)

/-- A write of a key takes it from its lease and gives it to another, or to none. -/
theorem executeDefault {m : Machine} (env : Env) (h : P m.leaseMgr) :
    P (m.executeDefault env cmd).machine.leaseMgr := by
  have hrevoked : P (if cmd.type = .put ∨ cmd.type = .delete then
      (m.leaseMgr.revoke (env.order cmd.key) cmd.key).1 else m.leaseMgr) := by
    split
    · exact hP (.revoke (env.order cmd.key) cmd.key) _ _ trivial h rfl
    · exact h
  unfold Machine.executeDefault
  dsimp only
  split
  · exact hP (.attach cmd.leaseID cmd.key cmd.value) _ _ trivial hrevoked rfl
  · exact hrevoked

/-- The switch of the apply loop keeps what the calls it makes keep. -/
theorem execute {m : Machine} (env : Env) (h : P m.leaseMgr) :
    P (m.execute env cmd).machine.leaseMgr := by
  cases ht : cmd.type with
  | leaseGrant =>
    simp only [Machine.execute, ht]
    exact hP (.grantUntil _ cmd.expireAt) _ _ ⟨ht, Machine.defaultTTL_pos _⟩ h rfl
  | leaseKeepAlive =>
    simp only [Machine.execute, ht]
    exact hP (.keepAliveUntil cmd.leaseID _ cmd.expireAt) _ _ ⟨ht, Machine.defaultTTL_pos _⟩ h rfl
  | leaseRevoke =>
    rw [Machine.execute_revoke m env ht]
    split
    · rw [Machine.expireKeys_leaseMgr]
      dsimp only [Machine.revokedBy]
      split
      · exact hP (.revokeLeaseIfMatches cmd.leaseID cmd.expireAt) _ _ ⟨ht, rfl⟩ h rfl
      · exact hP (.revokeLease cmd.leaseID) _ _ ⟨ht, rfl⟩ h rfl
    · exact h
  | leaseAttach =>
    simp only [Machine.execute, ht]
    split
    · have hrevoked := hP (.revoke (env.order cmd.key) cmd.key) _ _ trivial h rfl
      exact hP (.attach cmd.leaseID cmd.key cmd.value) _ _ trivial hrevoked rfl
    · exact h
  | cas =>
    simp only [Machine.execute, ht]
    split
    · split
      · exact hP (.attach _ cmd.key cmd.value) _ _ trivial h rfl
      · exact h
    · exact h
  | deletePrefix =>
    simp only [Machine.execute, ht]
    rw [Machine.catchUp_leaseMgr]
    exact hP.revokeAll env _ _ h
  | getPrefix =>
    simp only [Machine.execute, ht]
    exact h
  | get =>
    simp only [Machine.execute, ht]
    exact h
  | put =>
    simp only [Machine.execute, ht]
    exact hP.executeDefault env h
  | delete =>
    simp only [Machine.execute, ht]
    exact hP.executeDefault env h
  | other n hn =>
    simp only [Machine.execute, ht]
    exact hP.executeDefault env h

end Command

/-- Filling in a command changes neither its type nor the lease it names. -/
theorem filled {m : Machine} {now : Nat} {cmd : Command} (hP : Closed (Op.Served cmd) P) :
    Closed (Op.Served (m.fill now cmd).2) P := by
  obtain ⟨_, _, hid, _⟩ := m.fill_fields now cmd
  intro op le le' hop
  refine hP op le le' ?_
  cases op with
  | grantUntil ttl expireAt => exact ⟨m.fill_type now cmd ▸ hop.1, hop.2⟩
  | keepAliveUntil leaseId ttl expireAt => exact ⟨m.fill_type now cmd ▸ hop.1, hop.2⟩
  | revokeLease leaseId => exact ⟨m.fill_type now cmd ▸ hop.1, hid ▸ hop.2⟩
  | revokeLeaseIfMatches leaseId expected => exact ⟨m.fill_type now cmd ▸ hop.1, hid ▸ hop.2⟩
  | _ => exact hop

theorem applyLoop {s : Server} {d : Delivery} (hP : Closed (Op.Served d.cmd) P) (h : P s.machine.leaseMgr) :
    P (s.applyLoop d).server.machine.leaseMgr := by
  have hfill : P (s.machine.fill d.env.now d.cmd).1.leaseMgr := by
    rw [Machine.fill_leaseMgr]
    exact h
  rcases s.applyLoop_cases d with ⟨_, failure, heq⟩ | ⟨_, outcome, rfl, heq⟩
  · rw [heq]
    exact hfill
  · rw [heq]
    exact hP.filled.execute d.env hfill

theorem nodeStep {action : Node.Action} (hP : Closed (Op.Called action) P) {s t : Node}
    (h : P s.server.machine.leaseMgr) (hs : Node.step action s = some t) : P t.server.machine.leaseMgr := by
  rcases Node.step_cases hs with ⟨d, rfl, rfl⟩ | ⟨le, locks, rfl, hle⟩
  · have hserved : Closed (Op.Served d.cmd) P := hP
    exact hserved.applyLoop h
  · rcases hle with rfl | ⟨_, _, _, _, rfl, rfl⟩ | ⟨_, leaseID, _, rfl, rfl⟩ | ⟨_, leaseID, _, rfl, rfl⟩
    · exact h
    · exact hP (.grantUntil _ _) _ _ (Machine.defaultTTL_pos _) h rfl
    · exact hP (.revokeLease leaseID) _ _ rfl h rfl
    · exact hP (.keepAliveUntil leaseID _ _) _ _ (Machine.defaultTTL_pos _) h rfl

theorem nodeRun (hP : ∀ action, Closed (Op.Called action) P) {actions : List Node.Action} {s : Node}
    (h : P LeaseManager.newLeaseManager) (hs : run Node.step Node.boot actions = some s) :
    P s.server.machine.leaseMgr :=
  run_invariant_all (P := fun s : Node => P s.server.machine.leaseMgr)
    (fun action _ _ h hs => (hP action).nodeStep h hs) actions Node.boot s h hs

end LeaseManager.Closed

theorem LeaseManager.Queued.nodeRun {actions : List Node.Action} {s : Node}
    (hs : Runs.run Node.step Node.boot actions = some s) : s.server.machine.leaseMgr.Queued :=
  Closed.nodeRun (fun _ op le le' _ h hs => Queued.step op le le' h hs) Queued.newLeaseManager hs

/-! ### What a key is now -/

namespace KVStore

/-- The value of a live key. -/
def current (kv : KVStore) (key : Bytes) : Option Bytes :=
  (kv.versions key).getLast?.bind fun entry => if entry.tombstone then none else some entry.value

theorem current_eq_some {kv : KVStore} {key value : Bytes} :
    kv.current key = some value ↔
      ∃ entry, (kv.versions key).getLast? = some entry ∧ entry.tombstone = false ∧ entry.value = value := by
  unfold current
  rw [Option.bind_eq_some_iff]
  refine exists_congr fun entry => and_congr_right fun _ => ?_
  cases entry.tombstone <;> simp

/-- The last version of a key in a log. -/
def latest (log : List (Bytes × VersionEntry)) (key : Bytes) : Option VersionEntry :=
  (Versions.ofKey log key).getLast?

@[simp] theorem latest_single (k key : Bytes) (entry : VersionEntry) :
    latest [(k, entry)] key = if k = key then some entry else none := by
  unfold latest Versions.ofKey
  by_cases hk : k = key
  · simp [hk]
  · simp [hk]

theorem latest_mem {log : List (Bytes × VersionEntry)} {key : Bytes} {entry : VersionEntry}
    (h : latest log key = some entry) : (key, entry) ∈ log :=
  Versions.mem_ofKey.mp (List.mem_of_getLast? h)

theorem latest_eq_none {log : List (Bytes × VersionEntry)} {key : Bytes} :
    latest log key = none ↔ ∀ entry, (key, entry) ∉ log := by
  unfold latest
  rw [List.getLast?_eq_none_iff, List.eq_nil_iff_forall_not_mem]
  simp only [Versions.mem_ofKey]

theorem tombstones_keys (keys : List Bytes) : ∀ rev, (tombstones rev keys).map Prod.fst = keys := by
  induction keys with
  | nil =>
    intro rev
    rfl
  | cons key rest ih =>
    intro rev
    rw [tombstones, List.map_cons, ih]

theorem tombstones_dead (keys : List Bytes) : ∀ rev, ∀ p ∈ tombstones rev keys, p.2.tombstone = true := by
  induction keys with
  | nil => simp [tombstones]
  | cons key rest ih =>
    intro rev p hp
    rcases List.mem_cons.mp hp with rfl | hp
    · rfl
    · exact ih (rev + 1) p hp

theorem mem_tombstones {keys : List Bytes} {rev : Int} {key : Bytes} :
    (∃ entry, (key, entry) ∈ tombstones rev keys) ↔ key ∈ keys := by
  nth_rewrite 2 [← tombstones_keys keys rev]
  simp

/-- A loop that deletes keys touches no other key. -/
theorem latest_tombstones_none {keys : List Bytes} {key : Bytes} (h : key ∉ keys) (rev : Int) :
    latest (tombstones rev keys) key = none := by
  rw [latest_eq_none]
  intro entry hentry
  exact h (mem_tombstones.mp ⟨entry, hentry⟩)

/-- The keys of such a loop end with a tombstone. -/
theorem latest_tombstones {keys : List Bytes} {key : Bytes} (h : key ∈ keys) (rev : Int) :
    ∃ entry, latest (tombstones rev keys) key = some entry ∧ entry.tombstone = true := by
  obtain ⟨entry, hentry⟩ := mem_tombstones.mpr h
  cases hlatest : latest (tombstones rev keys) key with
  | none => exact absurd hentry (latest_eq_none.mp hlatest entry)
  | some last => exact ⟨last, rfl, tombstones_dead keys rev _ (latest_mem hlatest)⟩

/-- The latest version of a key is the latest one in the log, if it has one. -/
theorem Appends.last {kv kv' : KVStore} {log : List (Bytes × VersionEntry)} (h : kv.Appends kv' log)
    (key : Bytes) : (kv'.versions key).getLast? = (latest log key).or (kv.versions key).getLast? := by
  rw [h.grown, List.getLast?_append]
  rfl

/-- A log decides what a key is now if it has a version of the key. -/
theorem Appends.current {kv kv' : KVStore} {log : List (Bytes × VersionEntry)} (h : kv.Appends kv' log)
    (key : Bytes) :
    kv'.current key =
      match latest log key with
      | none => kv.current key
      | some entry => if entry.tombstone then none else some entry.value := by
  unfold KVStore.current
  rw [h.last]
  cases latest log key with
  | none => rfl
  | some entry => rfl

end KVStore

/-! ### The invariant -/

/-- What a lease notes of a key is the key's value, and a key that is bound is live. -/
structure Bound (m : Machine) : Prop where
  carried : ∀ id key value, m.leaseMgr.Carries id key value → m.store.current key = some value
  live : ∀ (key : Bytes) (id : Int), m.store.key2Lease[key]? = some id → (m.store.current key).isSome

namespace Bound
open KVStore
variable {m : Machine}

theorem fresh : Bound Machine.fresh where
  carried := by
    rintro id key value ⟨lease, h, _⟩
    simp [Machine.fresh, LeaseManager.newLeaseManager] at h
  live := by
    intro key id h
    simp [Machine.fresh, KVStore.newKVStore] at h

/-- Keys that a log does not touch are as they were, and of those it does touch only
those are carried or bound that it leaves live. -/
theorem after (h : Bound m) {m' : Machine} {log : List (Bytes × VersionEntry)}
    (happ : m.store.Appends m'.store log)
    (hcarried : ∀ id key value, m'.leaseMgr.Carries id key value →
      (m.leaseMgr.Carries id key value ∧ latest log key = none) ∨
      ∃ revision, latest log key = some ⟨revision, value, false⟩)
    (hlive : ∀ (key : Bytes) (id : Int), m'.store.key2Lease[key]? = some id →
      (m.store.key2Lease[key]? = some id ∧ latest log key = none) ∨
      ∃ revision value, latest log key = some ⟨revision, value, false⟩) :
    Bound m' where
  carried := by
    intro id key value hk
    rw [happ.current]
    rcases hcarried id key value hk with ⟨hold, hnone⟩ | ⟨revision, hlast⟩
    · rw [hnone]
      exact h.carried id key value hold
    · rw [hlast]
      rfl
  live := by
    intro key id hk
    rw [happ.current]
    rcases hlive key id hk with ⟨hold, hnone⟩ | ⟨revision, value, hlast⟩
    · rw [hnone]
      exact h.live key id hold
    · rw [hlast]
      rfl

/-- The same store, and nothing more carried. -/
theorem sameStore (h : Bound m) {m' : Machine} (hstore : m'.store = m.store)
    (hcarried : ∀ id key value, m'.leaseMgr.Carries id key value → m.leaseMgr.Carries id key value) :
    Bound m' := by
  have happ : m.store.Appends m'.store [] := hstore ▸ Appends.refl m.store
  refine h.after happ ?_ ?_
  · intro id key value hk
    exact Or.inl ⟨hcarried id key value hk, rfl⟩
  · intro key id hk
    rw [hstore] at hk
    exact Or.inl ⟨hk, rfl⟩

/-- One key is written, and its bindings go with it. -/
theorem rewritten (h : Bound m) {m' : Machine} {key value : Bytes} {revision : Int}
    (happ : m.store.Appends m'.store [(key, ⟨revision, value, false⟩)])
    (hcarried : ∀ id k v, m'.leaseMgr.Carries id k v →
      (m.leaseMgr.Carries id k v ∧ k ≠ key) ∨ (k = key ∧ v = value))
    (hlive : ∀ (k : Bytes) (id : Int), k ≠ key → m'.store.key2Lease[k]? = some id →
      m.store.key2Lease[k]? = some id) : Bound m' := by
  refine h.after happ ?_ ?_
  · intro id k v hk
    rcases hcarried id k v hk with ⟨hold, hne⟩ | ⟨rfl, rfl⟩
    · exact Or.inl ⟨hold, by simp [Ne.symm hne]⟩
    · exact Or.inr ⟨revision, by simp⟩
  · intro k id hk
    by_cases hne : k = key
    · exact Or.inr ⟨revision, value, by simp [hne]⟩
    · exact Or.inl ⟨hlive k id hne hk, by simp [Ne.symm hne]⟩

/-- Keys are deleted, and are neither carried nor bound after it. -/
theorem deleted (h : Bound m) {m' : Machine} (keys : List Bytes) {log : List (Bytes × VersionEntry)}
    (happ : m.store.Appends m'.store log) (hlog : ∀ key, key ∉ keys → latest log key = none)
    (hcarried : ∀ id k v, m'.leaseMgr.Carries id k v → m.leaseMgr.Carries id k v ∧ k ∉ keys)
    (hlive : ∀ k : Bytes, m'.store.key2Lease[k]? = if k ∈ keys then none else m.store.key2Lease[k]?) :
    Bound m' := by
  refine h.after happ ?_ ?_
  · intro id k v hk
    obtain ⟨hold, hnot⟩ := hcarried id k v hk
    exact Or.inl ⟨hold, hlog k hnot⟩
  · intro k id hk
    rw [hlive] at hk
    split at hk
    · cases hk
    · rename_i hnot
      exact Or.inl ⟨hk, hlog k hnot⟩

/-! ### One command -/

section Execute
variable (h : Bound m) (hc : Consistent m) (env : Env) {cmd : Command}
include h hc

/-- The key leaves its lease and joins the one it names. -/
theorem rebound {m' : Machine} (revision : Int)
    (happ : m.store.Appends m'.store [(cmd.key, ⟨revision, cmd.value, false⟩)])
    (hle : ∀ id k v, m'.leaseMgr.Carries id k v →
      ((m.leaseMgr.revoke (env.order cmd.key) cmd.key).1.attach cmd.leaseID cmd.key cmd.value).Carries id k v)
    (hlive : ∀ (k : Bytes) (id : Int), k ≠ cmd.key → m'.store.key2Lease[k]? = some id →
      m.store.key2Lease[k]? = some id) : Bound m' := by
  refine h.rewritten happ ?_ hlive
  intro id k v hk
  rcases LeaseManager.carries_attach (hle id k v hk) with ⟨hold, _⟩ | ⟨_, hkey, hvalue⟩
  · exact Or.inl (LeaseManager.carries_revoke hc.single (env.perm cmd.key) hold)
  · exact Or.inr ⟨hkey, hvalue⟩

theorem executePut (ht : cmd.type = .put)
    (happ : m.store.Appends (m.execute env cmd).machine.store (m.appended cmd)) :
    Bound (m.execute env cmd).machine := by
  have hlease := fun k => m.store.apply_put_key2Lease ht k
  simp only [Machine.execute, Machine.executeDefault, Machine.appended, ht] at happ ⊢
  by_cases hid : cmd.leaseID > 0
  · simp only [hid, and_self, if_true, true_or] at happ ⊢
    refine h.rebound hc env cmd.revision happ (fun _ _ _ hk => hk) ?_
    intro k id hne hk
    simp only [setKeyLease, GoMap.get_insert, if_neg (Ne.symm hne), hlease] at hk
    exact hk
  · simp only [hid, false_and, if_true, if_false, true_or] at happ ⊢
    refine h.rewritten happ ?_ ?_
    · intro id k v hk
      exact Or.inl (LeaseManager.carries_revoke hc.single (env.perm cmd.key) hk)
    · intro k id hne hk
      rw [hlease, if_neg (Ne.symm hne)] at hk
      exact hk

theorem executeDelete (ht : cmd.type = .delete)
    (happ : m.store.Appends (m.execute env cmd).machine.store (m.appended cmd)) :
    Bound (m.execute env cmd).machine := by
  have hlease := fun k => m.store.apply_delete_key2Lease ht k
  simp only [Machine.execute, Machine.executeDefault, Machine.appended, ht, if_true, or_true, reduceCtorEq,
    and_false, if_false] at happ ⊢
  refine h.deleted [cmd.key] happ ?_ ?_ ?_
  · intro key hkey
    have hne : cmd.key ≠ key := fun heq => hkey (heq ▸ List.mem_singleton_self _)
    simp [hne]
  · intro id k v hk
    obtain ⟨hold, hne⟩ := LeaseManager.carries_revoke hc.single (env.perm cmd.key) hk
    exact ⟨hold, by simpa using hne⟩
  · intro k
    rw [hlease]
    simp only [List.mem_singleton, eq_comm]

theorem executeAttach (ht : cmd.type = .leaseAttach)
    (happ : m.store.Appends (m.execute env cmd).machine.store (m.appended cmd)) :
    Bound (m.execute env cmd).machine := by
  simp only [Machine.execute, Machine.appended, ht] at happ ⊢
  by_cases hid : cmd.leaseID > 0
  · simp only [hid, if_true] at happ ⊢
    refine h.rebound hc env cmd.revision happ (fun _ _ _ hk => hk) ?_
    intro k id hne hk
    rw [apply_put_key2Lease _ rfl, if_neg (Ne.symm hne)] at hk
    simpa [setKeyLease, Ne.symm hne] using hk
  · simp only [hid, if_false]
    exact h

/-- The key stays with its lease, which notes the new value. -/
theorem executeCAS (ht : cmd.type = .cas)
    (happ : m.store.Appends (m.execute env cmd).machine.store (m.appended cmd)) :
    Bound (m.execute env cmd).machine := by
  have hlease := m.store.apply_cas_key2Lease ht
  have hiff := m.casMatches_iff ht
  -- whoever carries the key is the lease it is bound to
  have hholder : ∀ id v, m.leaseMgr.Carries id cmd.key v →
      m.store.getKeyLease cmd.key = id ∧ 0 < id := by
    intro id v hv
    have hbound := hc.bound id cmd.key hv.holds
    obtain ⟨lease, hl, _⟩ := hv
    refine ⟨by simp [getKeyLease, hbound], ?_⟩
    have := hc.numbered.ids id lease hl
    omega
  simp only [Machine.execute, Machine.appended, ht, ← hiff] at happ ⊢
  by_cases hok : Machine.textOf (m.store.apply cmd).2 = ascii "OK"
  · simp only [hok, if_true] at happ ⊢
    refine h.rewritten happ ?_ ?_
    · intro id k v hk
      dsimp only at hk
      split at hk
      · rcases LeaseManager.carries_attach hk with ⟨hold, hnot⟩ | ⟨_, hkey, hvalue⟩
        · refine Or.inl ⟨hold, ?_⟩
          rintro rfl
          exact hnot ⟨(hholder id v hold).1.symm, rfl⟩
        · exact Or.inr ⟨hkey, hvalue⟩
      · rename_i hfree
        refine Or.inl ⟨hk, ?_⟩
        rintro rfl
        obtain ⟨heq, hpos⟩ := hholder id v hk
        rw [heq] at hfree
        exact hfree hpos
    · intro k id _ hk
      rw [hlease] at hk
      exact hk
  · simp only [hok, if_false] at happ ⊢
    refine h.after happ ?_ ?_
    · intro id k v hk
      exact Or.inl ⟨hk, rfl⟩
    · intro k id hk
      rw [hlease] at hk
      exact Or.inl ⟨hk, rfl⟩

theorem executeRevoke (ht : cmd.type = .leaseRevoke)
    (happ : m.store.Appends (m.execute env cmd).machine.store (m.appended cmd)) :
    Bound (m.execute env cmd).machine := by
  rw [Machine.execute_revoke m env ht] at happ ⊢
  simp only [Machine.appended, ht] at happ
  by_cases hid : cmd.leaseID > 0
  · simp only [hid, if_true] at happ ⊢
    obtain ⟨_, _, _, _, hkeys⟩ := Machine.expireKeys_spec (m.revokedBy cmd).2
      {m with leaseMgr := (m.revokedBy cmd).1} hc.counted hc.ahead hc.positive
    refine h.deleted (m.revokedBy cmd).2 happ (fun key hkey => latest_tombstones_none hkey _) ?_ hkeys
    intro id k v hk
    rw [Machine.expireKeys_leaseMgr] at hk
    dsimp only at hk
    rcases m.revokedBy_cases cmd with heq | heq
    · rw [heq] at hk ⊢
      exact ⟨hk, List.not_mem_nil⟩
    · rw [heq] at hk ⊢
      obtain ⟨hold, hne⟩ := LeaseManager.carries_revokeLeaseLocked hk
      refine ⟨hold, ?_⟩
      intro hmem
      have hheld := (m.leaseMgr.revokeLeaseLocked_keys cmd.leaseID k).mp hmem
      exact hne (hc.single k id cmd.leaseID hold.holds hheld)
  · simp only [hid, if_false]
    exact h

theorem executePrefix (ht : cmd.type = .deletePrefix)
    (happ : m.store.Appends (m.execute env cmd).machine.store (m.appended cmd)) :
    Bound (m.execute env cmd).machine := by
  obtain ⟨_, _, hlease⟩ := deleteKeys_spec (m.store.deletePrefix cmd.keyPrefix).2 m.store
    hc.counted hc.positive
  obtain ⟨_, hheld⟩ := LeaseManager.revokeAll_spec env (m.store.deletePrefix cmd.keyPrefix).2
    m.leaseMgr hc.single hc.numbered
  simp only [Machine.execute, Machine.appended, ht] at happ ⊢
  refine h.deleted (m.store.deletePrefix cmd.keyPrefix).2 happ
    (fun key hkey => latest_tombstones_none hkey _) ?_ ?_
  · intro id k v hk
    rw [Machine.catchUp_leaseMgr] at hk
    exact hheld id k v hk
  · intro k
    rw [Machine.catchUp_store]
    exact hlease k

theorem execute (hrev : cmd.type.writes = true →
      cmd.revision = m.currentRev ∧ m.store.currentRev < m.currentRev) :
    Bound (m.execute env cmd).machine := by
  have happ := Machine.execute_appends hc env hrev
  cases ht : cmd.type with
  | put => exact h.executePut hc env ht happ
  | delete => exact h.executeDelete hc env ht happ
  | cas => exact h.executeCAS hc env ht happ
  | leaseAttach => exact h.executeAttach hc env ht happ
  | leaseRevoke => exact h.executeRevoke hc env ht happ
  | deletePrefix => exact h.executePrefix hc env ht happ
  | leaseGrant =>
    simp only [Machine.execute, ht]
    exact h.sameStore rfl fun _ _ _ => LeaseManager.carries_grantUntil
  | leaseKeepAlive =>
    simp only [Machine.execute, ht]
    exact h.sameStore rfl fun _ _ _ => LeaseManager.carries_keepAliveUntil
  | getPrefix =>
    simp only [Machine.execute, ht]
    exact h
  | get =>
    simp only [Machine.execute, ht]
    exact h
  | other n hn =>
    -- an unknown type changes nothing
    have happly : (m.store.apply cmd).1 = m.store := by simp only [KVStore.apply, ht]
    simp only [Machine.execute, Machine.executeDefault, ht, happly, reduceCtorEq, or_self, and_false, if_false]
    exact h

end Execute

theorem applyLoop {s : Server} (h : Bound s.machine) (hc : Consistent s.machine) (d : Delivery) :
    Bound (s.applyLoop d).server.machine := by
  have hfill : Bound (s.machine.fill d.env.now d.cmd).1 := by
    refine h.sameStore (Machine.fill_store _ _ _) ?_
    intro id key value hk
    rw [Machine.fill_leaseMgr] at hk
    exact hk
  rcases s.applyLoop_cases d with ⟨_, failure, heq⟩ | ⟨_, outcome, rfl, heq⟩
  · rw [heq]
    exact hfill
  · rw [heq]
    exact hfill.execute (hc.fill d.env.now d.cmd) d.env (Server.fill_above hc d.env.now)

theorem nodeStep (action : Node.Action) (s t : Node)
    (h : Consistent s.server.machine ∧ Bound s.server.machine) (hs : Node.step action s = some t) :
    Consistent t.server.machine ∧ Bound t.server.machine := by
  refine ⟨Node.step_consistent action s t h.1 hs, ?_⟩
  obtain ⟨hc, h⟩ := h
  rcases Node.step_cases hs with ⟨d, _, rfl⟩ | ⟨le, locks, rfl, hle⟩
  · exact h.applyLoop hc d
  · refine h.sameStore rfl ?_
    rcases hle with rfl | ⟨_, _, _, _, _, rfl⟩ | ⟨_, leaseID, _, _, rfl⟩ | ⟨_, _, _, _, rfl⟩
    · exact fun _ _ _ hk => hk
    · exact fun _ _ _ => LeaseManager.carries_grantUntil
    · exact fun _ _ _ hk => (LeaseManager.carries_revokeLeaseLocked hk).1
    · exact fun _ _ _ => LeaseManager.carries_keepAliveUntil

theorem nodeRun {actions : List Node.Action} {s : Node} (hs : run Node.step Node.boot actions = some s) :
    Bound s.server.machine :=
  (run_invariant_all nodeStep actions Node.boot s ⟨Consistent.fresh, Bound.fresh⟩ hs).2

end Bound

/-! ### Revoking a lease -/

namespace Node

def leaseMgr (s : Node) : LeaseManager := s.server.machine.leaseMgr

/-- The versions a revocation appends are tombstones on keys of the lease it names. -/
theorem revoked_keys {s : Server} {d : Delivery} (ht : d.cmd.type = .leaseRevoke) {key : Bytes}
    {entry : VersionEntry} (he : (key, entry) ∈ s.appended d) :
    s.machine.leaseMgr.Holds d.cmd.leaseID key := by
  obtain ⟨_, _, hid, _⟩ := s.machine.fill_fields d.env.now d.cmd
  unfold Server.appended at he
  split at he
  · rw [Machine.appended, Machine.fill_type, ht] at he
    dsimp only at he
    split at he
    · have hkey := KVStore.mem_tombstones.mp ⟨entry, he⟩
      rcases Machine.revokedBy_cases (s.machine.fill d.env.now d.cmd).1
        (s.machine.fill d.env.now d.cmd).2 with heq | heq
      · rw [heq] at hkey
        cases hkey
      · rw [heq, Machine.fill_leaseMgr, hid] at hkey
        exact (LeaseManager.revokeLeaseLocked_keys _ _ _).mp hkey
    · cases he
  · cases he

/-- **Removing a lease deletes no key that is not bound to it.** No key is in two leases; a
key in a lease is live, bound to the lease and noted with its value; so a revocation
touches bound keys only and the order in which `Revoke` looks through the leases does not
matter. -/
theorem lease_keys_bound (actions : List Action) (s : Node) (hs : run step boot actions = some s) :
    (∀ key i j, s.leaseMgr.Holds i key → s.leaseMgr.Holds j key → i = j) ∧
    (∀ (id : Int) (lease : Lease) (key value : Bytes), s.leaseMgr.leases[id]? = some lease →
      lease.keys[key]? = some value →
        s.store.key2Lease[key]? = some lease.id ∧
        ∃ entry, (s.store.versions key).getLast? = some entry ∧ entry.tombstone = false ∧
          entry.value = value) ∧
    (∀ d : Delivery, d.cmd.type = .leaseRevoke → ∀ key : Bytes,
      (s.server.applyLoop d).server.machine.store.versions key ≠ s.store.versions key →
        s.leaseMgr.Holds d.cmd.leaseID key ∧ s.store.key2Lease[key]? = some d.cmd.leaseID) ∧
    ∀ (p q : List Int → List Int), (∀ ids, (p ids).Perm ids) → (∀ ids, (q ids).Perm ids) →
      ∀ key, s.leaseMgr.revoke p key = s.leaseMgr.revoke q key := by
  have hc : Consistent s.server.machine := Reachable.consistent ⟨actions, s, hs, rfl⟩
  have hbound : Bound s.server.machine := Bound.nodeRun hs
  have hqueued : s.leaseMgr.Queued := LeaseManager.Queued.nodeRun hs
  refine ⟨hc.single, ?_, ?_, ?_⟩
  · intro id lease key value hl hv
    have hcarries : s.leaseMgr.Carries id key value := ⟨lease, hl, hv⟩
    rw [hqueued.named id lease hl]
    exact ⟨hc.bound id key hcarries.holds, KVStore.current_eq_some.mp (hbound.carried id key value hcarries)⟩
  · intro d ht key hchanged
    have happ := Server.applyLoop_appends hc d
    have hsome : ∃ entry, (key, entry) ∈ s.server.appended d := by
      by_contra hnone
      apply hchanged
      have hempty : Versions.ofKey (s.server.appended d) key = [] := by
        rw [List.eq_nil_iff_forall_not_mem]
        intro entry hentry
        exact hnone ⟨entry, Versions.mem_ofKey.mp hentry⟩
      rw [happ.grown, hempty, List.append_nil]
      rfl
    obtain ⟨entry, hentry⟩ := hsome
    have hholds := revoked_keys ht hentry
    exact ⟨hholds, hc.bound _ key hholds⟩
  · intro p q hp hq key
    exact LeaseManager.revoke_order hc.single hp hq key

def granting (expireAt : Int) : Action :=
  .deliver ⟨Env.at 0, {Command.ofType .leaseGrant with expireAt := expireAt}, none⟩

/-- A put under a lease. -/
def puttingUnder (leaseID : Int) (key value : Bytes) : Action :=
  .deliver ⟨Env.at 0, {Command.ofType .put with key := key, value := value, leaseID := leaseID}, none⟩

/-- A key under a lease that was granted before. -/
theorem lease_keys_bound_one :
    ∃ s, run step boot [granting 5, puttingUnder 1 [97] [1]] = some s ∧
      (∃ lease, s.leaseMgr.leases[(1 : Int)]? = some lease ∧ lease.keys[([97] : Bytes)]? = some [1]) ∧
      ∃ entry, (s.store.versions [97]).getLast? = some entry ∧ entry.tombstone = false ∧
        entry.value = [1] := by
  refine ⟨_, rfl, ⟨_, rfl, rfl⟩, ?_⟩
  obtain ⟨_, hkeys, _⟩ := lease_keys_bound [granting 5, puttingUnder 1 [97] [1]] _ rfl
  exact (hkeys 1 _ [97] [1] rfl rfl).2

/-! ### Keys left behind -/

/-- The action is a committed command, not a lock call. -/
def Action.committed : Action → Bool
  | .deliver _ => true
  | _ => false

end Node

namespace LeaseManager

/-- A lease stays if it is not the one that is removed. -/
theorem closed_present {action : Node.Action} {L : Int}
    (hnot : ∀ op : Op, op.Called action → op.removes ≠ some L) :
    Closed (Op.Called action) fun le => (le.leases[L]?).isSome := by
  intro op le le' hop h hs
  rcases step_leases hs with ⟨ttl, expireAt, rfl⟩ | ⟨_, hsame | ⟨id, hremoved, hall⟩ | ⟨id, f, _, hall⟩⟩
  · cases hs
    rw [grantUntil_leases, GoMap.get_insert]
    split
    · rfl
    · exact h
  · rw [hsame]
    exact h
  · have hne : id ≠ L := by
      rintro rfl
      rcases hremoved with hremoves | ⟨now, order, rfl⟩
      · exact hnot op hop hremoves
      · -- nobody calls it
        cases action <;> cases hop
    rw [hall, if_neg hne]
    exact h
  · rw [hall]
    split
    · rw [Option.isSome_map]
      exact h
    · exact h

end LeaseManager

namespace Node

/-- A lease goes by a revocation that names it, or by the release of a lock. -/
theorem leaves_cases {action : Action} {s t : Node} {L : Int} {lease : Lease}
    (hs : step action s = some t) (hl : s.leaseMgr.leases[L]? = some lease)
    (hgone : t.leaseMgr.leases[L]? = none) :
    (∃ d, action = .deliver d ∧ d.cmd.type = .leaseRevoke ∧ d.cmd.leaseID = L) ∨
      ∃ key ownerID, action = .release key L ownerID := by
  have hcalled : ∃ op : LeaseManager.Op, op.Called action ∧ op.removes = some L := by
    by_contra hnone
    have hkept := (LeaseManager.closed_present fun op hop hremoves => hnone ⟨op, hop, hremoves⟩).nodeStep
      (show (s.server.machine.leaseMgr.leases[L]?).isSome from Option.isSome_iff_exists.mpr ⟨lease, hl⟩) hs
    replace hgone : t.server.machine.leaseMgr.leases[L]? = none := hgone
    rw [hgone] at hkept
    cases hkept
  obtain ⟨op, hop, hremoves⟩ := hcalled
  cases op with
  | revokeLease leaseId =>
    cases hremoves
    cases action with
    | deliver d => exact Or.inl ⟨d, rfl, hop.1, hop.2.symm⟩
    | release key leaseID ownerID =>
      cases hop
      exact Or.inr ⟨key, ownerID, rfl⟩
    | _ => cases hop
  | revokeLeaseIfMatches leaseId expected =>
    cases hremoves
    cases action with
    | deliver d => exact Or.inl ⟨d, rfl, hop.1, hop.2.symm⟩
    | _ => cases hop
  | _ => cases hremoves

/-- A revocation that removes its lease deletes all keys of the lease. -/
theorem revoked_all {s : Server} (hc : Consistent s.machine) {d : Delivery} (ht : d.cmd.type = .leaseRevoke)
    {lease : Lease} (hl : s.machine.leaseMgr.leases[d.cmd.leaseID]? = some lease)
    (hgone : (s.applyLoop d).server.machine.leaseMgr.leases[d.cmd.leaseID]? = none) {key : Bytes}
    (hkey : s.machine.leaseMgr.Holds d.cmd.leaseID key) :
    ∃ rev keys, key ∈ keys ∧ s.appended d = KVStore.tombstones rev keys := by
  obtain ⟨_, _, hid, _⟩ := s.machine.fill_fields d.env.now d.cmd
  have hle := s.machine.fill_leaseMgr d.env.now d.cmd
  have hpos : (s.machine.fill d.env.now d.cmd).2.leaseID > 0 := by
    have := hc.numbered.ids _ lease hl
    rw [hid]
    omega
  rcases s.applyLoop_cases d with ⟨_, failure, heq⟩ | ⟨hopen, outcome, rfl, heq⟩
  · rw [heq] at hgone
    dsimp only at hgone
    rw [hle, hl] at hgone
    cases hgone
  · rw [heq] at hgone
    dsimp only at hgone
    rw [Machine.execute_revoke _ _ (by rw [Machine.fill_type, ht]), if_pos hpos,
      Machine.expireKeys_leaseMgr] at hgone
    dsimp only at hgone
    refine ⟨(s.machine.fill d.env.now d.cmd).1.currentRev,
      ((s.machine.fill d.env.now d.cmd).1.revokedBy (s.machine.fill d.env.now d.cmd).2).2, ?_, ?_⟩
    · rcases Machine.revokedBy_cases (s.machine.fill d.env.now d.cmd).1
        (s.machine.fill d.env.now d.cmd).2 with hkept | hrevoked
      · rw [hkept, hle, hl] at hgone
        cases hgone
      · rw [hrevoked, hle, hid]
        exact (LeaseManager.revokeLeaseLocked_keys _ _ _).mpr hkey
    · rw [Server.appended, if_pos hopen, Machine.appended, Machine.fill_type, ht]
      dsimp only
      rw [if_pos hpos]

/-- The latest version of the key is a tombstone. -/
def Tombstoned (kv : KVStore) (key : Bytes) : Prop :=
  ∃ entry, (kv.versions key).getLast? = some entry ∧ entry.tombstone = true

/-- A revocation that removes its lease leaves tombstones on the lease's keys. -/
theorem revoked_tombstoned {s : Server} (hc : Consistent s.machine) {d : Delivery}
    (ht : d.cmd.type = .leaseRevoke) {lease : Lease}
    (hl : s.machine.leaseMgr.leases[d.cmd.leaseID]? = some lease)
    (hgone : (s.applyLoop d).server.machine.leaseMgr.leases[d.cmd.leaseID]? = none) {key : Bytes}
    (hkey : s.machine.leaseMgr.Holds d.cmd.leaseID key) :
    Tombstoned (s.applyLoop d).server.machine.store key := by
  obtain ⟨rev, keys, hmem, hlog⟩ := revoked_all hc ht hl hgone hkey
  obtain ⟨entry, hlast, hdead⟩ := KVStore.latest_tombstones hmem rev
  refine ⟨entry, ?_, hdead⟩
  rw [(Server.applyLoop_appends hc d).last, hlog, hlast]
  rfl

theorem Tombstoned.not_live {kv : KVStore} {key : Bytes} (h : Tombstoned kv key)
    (hlive : (kv.current key).isSome) : False := by
  obtain ⟨entry, hlast, hdead⟩ := h
  rw [KVStore.current, hlast, Option.bind_some, if_pos hdead] at hlive
  cases hlive

/-- **When a lease goes, the keys bound to it go if they are among its keys and it is a
committed command that removes it**, and only then. -/
theorem leak_iff (actions : List Action) (s : Node) (hs : run step boot actions = some s)
    (action : Action) (t : Node) (ht : step action s = some t) (L : Int) (lease : Lease)
    (hl : s.leaseMgr.leases[L]? = some lease) (hgone : t.leaseMgr.leases[L]? = none) :
    (∀ key : Bytes, s.store.key2Lease[key]? = some L → Tombstoned t.store key) ↔
      ∀ key : Bytes, s.store.key2Lease[key]? = some L →
        action.committed = true ∧ (lease.keys[key]?).isSome = true := by
  have hc : Consistent s.server.machine := Reachable.consistent ⟨actions, s, hs, rfl⟩
  have hlive : ∀ key : Bytes, s.store.key2Lease[key]? = some L → (s.store.current key).isSome :=
    fun key hkey => (Bound.nodeRun hs).live key L hkey
  refine forall_congr' fun key => forall_congr' fun hkey => ?_
  rcases leaves_cases ht hl hgone with ⟨d, rfl, hrevoke, rfl⟩ | ⟨lock, ownerID, rfl⟩
  · cases ht
    have happ := Server.applyLoop_appends hc d
    constructor
    · intro hdead
      refine ⟨rfl, ?_⟩
      by_contra hnot
      -- the revocation has not touched the key
      have huntouched : KVStore.latest (s.server.appended d) key = none := by
        rw [KVStore.latest_eq_none]
        intro entry hentry
        obtain ⟨lease', hl', value, hv⟩ := revoked_keys hrevoke hentry
        replace hl : s.server.machine.leaseMgr.leases[d.cmd.leaseID]? = some lease := hl
        rw [hl] at hl'
        cases hl'
        rw [hv] at hnot
        exact hnot rfl
      refine hdead.not_live ?_
      show ((s.server.applyLoop d).server.machine.store.current key).isSome
      rw [happ.current, huntouched]
      exact hlive key hkey
    · intro hheld
      obtain ⟨value, hv⟩ := Option.isSome_iff_exists.mp hheld.2
      exact revoked_tombstoned hc hrevoke hl hgone ⟨lease, hl, value, hv⟩
  · -- releasing a lock does not touch the store
    cases ht
    constructor
    · intro hdead
      exact absurd (hlive key hkey) hdead.not_live
    · intro hheld
      cases hheld.1

def revoking (leaseID : Int) : Action :=
  .deliver ⟨Env.at 0, {Command.ofType .leaseRevoke with leaseID := leaseID}, none⟩

/-- A lease revoked with the key that was put under it. -/
theorem leak_iff_revoked :
    ∃ s t lease, run step boot [granting 5, puttingUnder 1 [97] [1]] = some s ∧
      step (revoking 1) s = some t ∧ s.leaseMgr.leases[(1 : Int)]? = some lease ∧
      t.leaseMgr.leases[(1 : Int)]? = none ∧ s.store.key2Lease[([97] : Bytes)]? = some 1 ∧
      ((∀ key : Bytes, s.store.key2Lease[key]? = some 1 → Tombstoned t.store key) ↔
        ∀ key : Bytes, s.store.key2Lease[key]? = some 1 →
          (revoking 1).committed = true ∧ (lease.keys[key]?).isSome = true) := by
  refine ⟨_, _, _, rfl, rfl, rfl, rfl, rfl, ?_⟩
  exact leak_iff [granting 5, puttingUnder 1 [97] [1]] _ rfl (revoking 1) _ rfl 1 _ rfl rfl

/-- A key put under the lease of a lock outlives the lock: releasing it removes the lease and
leaves the key. -/
theorem released_key_stays :
    ∃ s t, run step boot [.acquire 0 [108] 10 [111], puttingUnder 1 [97] [1]] = some s ∧
      step (.release [108] 1 [111]) s = some t ∧ (s.leaseMgr.leases[(1 : Int)]?).isSome = true ∧
      t.leaseMgr.leases[(1 : Int)]? = none ∧ s.store.key2Lease[([97] : Bytes)]? = some 1 ∧
      ¬Tombstoned t.store [97] := by
  refine ⟨_, _, rfl, rfl, rfl, rfl, rfl, ?_⟩
  intro hdead
  exact hdead.not_live rfl

end Node

end Wjetcd
