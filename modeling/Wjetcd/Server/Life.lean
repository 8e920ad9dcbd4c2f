import Wjetcd.Lib.Runs
import Wjetcd.Server.Lock

/-! A server's life: committed commands and lock calls, in any order.

`Reachable` is the states a fresh server gets to. `Consistent` is what holds in all of
them: the server's revision counter is never behind the store's, lease ids are
positive, versions carry positive revisions, and a key that a lease holds is bound to that
lease in `key2Lease`. The last gives `Single`, that no key is in two leases, which is
why `Revoke` may stop at the first lease it finds. -/
namespace Wjetcd
open Runs

structure Node where
  server : Server
  locks : GoMap Bytes LockInfo

namespace Node

def boot : Node := ⟨Server.fresh, ∅⟩

/-- The lock manager over the server's leases. -/
def lockMgr (s : Node) : LockManager := ⟨s.locks, s.server.machine.leaseMgr⟩

/-- The server with what a lock call left. -/
def withLocks (s : Node) (lm : LockManager) : Node :=
  ⟨{s.server with machine := {s.server.machine with leaseMgr := lm.leaseMgr}}, lm.locks⟩

/-- `renew` may come at any time after the check it belongs to, so it is an action of
its own, for any lease. -/
inductive Action where
  | deliver (d : Delivery)
  | acquire (now : Nat) (key : Bytes) (ttl : Int) (ownerID : Bytes)
  | release (key : Bytes) (leaseID : Int) (ownerID : Bytes)
  | renew (now : Nat) (leaseID ttl : Int)
  | getLockStatus (key : Bytes)

def step (action : Action) (s : Node) : Option Node :=
  match action with
  | .deliver d => some {s with server := (s.server.applyLoop d).server}
  | .acquire now key ttl ownerID => some (s.withLocks (s.lockMgr.acquire now key ttl ownerID).1)
  | .release key leaseID ownerID => some (s.withLocks (s.lockMgr.release key leaseID ownerID).1)
  | .renew now leaseID ttl => some (s.withLocks (s.lockMgr.renew now leaseID ttl).1)
  | .getLockStatus key => some (s.withLocks (s.lockMgr.getLockStatus key).1)

end Node

/-- The server states of a fresh node's runs. -/
def Reachable (s : Server) : Prop :=
  ∃ actions node, run Node.step Node.boot actions = some node ∧ node.server = s

/-! ### The store's part -/

namespace KVStore

/-- Every version has a positive revision. -/
def Positive (kv : KVStore) : Prop :=
  ∀ (key : Bytes) (entries : List VersionEntry), kv.data[key]? = some entries →
    ∀ entry ∈ entries, 1 ≤ entry.revision

theorem Positive.versions {kv : KVStore} (h : kv.Positive) {key : Bytes} {entry : VersionEntry}
    (he : entry ∈ kv.versions key) : 1 ≤ entry.revision := by
  unfold KVStore.versions at he
  cases hd : kv.data[key]? with
  | none => simp [hd] at he
  | some entries =>
    rw [hd] at he
    exact h key entries hd entry he

theorem Positive.record {kv : KVStore} (h : kv.Positive) {key : Bytes} {entry : VersionEntry}
    (he : 1 ≤ entry.revision) : (kv.record key entry).Positive := by
  intro k entries hk e hmem
  simp only [KVStore.record, GoMap.get_insert] at hk
  split at hk
  · cases hk
    rcases List.mem_append.mp hmem with hold | hnew
    · exact h.versions hold
    · rw [List.mem_singleton.mp hnew]
      exact he
  · exact h k entries hk e hmem

theorem Positive.write {kv : KVStore} (h : kv.Positive) {revision : Int} (hr : 1 ≤ revision)
    (key value : Bytes) (tombstone : Bool) : (kv.write key revision value tombstone).Positive := by
  unfold KVStore.write stamp
  rw [if_neg (by omega)]
  split
  · have h' : KVStore.Positive {kv with currentRev := revision} := h
    exact h'.record hr
  · exact Positive.record h hr

theorem Positive.deleteKey {kv : KVStore} (h : kv.Positive) (hr : 0 ≤ kv.currentRev) (key : Bytes) :
    (kv.deleteKey key).Positive := by
  have h' : KVStore.Positive {kv with currentRev := kv.currentRev + 1} := h
  have hrec : KVStore.Positive (KVStore.record {kv with currentRev := kv.currentRev + 1} key
      ⟨kv.currentRev + 1, [], true⟩) := h'.record (by show 1 ≤ kv.currentRev + 1; omega)
  exact hrec

/-- A loop over keys that deletes each: the counter moves one a key, and the keys
are bound to no lease any more. -/
theorem deleteKeys_spec (keys : List Bytes) : ∀ kv : KVStore, 0 ≤ kv.currentRev → kv.Positive →
    (keys.foldl deleteKey kv).currentRev = kv.currentRev + keys.length ∧
      (keys.foldl deleteKey kv).Positive ∧
      ∀ k, (keys.foldl deleteKey kv).key2Lease[k]? = if k ∈ keys then none else kv.key2Lease[k]? := by
  induction keys with
  | nil =>
    intro kv _ hp
    refine ⟨by simp, hp, ?_⟩
    intro k
    simp
  | cons key rest ih =>
    intro kv hr hp
    obtain ⟨hrev, hpos, hlease⟩ := ih (kv.deleteKey key)
      (by rw [deleteKey_currentRev]; omega) (hp.deleteKey hr key)
    refine ⟨?_, hpos, ?_⟩
    · rw [List.foldl_cons, hrev, deleteKey_currentRev, List.length_cons]
      omega
    · intro k
      rw [List.foldl_cons, hlease, deleteKey_key2Lease, GoMap.get_erase]
      by_cases hk : k = key
      · simp [hk]
      · have hk' : ¬key = k := Ne.symm hk
        simp [hk, hk']

/-- The lease a put binds its key to, or none. -/
theorem apply_put_key2Lease (kv : KVStore) {cmd : Command} (ht : cmd.type = .put) (k : Bytes) :
    (kv.apply cmd).1.key2Lease[k]? =
      if cmd.key = k then (if cmd.leaseID > 0 then some cmd.leaseID else none)
      else kv.key2Lease[k]? := by
  simp only [apply, ht]
  split
  · simp [setKeyLease]
  · simp

theorem apply_delete_key2Lease (kv : KVStore) {cmd : Command} (ht : cmd.type = .delete) (k : Bytes) :
    (kv.apply cmd).1.key2Lease[k]? = if cmd.key = k then none else kv.key2Lease[k]? := by
  simp only [apply, ht]
  simp

theorem apply_cas_key2Lease (kv : KVStore) {cmd : Command} (ht : cmd.type = .cas) :
    (kv.apply cmd).1.key2Lease = kv.key2Lease := by
  simp only [apply, ht]
  split
  · exact write_key2Lease ..
  · rfl

/-- A put, delete or compare-and-swap at a positive revision keeps versions positive,
and the counter between where it was and that revision. -/
theorem apply_write {kv : KVStore} {cmd : Command}
    (ht : cmd.type = .put ∨ cmd.type = .delete ∨ cmd.type = .cas) (hr : 1 ≤ cmd.revision)
    (hp : kv.Positive) :
    (kv.apply cmd).1.Positive ∧ kv.currentRev ≤ (kv.apply cmd).1.currentRev ∧
      (kv.apply cmd).1.currentRev ≤ max kv.currentRev cmd.revision := by
  have hne : cmd.revision ≠ 0 := by omega
  have hmax : kv.currentRev ≤ max kv.currentRev cmd.revision := le_max_left _ _
  rcases ht with ht | ht | ht
  · have hw := hp.write hr cmd.key cmd.value false
    have hrev := kv.write_currentRev hne cmd.key cmd.value false
    simp only [apply, ht]
    split
    · exact ⟨hw, hmax.trans hrev.ge, hrev.le⟩
    · exact ⟨hw, hmax.trans hrev.ge, hrev.le⟩
  · have hrev := kv.write_currentRev hne cmd.key [] true
    simp only [apply, ht]
    exact ⟨hp.write hr cmd.key [] true, hmax.trans hrev.ge, hrev.le⟩
  · have hrev := kv.write_currentRev hne cmd.key cmd.value false
    simp only [apply, ht]
    split
    · exact ⟨hp.write hr cmd.key cmd.value false, hmax.trans hrev.ge, hrev.le⟩
    · exact ⟨hp, le_refl _, hmax⟩

end KVStore

/-! ### The lease manager's part -/

namespace LeaseManager

/-- Ids are positive and the counter is not negative. -/
structure Numbered (le : LeaseManager) : Prop where
  granted : 0 ≤ le.leaseID
  ids : ∀ (id : Int) (lease : Lease), le.leases[id]? = some lease → 1 ≤ id

theorem Numbered.modify {le : LeaseManager} (h : le.Numbered) (id : Int) (f : Lease → Lease) :
    Numbered {le with leases := le.leases.modify id f} := by
  refine ⟨h.granted, ?_⟩
  intro i lease hi
  simp only [GoMap.get_modify] at hi
  split at hi
  · rename_i heq
    obtain ⟨old, hold, _⟩ := Option.map_eq_some_iff.mp hi
    exact heq ▸ h.ids id old hold
  · exact h.ids i lease hi

theorem Numbered.attach {le : LeaseManager} (h : le.Numbered) (id : Int) (key value : Bytes) :
    (le.attach id key value).Numbered := h.modify id _

theorem Numbered.revoke {le : LeaseManager} (h : le.Numbered) (order : List Int → List Int)
    (key : Bytes) : (le.revoke order key).1.Numbered := by
  unfold LeaseManager.revoke
  split
  · exact h
  · exact h.modify _ _

theorem Numbered.grantUntil {le : LeaseManager} (h : le.Numbered) (ttl expireAt : Int) :
    (le.grantUntil ttl expireAt).1.Numbered := by
  have hg := h.granted
  refine ⟨?_, ?_⟩
  · show 0 ≤ le.leaseID + 1
    omega
  · intro i lease hi
    rw [grantUntil_leases, GoMap.get_insert] at hi
    split at hi
    · omega
    · exact h.ids i lease hi

theorem Numbered.keepAliveUntil {le : LeaseManager} (h : le.Numbered) (id ttl expireAt : Int) :
    (le.keepAliveUntil id ttl expireAt).1.Numbered := by
  unfold LeaseManager.keepAliveUntil
  cases hl : le.leases[id]? with
  | none => exact h
  | some lease =>
    refine ⟨h.granted, ?_⟩
    intro i lease' hi
    simp only [GoMap.get_insert] at hi
    split at hi
    · rename_i heq
      exact heq ▸ h.ids id lease hl
    · exact h.ids i lease' hi

theorem Numbered.revokeLeaseLocked {le : LeaseManager} (h : le.Numbered) (id : Int) :
    (le.revokeLeaseLocked id).1.Numbered := by
  unfold LeaseManager.revokeLeaseLocked
  cases hl : le.leases[id]? with
  | none => exact h
  | some lease =>
    refine ⟨h.granted, ?_⟩
    intro i lease' hi
    simp only [GoMap.get_erase] at hi
    split at hi
    · cases hi
    · exact h.ids i lease' hi

/-- The loop that takes many keys out of their leases. -/
theorem revokeAll_spec (env : Env) (keys : List Bytes) : ∀ le : LeaseManager, le.Single →
    le.Numbered → (Machine.revokeAll env le keys).Numbered ∧
      ∀ id k v, (Machine.revokeAll env le keys).Carries id k v → le.Carries id k v ∧ k ∉ keys := by
  induction keys with
  | nil =>
    intro le _ hn
    exact ⟨hn, fun id k v hk => ⟨hk, List.not_mem_nil⟩⟩
  | cons key rest ih =>
    intro le hs hn
    have hs' : (le.revoke (env.order key) key).1.Single :=
      fun k i j hi hj => hs k i j (holds_revoke hs (env.perm key) hi).1 (holds_revoke hs (env.perm key) hj).1
    obtain ⟨hn', hall⟩ := ih _ hs' (hn.revoke (env.order key) key)
    refine ⟨hn', ?_⟩
    intro id k v hk
    obtain ⟨hheld, hrest⟩ := hall id k v hk
    obtain ⟨hheld', hne⟩ := carries_revoke hs (env.perm key) hheld
    exact ⟨hheld', by simp [hne, hrest]⟩

end LeaseManager

/-! ### The invariant -/

structure Consistent (m : Machine) : Prop where
  ahead : m.store.currentRev ≤ m.currentRev
  counted : 0 ≤ m.store.currentRev
  positive : m.store.Positive
  numbered : m.leaseMgr.Numbered
  bound : ∀ id key, m.leaseMgr.Holds id key → m.store.key2Lease[key]? = some id

namespace Consistent
variable {m : Machine}

theorem single (h : Consistent m) : m.leaseMgr.Single := by
  intro key i j hi hj
  have heq := (h.bound i key hi).symm.trans (h.bound j key hj)
  exact Option.some.inj heq

theorem fresh : Consistent Machine.fresh where
  ahead := le_refl _
  counted := le_refl _
  positive := by
    intro key entries h
    simp [Machine.fresh, KVStore.newKVStore] at h
  numbered := by
    refine ⟨le_refl _, ?_⟩
    intro id lease h
    simp [Machine.fresh, LeaseManager.newLeaseManager] at h
  bound := by
    rintro id key ⟨lease, h, _⟩
    simp [Machine.fresh, LeaseManager.newLeaseManager] at h

end Consistent

/-! ### One command -/

namespace Machine

/-- The lease and the keys that `LeaseRevoke` removes. -/
def revokedBy (m : Machine) (cmd : Command) : LeaseManager × List Bytes :=
  if cmd.expireAt > 0 then m.leaseMgr.revokeLeaseIfMatches cmd.leaseID cmd.expireAt
  else m.leaseMgr.revokeLease cmd.leaseID

/-- A revocation removes the lease, or does nothing. -/
theorem revokedBy_cases (m : Machine) (cmd : Command) :
    m.revokedBy cmd = (m.leaseMgr, []) ∨ m.revokedBy cmd = m.leaseMgr.revokeLeaseLocked cmd.leaseID := by
  unfold revokedBy
  split
  · exact LeaseManager.revokeLeaseIfMatches_cases _ _ _
  · exact Or.inr rfl

theorem execute_revoke (m : Machine) (env : Env) {cmd : Command} (ht : cmd.type = .leaseRevoke) :
    (m.execute env cmd).machine =
      if cmd.leaseID > 0 then (expireKeys {m with leaseMgr := (m.revokedBy cmd).1} (m.revokedBy cmd).2).1
      else m := by
  simp only [execute, ht]
  split <;> rfl

/-- Deleting the keys of a revoked lease, each at the next revision. -/
theorem expireKeys_spec (keys : List Bytes) : ∀ m : Machine, 0 ≤ m.store.currentRev →
    m.store.currentRev ≤ m.currentRev → m.store.Positive →
    (expireKeys m keys).1.leaseMgr = m.leaseMgr ∧ 0 ≤ (expireKeys m keys).1.store.currentRev ∧
      (expireKeys m keys).1.store.currentRev ≤ (expireKeys m keys).1.currentRev ∧
      (expireKeys m keys).1.store.Positive ∧
      ∀ k, (expireKeys m keys).1.store.key2Lease[k]? =
        if k ∈ keys then none else m.store.key2Lease[k]? := by
  induction keys with
  | nil =>
    intro m hc ha hp
    exact ⟨rfl, hc, ha, hp, fun k => by simp [expireKeys]⟩
  | cons key rest ih =>
    intro m hc ha hp
    obtain ⟨hpos, hlow, hhigh⟩ := @KVStore.apply_write m.store
      (deleteCmd key (m.currentRev + 1)) (Or.inr (Or.inl rfl))
      (show 1 ≤ m.currentRev + 1 by omega) hp
    have hrev : (deleteCmd key (m.currentRev + 1)).revision = m.currentRev + 1 := rfl
    rw [hrev] at hhigh
    obtain ⟨hle, hc', ha', hp', hkeys⟩ := ih
      {m with currentRev := m.currentRev + 1,
              store := (m.store.apply (deleteCmd key (m.currentRev + 1))).1}
      (hc.trans hlow) (hhigh.trans (by show max _ _ ≤ m.currentRev + 1; omega)) hpos
    refine ⟨hle, hc', ha', hp', ?_⟩
    intro k
    rw [expireKeys, hkeys, KVStore.apply_delete_key2Lease _ rfl]
    show (if k ∈ rest then none else if key = k then none else m.store.key2Lease[k]?) = _
    by_cases hk : k = key
    · simp [hk]
    · have hk' : ¬key = k := Ne.symm hk
      simp [hk, hk']

end Machine

namespace Consistent
variable {m : Machine}

theorem catchUp (h : Consistent m) : m.catchUp = m := by
  have := h.ahead
  unfold Machine.catchUp
  rw [if_neg (by omega)]

/-- Fewer keys held, and the same store. -/
theorem withLeases (h : Consistent m) {le : LeaseManager} (hn : le.Numbered)
    (hh : ∀ id k, le.Holds id k → m.leaseMgr.Holds id k) : Consistent {m with leaseMgr := le} :=
  {h with
    numbered := hn
    bound := fun id k hk => h.bound id k (hh id k hk)}

/-- A write of one key, whose holders are settled by the writer. -/
theorem written (h : Consistent m) {store : KVStore} {le : LeaseManager} (key : Bytes)
    (hpos : store.Positive) (hlow : m.store.currentRev ≤ store.currentRev)
    (hhigh : store.currentRev ≤ m.currentRev) (hn : le.Numbered)
    (hother : ∀ k, k ≠ key → store.key2Lease[k]? = m.store.key2Lease[k]?)
    (hheld : ∀ id k, le.Holds id k → (m.leaseMgr.Holds id k ∧ k ≠ key) ∨
      (k = key ∧ store.key2Lease[key]? = some id)) :
    Consistent {m with store := store, leaseMgr := le} where
  ahead := hhigh
  counted := h.counted.trans hlow
  positive := hpos
  numbered := hn
  bound := by
    intro id k hk
    rcases hheld id k hk with ⟨hold, hne⟩ | ⟨rfl, hnew⟩
    · show store.key2Lease[k]? = some id
      rw [hother k hne]
      exact h.bound id k hold
    · exact hnew

/-- Take the key from its lease, write it, and attach it to the lease it names. -/
theorem rebound (h : Consistent m) (env : Env) {cmd : Command} {store : KVStore}
    (hpos : store.Positive) (hlow : m.store.currentRev ≤ store.currentRev)
    (hhigh : store.currentRev ≤ m.currentRev)
    (hother : ∀ k, k ≠ cmd.key → store.key2Lease[k]? = m.store.key2Lease[k]?)
    (hkey : store.key2Lease[cmd.key]? = some cmd.leaseID) :
    Consistent {m with
      store := store
      leaseMgr := (m.leaseMgr.revoke (env.order cmd.key) cmd.key).1.attach
        cmd.leaseID cmd.key cmd.value} := by
  refine h.written cmd.key hpos hlow hhigh ((h.numbered.revoke _ _).attach _ _ _) hother ?_
  intro id k hk
  rcases LeaseManager.holds_attach hk with hold | ⟨rfl, rfl⟩
  · exact Or.inl (LeaseManager.holds_revoke h.single (env.perm cmd.key) hold)
  · exact Or.inr ⟨rfl, hkey⟩

/-- Removing a lease and then deleting the keys it held. -/
theorem revoked (h : Consistent m) (cmd : Command) :
    Consistent (Machine.expireKeys {m with leaseMgr := (m.revokedBy cmd).1} (m.revokedBy cmd).2).1 := by
  rcases m.revokedBy_cases cmd with heq | heq
  · rw [heq]
    exact h
  · rw [heq]
    obtain ⟨hle, hc, ha, hp, hkeys⟩ := Machine.expireKeys_spec
      (m.leaseMgr.revokeLeaseLocked cmd.leaseID).2
      {m with leaseMgr := (m.leaseMgr.revokeLeaseLocked cmd.leaseID).1} h.counted h.ahead h.positive
    refine ⟨ha, hc, hp, hle ▸ h.numbered.revokeLeaseLocked _, ?_⟩
    intro id k hk
    rw [hle] at hk
    obtain ⟨hold, hne⟩ := LeaseManager.holds_revokeLeaseLocked hk
    rw [hkeys, if_neg]
    · exact h.bound id k hold
    · intro hmem
      exact hne (h.single k id cmd.leaseID hold ((m.leaseMgr.revokeLeaseLocked_keys _ k).mp hmem))

theorem prefixDeleted (h : Consistent m) (env : Env) (keyPrefix : Bytes) :
    Consistent (Machine.catchUp {m with
      store := (m.store.deletePrefix keyPrefix).1
      leaseMgr := Machine.revokeAll env m.leaseMgr (m.store.deletePrefix keyPrefix).2}) := by
  obtain ⟨hrev, hpos, hlease⟩ := KVStore.deleteKeys_spec (m.store.deletePrefix keyPrefix).2 m.store
    h.counted h.positive
  obtain ⟨hn, hheld⟩ := LeaseManager.revokeAll_spec env (m.store.deletePrefix keyPrefix).2
    m.leaseMgr h.single h.numbered
  have hstore : (m.store.deletePrefix keyPrefix).1 =
      (m.store.deletePrefix keyPrefix).2.foldl KVStore.deleteKey m.store := rfl
  have hcounted : 0 ≤ (m.store.deletePrefix keyPrefix).1.currentRev := by
    have := h.counted
    rw [hstore, hrev]
    omega
  have hbound : ∀ id k, (Machine.revokeAll env m.leaseMgr (m.store.deletePrefix keyPrefix).2).Holds id k →
      (m.store.deletePrefix keyPrefix).1.key2Lease[k]? = some id := by
    intro id k hk
    obtain ⟨v, hv⟩ := LeaseManager.holds_iff.mp hk
    obtain ⟨hold, hnot⟩ := hheld id k v hv
    rw [hstore, hlease, if_neg hnot]
    exact h.bound id k hold.holds
  unfold Machine.catchUp
  split
  · exact ⟨le_refl _, hcounted, hpos, hn, hbound⟩
  · rename_i hle
    exact ⟨not_lt.mp hle, hcounted, hpos, hn, hbound⟩

/-- A write numbered by the apply loop keeps the store's counter behind the machine's. -/
theorem numberedWrite (h : Consistent m) {cmd : Command}
    (hrev : cmd.revision = m.currentRev ∧ 1 ≤ m.currentRev)
    (ht : cmd.type = .put ∨ cmd.type = .delete ∨ cmd.type = .cas) :
    (m.store.apply cmd).1.Positive ∧ m.store.currentRev ≤ (m.store.apply cmd).1.currentRev ∧
      (m.store.apply cmd).1.currentRev ≤ m.currentRev := by
  have ha := h.ahead
  obtain ⟨hr, hr1⟩ := hrev
  obtain ⟨hpos, hlow, hhigh⟩ := KVStore.apply_write ht (hr ▸ hr1) h.positive
  refine ⟨hpos, hlow, ?_⟩
  rw [hr] at hhigh
  omega

theorem executeDefault (h : Consistent m) (env : Env) {cmd : Command}
    (hrev : cmd.type.writes = true → cmd.revision = m.currentRev ∧ 1 ≤ m.currentRev)
    (ht : cmd.type = .put ∨ cmd.type = .delete ∨ ∃ n hn, cmd.type = .other n hn) :
    Consistent (m.executeDefault env cmd).machine := by
  rcases ht with ht | ht | ⟨n, hn, ht⟩
  · obtain ⟨hpos, hlow, hhigh⟩ := h.numberedWrite (hrev (by rw [ht]; rfl)) (Or.inl ht)
    have hlease := fun k => m.store.apply_put_key2Lease ht k
    by_cases hid : cmd.leaseID > 0
    · simp only [Machine.executeDefault, ht, hid, and_self, if_true, true_or]
      refine h.rebound env ?_ ?_ ?_ ?_ ?_
      · exact hpos
      · exact hlow
      · exact hhigh
      · intro k hk
        simp only [KVStore.setKeyLease, GoMap.get_insert, hlease, if_neg (Ne.symm hk)]
      · simp [KVStore.setKeyLease]
    · simp only [Machine.executeDefault, ht, hid, false_and, if_true, if_false, true_or]
      refine h.written cmd.key hpos hlow hhigh (h.numbered.revoke _ _) ?_ ?_
      · intro k hk
        rw [hlease, if_neg (Ne.symm hk)]
      · intro id k hk
        exact Or.inl (LeaseManager.holds_revoke h.single (env.perm cmd.key) hk)
  · obtain ⟨hpos, hlow, hhigh⟩ := h.numberedWrite (hrev (by rw [ht]; rfl)) (Or.inr (Or.inl ht))
    simp only [Machine.executeDefault, ht, if_true, or_true, reduceCtorEq, and_false, if_false]
    refine h.written cmd.key hpos hlow hhigh (h.numbered.revoke _ _) ?_ ?_
    · intro k hk
      rw [m.store.apply_delete_key2Lease ht, if_neg (Ne.symm hk)]
    · intro id k hk
      exact Or.inl (LeaseManager.holds_revoke h.single (env.perm cmd.key) hk)
  · -- an unknown type changes nothing
    have happly : (m.store.apply cmd).1 = m.store := by simp only [KVStore.apply, ht]
    simp only [Machine.executeDefault, ht, happly, reduceCtorEq, or_self, and_false, if_false]
    exact h

/-- `LeaseAttach` binds the key and then writes it as a put does. -/
theorem executeAttach (h : Consistent m) (env : Env) {cmd : Command}
    (hrev : cmd.revision = m.currentRev ∧ 1 ≤ m.currentRev) (ht : cmd.type = .leaseAttach) :
    Consistent (m.execute env cmd).machine := by
  have ha := h.ahead
  simp only [Machine.execute, ht]
  split
  · rename_i hid
    have hbound : (m.store.setKeyLease cmd.key cmd.leaseID).Positive := h.positive
    obtain ⟨hpos, hlow, hhigh⟩ := @KVStore.apply_write (m.store.setKeyLease cmd.key cmd.leaseID)
      {cmd with type := .put} (Or.inl rfl) (show 1 ≤ cmd.revision by omega) hbound
    have hlease := fun k => (m.store.setKeyLease cmd.key cmd.leaseID).apply_put_key2Lease
      (show ({cmd with type := .put} : Command).type = .put from rfl) k
    refine h.rebound env hpos hlow ?_ ?_ ?_
    · refine hhigh.trans ?_
      show max m.store.currentRev cmd.revision ≤ m.currentRev
      omega
    · intro k hk
      rw [hlease]
      simp only [if_neg (Ne.symm hk), KVStore.setKeyLease, GoMap.get_insert]
    · rw [hlease]
      simp [hid]
  · exact h

/-- `CAS` leaves the bindings of the store alone, and puts the key back under its own. -/
theorem executeCAS (h : Consistent m) (env : Env) {cmd : Command}
    (hrev : cmd.revision = m.currentRev ∧ 1 ≤ m.currentRev) (ht : cmd.type = .cas) :
    Consistent (m.execute env cmd).machine := by
  obtain ⟨hpos, hlow, hhigh⟩ := h.numberedWrite hrev (Or.inr (Or.inr ht))
  have hlease := m.store.apply_cas_key2Lease ht
  have hsame : Consistent {m with store := (m.store.apply cmd).1} :=
    { ahead := hhigh
      counted := h.counted.trans hlow
      positive := hpos
      numbered := h.numbered
      bound := fun id k hk => by
        show (m.store.apply cmd).1.key2Lease[k]? = some id
        rw [hlease]
        exact h.bound id k hk }
  simp only [Machine.execute, ht]
  split
  · split
    · -- the key goes back to the lease it is bound to
      rename_i hid
      refine {hsame with numbered := h.numbered.attach _ _ _, bound := ?_}
      intro id k hk
      rcases LeaseManager.holds_attach hk with hold | ⟨rfl, rfl⟩
      · exact hsame.bound id k hold
      · show (m.store.apply cmd).1.key2Lease[cmd.key]? = _
        rw [hlease]
        unfold KVStore.getKeyLease at hid ⊢
        cases hb : m.store.key2Lease[cmd.key]? with
        | none => simp [hb] at hid
        | some id => rfl
    · exact hsame
  · exact hsame

/-- The invariant survives the switch of the apply loop. -/
theorem execute (h : Consistent m) (env : Env) {cmd : Command}
    (hrev : cmd.type.writes = true → cmd.revision = m.currentRev ∧ 1 ≤ m.currentRev) :
    Consistent (m.execute env cmd).machine := by
  cases ht : cmd.type with
  | leaseGrant =>
    simp only [Machine.execute, ht]
    exact h.withLeases (h.numbered.grantUntil _ _) (fun id k => LeaseManager.holds_grantUntil)
  | leaseKeepAlive =>
    simp only [Machine.execute, ht]
    exact h.withLeases (h.numbered.keepAliveUntil _ _ _)
      (fun id k => LeaseManager.holds_keepAliveUntil)
  | leaseRevoke =>
    rw [Machine.execute_revoke m env ht]
    split
    · exact h.revoked cmd
    · exact h
  | leaseAttach => exact h.executeAttach env (hrev (by rw [ht]; rfl)) ht
  | cas => exact h.executeCAS env (hrev (by rw [ht]; rfl)) ht
  | deletePrefix =>
    simp only [Machine.execute, ht]
    exact h.prefixDeleted env cmd.keyPrefix
  | getPrefix =>
    simp only [Machine.execute, ht]
    exact h
  | get =>
    simp only [Machine.execute, ht]
    exact h
  | put =>
    simp only [Machine.execute, ht]
    exact h.executeDefault env hrev (Or.inl ht)
  | delete =>
    simp only [Machine.execute, ht]
    exact h.executeDefault env hrev (Or.inr (Or.inl ht))
  | other n hn =>
    simp only [Machine.execute, ht]
    exact h.executeDefault env hrev (Or.inr (Or.inr ⟨n, hn, ht⟩))

theorem fill (h : Consistent m) (now : Nat) (cmd : Command) : Consistent (m.fill now cmd).1 := by
  have ha := h.ahead
  unfold Machine.fill Machine.numbered
  split
  · exact {h with ahead := by show m.store.currentRev ≤ m.currentRev + 1; omega}
  · exact h

end Consistent

namespace Machine

@[simp] theorem timed_type (now : Nat) (cmd : Command) : (timed now cmd).type = cmd.type := by
  unfold timed
  split
  · split <;> rfl
  · rfl

@[simp] theorem timed_revision (now : Nat) (cmd : Command) :
    (timed now cmd).revision = cmd.revision := by
  unfold timed
  split
  · split <;> rfl
  · rfl

@[simp] theorem fill_type (m : Machine) (now : Nat) (cmd : Command) :
    (m.fill now cmd).2.type = cmd.type := by
  simp only [fill, timed_type]
  unfold numbered
  split <;> rfl

/-- Filling in touches the revision and the expiry only. -/
theorem fill_fields (m : Machine) (now : Nat) (cmd : Command) :
    (m.fill now cmd).2.key = cmd.key ∧ (m.fill now cmd).2.value = cmd.value ∧
      (m.fill now cmd).2.leaseID = cmd.leaseID ∧ (m.fill now cmd).2.ttl = cmd.ttl ∧
      (m.fill now cmd).2.expectedRev = cmd.expectedRev ∧
      (m.fill now cmd).2.keyPrefix = cmd.keyPrefix := by
  unfold fill timed numbered
  dsimp only
  by_cases hw : cmd.type.writes = true
  · rw [if_pos hw]
    split
    · split <;> exact ⟨rfl, rfl, rfl, rfl, rfl, rfl⟩
    · exact ⟨rfl, rfl, rfl, rfl, rfl, rfl⟩
  · rw [if_neg hw]
    split
    · split <;> exact ⟨rfl, rfl, rfl, rfl, rfl, rfl⟩
    · exact ⟨rfl, rfl, rfl, rfl, rfl, rfl⟩

/-- A journaled write carries the revision the counter has just reached. -/
theorem fill_revision {m : Machine} (h : Consistent m) (now : Nat) (cmd : Command)
    (hw : (m.fill now cmd).2.type.writes = true) :
    (m.fill now cmd).2.revision = (m.fill now cmd).1.currentRev ∧
      1 ≤ (m.fill now cmd).1.currentRev := by
  have ha := h.ahead
  have hc := h.counted
  rw [fill_type] at hw
  simp only [fill, timed_revision, numbered, hw, if_true, true_and]
  omega

end Machine

/-! ### Every state of a life -/

theorem Consistent.applyLoop {s : Server} (h : Consistent s.machine) (d : Delivery) :
    Consistent (s.applyLoop d).server.machine := by
  have hfill := h.fill d.env.now d.cmd
  rcases s.applyLoop_cases d with ⟨_, failure, heq⟩ | ⟨_, outcome, rfl, heq⟩
  · rw [heq]
    exact hfill
  · rw [heq]
    exact hfill.execute d.env (Machine.fill_revision h d.env.now d.cmd)

/-- All an action can do to the server: the loop runs, or the lease manager is left as it was
or has taken the one call that the action is about. -/
theorem Node.step_cases {action : Node.Action} {s t : Node} (hs : Node.step action s = some t) :
    (∃ d, action = .deliver d ∧ t = {s with server := (s.server.applyLoop d).server}) ∨
    ∃ le locks, t = s.withLocks ⟨locks, le⟩ ∧
      (le = s.lockMgr.leaseMgr ∨
       (∃ now key ttl ownerID, action = .acquire now key ttl ownerID ∧
         le = (s.lockMgr.leaseMgr.grant now (Machine.defaultTTL ttl)).1) ∨
       (∃ key leaseID ownerID, action = .release key leaseID ownerID ∧
         le = (s.lockMgr.leaseMgr.revokeLease leaseID).1) ∨
       ∃ now leaseID ttl, action = .renew now leaseID ttl ∧
         le = (s.lockMgr.leaseMgr.keepAlive now leaseID (Machine.defaultTTL ttl)).1) := by
  cases action with
  | deliver d =>
    cases hs
    exact Or.inl ⟨d, rfl, rfl⟩
  | acquire now key ttl ownerID =>
    cases hs
    refine Or.inr ⟨_, _, rfl, ?_⟩
    rcases s.lockMgr.acquire_leaseMgr key ownerID now ttl with heq | heq
    · exact Or.inl heq
    · exact Or.inr (Or.inl ⟨now, key, ttl, ownerID, rfl, heq⟩)
  | release key leaseID ownerID =>
    cases hs
    refine Or.inr ⟨_, _, rfl, ?_⟩
    rcases s.lockMgr.release_leaseMgr key ownerID leaseID with heq | heq
    · exact Or.inl heq
    · exact Or.inr (Or.inr (Or.inl ⟨key, leaseID, ownerID, rfl, heq⟩))
  | renew now leaseID ttl =>
    cases hs
    exact Or.inr ⟨_, _, rfl, Or.inr (Or.inr (Or.inr ⟨now, leaseID, ttl, rfl, rfl⟩))⟩
  | getLockStatus key =>
    cases hs
    exact Or.inr ⟨_, _, rfl, Or.inl (s.lockMgr.getLockStatus_leaseMgr key)⟩

theorem Node.step_consistent (action : Node.Action) (s t : Node) (h : Consistent s.server.machine)
    (hs : Node.step action s = some t) : Consistent t.server.machine := by
  rcases Node.step_cases hs with ⟨d, _, rfl⟩ | ⟨le, locks, rfl, hle⟩
  · exact h.applyLoop d
  · -- a lock call holds nothing new
    rcases hle with rfl | ⟨_, _, _, _, _, rfl⟩ | ⟨_, leaseID, _, _, rfl⟩ | ⟨_, _, _, _, rfl⟩
    · exact h
    · exact h.withLeases (h.numbered.grantUntil _ _) (fun _ _ hk => LeaseManager.holds_grantUntil hk)
    · exact h.withLeases (h.numbered.revokeLeaseLocked leaseID)
        (fun _ _ hk => (LeaseManager.holds_revokeLeaseLocked hk).1)
    · exact h.withLeases (h.numbered.keepAliveUntil _ _ _)
        (fun _ _ hk => LeaseManager.holds_keepAliveUntil hk)

theorem Reachable.fresh : Reachable Server.fresh := ⟨[], Node.boot, rfl, rfl⟩

theorem Reachable.applyLoop {s : Server} (h : Reachable s) (d : Delivery) :
    Reachable (s.applyLoop d).server := by
  obtain ⟨actions, node, hrun, rfl⟩ := h
  exact ⟨actions ++ [.deliver d], _, run_concat hrun rfl, rfl⟩

/-- **Every reachable server is consistent.** -/
theorem Reachable.consistent {s : Server} (h : Reachable s) : Consistent s.machine := by
  obtain ⟨actions, node, hrun, rfl⟩ := h
  exact run_invariant_all (P := fun s : Node => Consistent s.server.machine)
    Node.step_consistent actions Node.boot node Consistent.fresh hrun

end Wjetcd
