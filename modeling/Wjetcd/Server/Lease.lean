import Wjetcd.Kv.Store
import Wjetcd.Lib.Width

/-! The lease manager of `server/server.go`.

`leases` maps an id to its lease, `heap` holds one item a lease as a binary heap
in an array, ordered by expiry. Go iterates over a map in an order it chooses
anew each time; the one loop whose result can depend on it, that of `Revoke`,
takes the order as an argument. The counter of ids is an `int64`, and wraps. -/
namespace Wjetcd

structure Lease where
  id : Int
  ttl : Int
  expireAt : Int
  keys : GoMap Bytes Bytes
deriving DecidableEq

structure LeaseItem where
  id : Int
  expireAt : Int
deriving Repr, DecidableEq

structure LeaseManager where
  leases : GoMap Int Lease
  leaseID : Int
  heap : List LeaseItem
deriving DecidableEq

namespace LeaseManager

def newLeaseManager : LeaseManager := ⟨∅, 0, []⟩

/-! ### The heap -/

def expiry (heap : List LeaseItem) (i : Nat) : Int :=
  match heap[i]? with
  | some item => item.expireAt
  | none => 0

def swap (heap : List LeaseItem) (i j : Nat) : List LeaseItem :=
  match heap[i]?, heap[j]? with
  | some a, some b => (heap.set i b).set j a
  | _, _ => heap

/-- Move an item up while it expires before its parent. An item at `i` moves at most
`i` times, which is the fuel its callers give. -/
def bubbleUp : Nat → List LeaseItem → Nat → List LeaseItem
  | 0, heap, _ => heap
  | fuel + 1, heap, i =>
    if i = 0 then heap
    else
      let parent := (i - 1) / 2
      if expiry heap i ≥ expiry heap parent then heap
      else bubbleUp fuel (swap heap i parent) parent

/-- The child, or the item itself, that expires first. -/
def smallest (heap : List LeaseItem) (i : Nat) : Nat :=
  let left := 2 * i + 1
  let right := 2 * i + 2
  let least := if left < heap.length ∧ expiry heap left < expiry heap i then left else i
  if right < heap.length ∧ expiry heap right < expiry heap least then right else least

/-- Move an item down while a child expires before it, at most to the end of the
heap. -/
def bubbleDown : Nat → List LeaseItem → Nat → List LeaseItem
  | 0, heap, _ => heap
  | fuel + 1, heap, i =>
    let least := smallest heap i
    if least = i then heap else bubbleDown fuel (swap heap i least) least

/-- Both, after the item at `i` has changed. -/
def settle (heap : List LeaseItem) (i : Nat) : List LeaseItem :=
  bubbleUp i (bubbleDown heap.length heap i) i

/-! ### Operations -/

def grantUntil [Width] (le : LeaseManager) (ttl expireAt : Int) : LeaseManager × Int :=
  let id := wrap (le.leaseID + 1)
  let heap := le.heap ++ [⟨id, expireAt⟩]
  ({ leases := le.leases.insert id ⟨id, ttl, expireAt, ∅⟩
     leaseID := id
     heap := bubbleUp heap.length heap (heap.length - 1) }, id)

def attach (le : LeaseManager) (leaseId : Int) (key value : Bytes) : LeaseManager :=
  {le with leases := le.leases.modify leaseId fun lease =>
    {lease with keys := lease.keys.insert key value}}

/-- The first lease in the order of iteration that holds the key. -/
def holder (le : LeaseManager) (order : List Int) (key : Bytes) : Option Int :=
  order.find? fun id => le.leases[id]?.any fun lease => lease.keys.contains key

/-- Take the key out of the first lease found to hold it. -/
def revoke (le : LeaseManager) (order : List Int → List Int) (key : Bytes) : LeaseManager × Int :=
  match le.holder (order le.leases.keys) key with
  | none => (le, 0)
  | some id =>
    ({le with leases := le.leases.modify id fun lease => {lease with keys := lease.keys.erase key}}, id)

def getLease (le : LeaseManager) (leaseId : Int) : Option Lease := le.leases[leaseId]?

def keepAliveUntil (le : LeaseManager) (leaseId ttl expireAt : Int) : LeaseManager × Bool :=
  match le.leases[leaseId]? with
  | none => (le, false)
  | some lease =>
    ({le with
      leases := le.leases.insert leaseId {lease with ttl := ttl, expireAt := expireAt}
      heap :=
        match le.heap.findIdx? fun item => item.id == leaseId with
        | none => le.heap
        | some i => settle (le.heap.set i ⟨leaseId, expireAt⟩) i}, true)

/-- Take the item at `i` out: the last one takes its place. -/
def removeItem (heap : List LeaseItem) (i : Nat) : List LeaseItem :=
  let last := heap.getLast?
  let heap := (match last with | some item => heap.set i item | none => heap).dropLast
  if i < heap.length then settle heap i else heap

/-- Remove a lease; its keys are returned in ascending order. -/
def revokeLeaseLocked (le : LeaseManager) (leaseId : Int) : LeaseManager × List Bytes :=
  match le.leases[leaseId]? with
  | none => (le, [])
  | some lease =>
    ({le with
      leases := le.leases.erase leaseId
      heap :=
        match le.heap.findIdx? fun item => item.id == leaseId with
        | none => le.heap
        | some i => removeItem le.heap i}, lease.keys.keys)

def revokeLease (le : LeaseManager) (leaseId : Int) : LeaseManager × List Bytes :=
  le.revokeLeaseLocked leaseId

/-- Remove a lease if it still expires when the caller saw it expire. -/
def revokeLeaseIfMatches (le : LeaseManager) (leaseId expectedExpireAt : Int) :
    LeaseManager × List Bytes :=
  match le.leases[leaseId]? with
  | none => (le, [])
  | some lease =>
    if lease.expireAt ≠ expectedExpireAt then (le, []) else le.revokeLeaseLocked leaseId

def getExpiringLease (le : LeaseManager) : Option LeaseItem := le.heap[0]?

/-- Remove the lease that expires first, if it has expired. Its keys come in the order in
which the map is iterated. -/
def removeExpiredLease (le : LeaseManager) (now : Int) (order : List Bytes → List Bytes) :
    LeaseManager × List Bytes × Int :=
  match le.heap[0]? with
  | none => (le, [], 0)
  | some item =>
    if item.expireAt > now then (le, [], 0)
    else
      match le.leases[item.id]? with
      | none => (le, [], 0)
      | some lease =>
        let heap := (match le.heap.getLast? with
          | some last => le.heap.set 0 last
          | none => le.heap).dropLast
        ({le with
          leases := le.leases.erase item.id
          heap := if heap.length > 0 then bubbleDown heap.length heap 0 else heap},
          order lease.keys.keys, item.id)

/-! ### Who holds a key -/

/-- The key is among the keys of the lease. -/
def Holds (le : LeaseManager) (id : Int) (key : Bytes) : Prop :=
  ∃ lease, le.leases[id]? = some lease ∧ ∃ value, lease.keys[key]? = some value

/-- No key is in two leases. -/
def Single (le : LeaseManager) : Prop :=
  ∀ key i j, le.Holds i key → le.Holds j key → i = j

theorem holder_some {le : LeaseManager} {order : List Int} {key : Bytes} {id : Int}
    (h : le.holder order key = some id) : le.Holds id key := by
  have hany := List.find?_some h
  cases hl : le.leases[id]? with
  | none => simp [hl] at hany
  | some lease =>
    rw [hl] at hany
    have hkey : key ∈ lease.keys := by simpa using hany
    rw [Std.ExtTreeMap.mem_iff_isSome_getElem?, Option.isSome_iff_exists] at hkey
    exact ⟨lease, hl, hkey⟩

theorem holder_none {le : LeaseManager} {order : List Int} {key : Bytes}
    (horder : order.Perm le.leases.keys) (h : le.holder order key = none) (id : Int) :
    ¬le.Holds id key := by
  rintro ⟨lease, hl, hkey⟩
  have hid : id ∈ order := horder.mem_iff.mpr ((GoMap.mem_keys_iff _ _).mpr ⟨lease, hl⟩)
  have hnot := List.find?_eq_none.mp h id hid
  have hmem : key ∈ lease.keys := by
    rw [Std.ExtTreeMap.mem_iff_isSome_getElem?, Option.isSome_iff_exists]
    exact hkey
  apply hnot
  simp [hl, hmem]

/-- With no key in two leases the order of iteration does not matter. -/
theorem revoke_order {le : LeaseManager} (h : le.Single) {p q : List Int → List Int}
    (hp : ∀ ids, (p ids).Perm ids) (hq : ∀ ids, (q ids).Perm ids) (key : Bytes) :
    le.revoke p key = le.revoke q key := by
  have heq : le.holder (p le.leases.keys) key = le.holder (q le.leases.keys) key := by
    cases hi : le.holder (p le.leases.keys) key with
    | none =>
      cases hj : le.holder (q le.leases.keys) key with
      | none => rfl
      | some j => exact absurd (holder_some hj) (holder_none (hp _) hi j)
    | some i =>
      cases hj : le.holder (q le.leases.keys) key with
      | none => exact absurd (holder_some hi) (holder_none (hq _) hj i)
      | some j => rw [h key i j (holder_some hi) (holder_some hj)]
  unfold revoke
  rw [heq]

/-! ### Holders after each operation -/

/-- The key is among the keys of the lease, with this value. -/
def Carries (le : LeaseManager) (id : Int) (key value : Bytes) : Prop :=
  ∃ lease, le.leases[id]? = some lease ∧ lease.keys[key]? = some value

theorem holds_iff {le : LeaseManager} {id : Int} {key : Bytes} :
    le.Holds id key ↔ ∃ value, le.Carries id key value := by
  constructor
  · intro h
    obtain ⟨lease, hl, value, hv⟩ := h
    exact ⟨value, lease, hl, hv⟩
  · intro h
    obtain ⟨value, lease, hl, hv⟩ := h
    exact ⟨lease, hl, value, hv⟩

theorem Carries.holds {le : LeaseManager} {id : Int} {key value : Bytes} (h : le.Carries id key value) :
    le.Holds id key := holds_iff.mpr ⟨value, h⟩

theorem grantUntil_leases (le : LeaseManager) (ttl expireAt : Int) :
    (le.grantUntil ttl expireAt).1.leases =
      le.leases.insert (le.leaseID + 1) ⟨le.leaseID + 1, ttl, expireAt, ∅⟩ := rfl

theorem carries_grantUntil {le : LeaseManager} {ttl expireAt id : Int} {key value : Bytes}
    (h : (le.grantUntil ttl expireAt).1.Carries id key value) : le.Carries id key value := by
  obtain ⟨lease, hl, hv⟩ := h
  rw [grantUntil_leases, GoMap.get_insert] at hl
  split at hl
  · cases hl
    rw [Std.ExtTreeMap.getElem?_empty] at hv
    cases hv
  · exact ⟨lease, hl, hv⟩

theorem holds_grantUntil {le : LeaseManager} {ttl expireAt id : Int} {key : Bytes}
    (h : (le.grantUntil ttl expireAt).1.Holds id key) : le.Holds id key := by
  obtain ⟨value, hv⟩ := holds_iff.mp h
  exact (carries_grantUntil hv).holds

/-- A key is carried as before, or it is the one attached. -/
theorem carries_attach {le : LeaseManager} {leaseId id : Int} {key value k v : Bytes}
    (h : (le.attach leaseId key value).Carries id k v) :
    (le.Carries id k v ∧ ¬(id = leaseId ∧ k = key)) ∨ (id = leaseId ∧ k = key ∧ v = value) := by
  obtain ⟨lease, hl, hv⟩ := h
  simp only [attach, GoMap.get_modify] at hl
  split at hl
  · rename_i hid
    obtain ⟨old, hold, rfl⟩ := Option.map_eq_some_iff.mp hl
    simp only [GoMap.get_insert] at hv
    split at hv
    · rename_i hk
      cases hv
      exact Or.inr ⟨hid.symm, hk.symm, rfl⟩
    · rename_i hk
      exact Or.inl ⟨⟨old, hid ▸ hold, hv⟩, fun hsame => hk hsame.2.symm⟩
  · rename_i hid
    exact Or.inl ⟨⟨lease, hl, hv⟩, fun hsame => hid hsame.1.symm⟩

theorem holds_attach {le : LeaseManager} {leaseId id : Int} {key value k : Bytes}
    (h : (le.attach leaseId key value).Holds id k) : le.Holds id k ∨ (id = leaseId ∧ k = key) := by
  obtain ⟨v, hv⟩ := holds_iff.mp h
  rcases carries_attach hv with ⟨hold, _⟩ | ⟨hid, hk, _⟩
  · exact Or.inl hold.holds
  · exact Or.inr ⟨hid, hk⟩

/-- `Revoke` takes the key out of whatever lease had it. -/
theorem revoke_leases {le : LeaseManager} (hs : le.Single) {order : List Int → List Int}
    (ho : ∀ ids, (order ids).Perm ids) (key : Bytes) (id : Int) :
    (le.revoke order key).1.leases[id]? =
      (le.leases[id]?).map fun lease => {lease with keys := lease.keys.erase key} := by
  have hother : ¬le.Holds id key →
      le.leases[id]? = (le.leases[id]?).map fun lease => {lease with keys := lease.keys.erase key} := by
    intro hno
    cases hl : le.leases[id]? with
    | none => rfl
    | some lease =>
      have hnone : lease.keys[key]? = none := by
        by_contra hsome
        obtain ⟨value, hv⟩ := Option.ne_none_iff_exists'.mp hsome
        exact hno ⟨lease, hl, value, hv⟩
      rw [Option.map_some, GoMap.erase_absent hnone]
  unfold revoke
  cases hh : le.holder (order le.leases.keys) key with
  | none => exact hother (holder_none (ho _) hh id)
  | some i =>
    simp only [GoMap.get_modify]
    split
    · rename_i hid
      rw [hid]
    · rename_i hid
      exact hother fun hholds => hid (hs key i id (holder_some hh) hholds)

/-- After `Revoke` nobody carries the key that had at most one holder. -/
theorem carries_revoke {le : LeaseManager} (hs : le.Single) {order : List Int → List Int}
    (ho : ∀ ids, (order ids).Perm ids) {id : Int} {key k v : Bytes}
    (h : (le.revoke order key).1.Carries id k v) : le.Carries id k v ∧ k ≠ key := by
  obtain ⟨lease, hl, hv⟩ := h
  rw [revoke_leases hs ho] at hl
  obtain ⟨old, hold, rfl⟩ := Option.map_eq_some_iff.mp hl
  simp only [GoMap.get_erase] at hv
  split at hv
  · cases hv
  · rename_i hk
    exact ⟨⟨old, hold, hv⟩, Ne.symm hk⟩

theorem holds_revoke {le : LeaseManager} (hs : le.Single) {order : List Int → List Int}
    (ho : ∀ ids, (order ids).Perm ids) {id : Int} {key k : Bytes}
    (h : (le.revoke order key).1.Holds id k) : le.Holds id k ∧ k ≠ key := by
  obtain ⟨v, hv⟩ := holds_iff.mp h
  obtain ⟨hold, hne⟩ := carries_revoke hs ho hv
  exact ⟨hold.holds, hne⟩

theorem keepAliveUntil_leases (le : LeaseManager) (leaseId ttl expireAt id : Int) :
    (le.keepAliveUntil leaseId ttl expireAt).1.leases[id]? =
      if leaseId = id then (le.leases[id]?).map fun lease => {lease with ttl := ttl, expireAt := expireAt}
      else le.leases[id]? := by
  unfold keepAliveUntil
  cases hl : le.leases[leaseId]? with
  | none =>
    by_cases hid : leaseId = id
    · rw [if_pos hid, ← hid, hl]
      rfl
    · rw [if_neg hid]
  | some lease =>
    simp only [GoMap.get_insert]
    by_cases hid : leaseId = id
    · rw [if_pos hid, if_pos hid, ← hid, hl]
      rfl
    · rw [if_neg hid, if_neg hid]

theorem carries_keepAliveUntil {le : LeaseManager} {leaseId ttl expireAt id : Int} {key value : Bytes}
    (h : (le.keepAliveUntil leaseId ttl expireAt).1.Carries id key value) : le.Carries id key value := by
  obtain ⟨lease, hl, hv⟩ := h
  rw [keepAliveUntil_leases] at hl
  split at hl
  · obtain ⟨old, hold, rfl⟩ := Option.map_eq_some_iff.mp hl
    exact ⟨old, hold, hv⟩
  · exact ⟨lease, hl, hv⟩

theorem holds_keepAliveUntil {le : LeaseManager} {leaseId ttl expireAt id : Int} {key : Bytes}
    (h : (le.keepAliveUntil leaseId ttl expireAt).1.Holds id key) : le.Holds id key := by
  obtain ⟨value, hv⟩ := holds_iff.mp h
  exact (carries_keepAliveUntil hv).holds

/-- A removed lease is the only one that goes. -/
theorem revokeLeaseLocked_leases (le : LeaseManager) (leaseId id : Int) :
    (le.revokeLeaseLocked leaseId).1.leases[id]? = if leaseId = id then none else le.leases[id]? := by
  unfold revokeLeaseLocked
  cases hl : le.leases[leaseId]? with
  | none =>
    by_cases hid : leaseId = id
    · rw [if_pos hid, ← hid]
      exact hl
    · rw [if_neg hid]
  | some lease => exact GoMap.get_erase _ _ _

theorem revokeLeaseLocked_erase (le : LeaseManager) (leaseId : Int) :
    (le.revokeLeaseLocked leaseId).1.leases = le.leases.erase leaseId := by
  refine Std.ExtTreeMap.ext_getElem? ?_
  intro id
  rw [GoMap.get_erase, revokeLeaseLocked_leases]

theorem carries_revokeLeaseLocked {le : LeaseManager} {leaseId id : Int} {key value : Bytes}
    (h : (le.revokeLeaseLocked leaseId).1.Carries id key value) :
    le.Carries id key value ∧ id ≠ leaseId := by
  obtain ⟨lease, hl, hv⟩ := h
  rw [revokeLeaseLocked_leases] at hl
  split at hl
  · cases hl
  · rename_i hid
    exact ⟨⟨lease, hl, hv⟩, Ne.symm hid⟩

theorem holds_revokeLeaseLocked {le : LeaseManager} {leaseId id : Int} {key : Bytes}
    (h : (le.revokeLeaseLocked leaseId).1.Holds id key) : le.Holds id key ∧ id ≠ leaseId := by
  obtain ⟨value, hv⟩ := holds_iff.mp h
  obtain ⟨hold, hne⟩ := carries_revokeLeaseLocked hv
  exact ⟨hold.holds, hne⟩

/-- The keys returned are those of the removed lease. -/
theorem revokeLeaseLocked_keys (le : LeaseManager) (leaseId : Int) (key : Bytes) :
    key ∈ (le.revokeLeaseLocked leaseId).2 ↔ le.Holds leaseId key := by
  unfold revokeLeaseLocked Holds
  cases hl : le.leases[leaseId]? with
  | none => simp
  | some lease =>
    constructor
    · intro h
      exact ⟨lease, rfl, (GoMap.mem_keys_iff _ _).mp h⟩
    · intro h
      obtain ⟨lease', heq, hv⟩ := h
      cases heq
      exact (GoMap.mem_keys_iff _ _).mpr hv

/-- The checked removal removes or does nothing. -/
theorem revokeLeaseIfMatches_cases (le : LeaseManager) (leaseId expected : Int) :
    le.revokeLeaseIfMatches leaseId expected = (le, []) ∨
      le.revokeLeaseIfMatches leaseId expected = le.revokeLeaseLocked leaseId := by
  unfold revokeLeaseIfMatches
  split
  · exact Or.inl rfl
  · split
    · exact Or.inl rfl
    · exact Or.inr rfl

end LeaseManager
end Wjetcd
