import Wjetcd.Lib.Utf8
import Wjetcd.Server.Apply

/-! What a snapshot keeps of a server: `Snapshot` and `Restore` of the store and of
the lease manager, and the two functions of the server that use them.

A snapshot is JSON, decoded into the structs it was written from: integers come back
as they are, and a string with every byte that is not UTF-8 replaced. Two keys of a
map that become the same leave the value of the one that sorts last. `none` is an
error, which keeps the server from starting. -/
namespace Wjetcd

/-- A map with strings for keys, written as JSON and read back. -/
def throughJson {V : Type} (f : V → V) (m : GoMap Bytes V) : GoMap Bytes V :=
  m.toList.foldl (fun read pair => read.insert (Utf8.coerce pair.1) (f pair.2)) ∅

/-! ### The store -/

structure StoreSnapshot where
  data : GoMap Bytes (List VersionEntry)
  key2Lease : GoMap Bytes Int
  currentRev : Int

namespace StoreSnapshot

def decoded (s : StoreSnapshot) : StoreSnapshot :=
  { data := throughJson (fun entries =>
      entries.map fun entry => {entry with value := Utf8.coerce entry.value}) s.data
    key2Lease := throughJson id s.key2Lease
    currentRev := s.currentRev }

/-- Every version has a revision that has been given out. -/
def valid (s : StoreSnapshot) : Bool :=
  s.data.toList.all fun pair =>
    pair.2.all fun entry => 0 < entry.revision ∧ entry.revision ≤ s.currentRev

end StoreSnapshot

namespace KVStore

def snapshot (kv : KVStore) : StoreSnapshot := ⟨kv.data, kv.key2Lease, kv.currentRev⟩

def restore (s : StoreSnapshot) : Option KVStore :=
  if s.valid then some ⟨s.data, s.key2Lease, s.currentRev⟩ else none

end KVStore

/-! ### The leases -/

structure LeaseSnapshot where
  leaseID : Int
  leases : List Lease

def LeaseSnapshot.decoded (s : LeaseSnapshot) : LeaseSnapshot :=
  {s with leases := s.leases.map fun lease => {lease with keys := throughJson Utf8.coerce lease.keys}}

namespace LeaseManager

/-- The leases in the order in which the map happens to be iterated. -/
def snapshot (order : List Int → List Int) (le : LeaseManager) : LeaseSnapshot :=
  ⟨le.leaseID, (order le.leases.keys).filterMap fun id => le.leases[id]?⟩

/-- What the loop of `Restore` builds. -/
structure Rebuilt where
  leases : GoMap Int Lease
  heap : List LeaseItem
  maxLeaseID : Int

def rebuild (built : Rebuilt) : List Lease → Option Rebuilt
  | [] => some built
  | entry :: rest =>
    if entry.id ≤ 0 ∨ entry.ttl ≤ 0 ∨ entry.expireAt ≤ 0 then none
    else if built.leases.contains entry.id then none
    else rebuild
      { leases := built.leases.insert entry.id entry
        heap := built.heap ++ [⟨entry.id, entry.expireAt⟩]
        maxLeaseID := max entry.id built.maxLeaseID } rest

/-- `for i := len(le.heap)/2 - 1; i >= 0; i-- { le.bubbleDown(i) }` -/
def heapify (heap : List LeaseItem) : List LeaseItem :=
  (List.range (heap.length / 2)).reverse.foldl (fun heap i => bubbleDown heap.length heap i) heap

def restore (s : LeaseSnapshot) : Option LeaseManager :=
  (rebuild ⟨∅, [], 0⟩ s.leases).bind fun built =>
    if s.leaseID < built.maxLeaseID then none
    else some ⟨built.leases, s.leaseID, heapify built.heap⟩

theorem restore_leaseID {s : LeaseSnapshot} {le : LeaseManager} (h : restore s = some le) :
    le.leaseID = s.leaseID := by
  obtain ⟨built, _, hbuilt⟩ := Option.bind_eq_some_iff.mp h
  split at hbuilt
  · cases hbuilt
  · cases hbuilt
    rfl

end LeaseManager

/-! ### The server -/

structure ServerSnapshot where
  store : StoreSnapshot
  leases : LeaseSnapshot
  currentRev : Int

namespace Machine

/-- What `savePersistentState` hands to the snapshot file. -/
def saved (order : List Int → List Int) (m : Machine) : ServerSnapshot :=
  ⟨m.store.snapshot, m.leaseMgr.snapshot order, m.catchUp.currentRev⟩

/-- The part of `restorePersistentState` that reads the snapshot. -/
def restored (s : ServerSnapshot) : Option Machine :=
  (KVStore.restore s.store.decoded).bind fun store =>
    (LeaseManager.restore s.leases.decoded).map fun leaseMgr =>
      ({store := store, leaseMgr := leaseMgr, currentRev := s.currentRev} : Machine).catchUp

theorem le_catchUp (m : Machine) : m.currentRev ≤ m.catchUp.currentRev := by
  unfold catchUp
  split
  · show m.currentRev ≤ m.store.currentRev
    omega
  · exact le_refl _

/-- The counters do not go back. -/
theorem restored_counters {order : List Int → List Int} {m m' : Machine}
    (h : restored (m.saved order) = some m') :
    m'.leaseMgr.leaseID = m.leaseMgr.leaseID ∧ m.currentRev ≤ m'.currentRev := by
  obtain ⟨store, _, hrest⟩ := Option.bind_eq_some_iff.mp h
  obtain ⟨leaseMgr, hleases, rfl⟩ := Option.map_eq_some_iff.mp hrest
  refine ⟨?_, m.le_catchUp.trans (le_catchUp _)⟩
  rw [catchUp_leaseMgr]
  exact LeaseManager.restore_leaseID hleases

/-- A server that has executed nothing is restored as it was. -/
theorem restored_fresh (order : List Int → List Int) :
    restored (fresh.saved order) = some fresh := by
  have hleases : fresh.leaseMgr.snapshot order = ⟨0, []⟩ := by
    simp [LeaseManager.snapshot, fresh, LeaseManager.newLeaseManager]
  unfold saved
  rw [hleases]
  rfl

end Machine
end Wjetcd
