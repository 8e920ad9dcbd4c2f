import Wjetcd.Kv.Command

/-! The multi-version store of `kv/store.go`.

`data` keeps every version ever written under a key, oldest first, and
`key2Lease` the lease a key was last bound to. The store's own mutex is left out
here (`Server.Locking` puts it back), and so is `watchEvents`, which no function
reads or writes. -/
namespace Wjetcd

structure VersionEntry where
  revision : Int
  value : Bytes
  tombstone : Bool
deriving Repr, DecidableEq

structure KVStore where
  data : GoMap Bytes (List VersionEntry)
  key2Lease : GoMap Bytes Int
  currentRev : Int
deriving DecidableEq

namespace KVStore

def newKVStore : KVStore := ⟨∅, ∅, 0⟩

/-- The versions of a key, none if it is absent. -/
def versions (kv : KVStore) (key : Bytes) : List VersionEntry := kv.data[key]?.getD []

def setKeyLease (kv : KVStore) (key : Bytes) (leaseId : Int) : KVStore :=
  {kv with key2Lease := kv.key2Lease.insert key leaseId}

def getKeyLease (kv : KVStore) (key : Bytes) : Int := kv.key2Lease[key]?.getD 0

/-- The revision a write gets: the next one if the command has none, else the
command's own, which the counter follows upwards. -/
def stamp (kv : KVStore) (revision : Int) : KVStore × Int :=
  if revision = 0 then ({kv with currentRev := kv.currentRev + 1}, kv.currentRev + 1)
  else if revision > kv.currentRev then ({kv with currentRev := revision}, revision)
  else (kv, revision)

/-- `kv.data[key] = append(kv.data[key], entry)` -/
def record (kv : KVStore) (key : Bytes) (entry : VersionEntry) : KVStore :=
  {kv with data := kv.data.insert key (kv.versions key ++ [entry])}

/-- Stamp a new version of a key and keep it. -/
def write (kv : KVStore) (key : Bytes) (revision : Int) (value : Bytes) (tombstone : Bool) : KVStore :=
  let stamped := kv.stamp revision
  stamped.1.record key ⟨stamped.2, value, tombstone⟩

def maxInt64 : Int := 9223372036854775807

/-- The latest version not after `rev`, where 0 stands for the present. -/
def getAtRevision (kv : KVStore) (key : Bytes) (rev : Int) : Bytes × Int :=
  let rev := if rev = 0 then maxInt64 else rev
  match (kv.versions key).reverse.find? fun entry => decide (entry.revision ≤ rev) with
  | none => ([], 0)
  | some entry => if entry.tombstone then ([], entry.revision) else (entry.value, entry.revision)

def get (kv : KVStore) (key : Bytes) : Bytes := (kv.getAtRevision key 0).1

/-- The latest version is live and has the expected revision. -/
def casMatches (kv : KVStore) (key : Bytes) (expectedRev : Int) : Bool :=
  match (kv.versions key).getLast? with
  | none => false
  | some latest => !latest.tombstone && latest.revision == expectedRev

/-- Apply one command; a type it does not know is an error. -/
def apply (kv : KVStore) (cmd : Command) : KVStore × Except String Bytes :=
  match cmd.type with
  | .put =>
    let kv := kv.write cmd.key cmd.revision cmd.value false
    let kv :=
      if cmd.leaseID > 0 then kv.setKeyLease cmd.key cmd.leaseID
      else {kv with key2Lease := kv.key2Lease.erase cmd.key}
    (kv, .ok [])
  | .get => (kv, .ok (kv.getAtRevision cmd.key cmd.revision).1)
  | .delete =>
    let kv := kv.write cmd.key cmd.revision [] true
    ({kv with key2Lease := kv.key2Lease.erase cmd.key}, .ok [])
  | .cas =>
    if kv.casMatches cmd.key cmd.expectedRev then
      (kv.write cmd.key cmd.revision cmd.value false, .ok (ascii "OK"))
    else (kv, .ok (ascii "CAS_FAILED"))
  | .leaseAttach =>
    if cmd.leaseID > 0 then
      ((kv.setKeyLease cmd.key cmd.leaseID).write cmd.key cmd.revision cmd.value false, .ok [])
    else (kv, .ok [])
  | _ => (kv, .error "unknown command type")

/-- `len(prefix) == 0 || len(key) >= len(prefix) && key[:len(prefix)] == prefix` -/
def hasPrefix (key keyPrefix : Bytes) : Bool := keyPrefix.isPrefixOf key

/-- The live pairs under a prefix. -/
def getPrefix (kv : KVStore) (keyPrefix : Bytes) : GoMap Bytes Bytes :=
  kv.data.filterMap fun key entries =>
    if hasPrefix key keyPrefix then
      match entries.getLast? with
      | none => none
      | some latest => if latest.tombstone then none else some latest.value
    else none

/-- One key of the loop in `DeletePrefix`: a tombstone, and no lease any more. -/
def deleteKey (kv : KVStore) (key : Bytes) : KVStore :=
  let kv := {kv with currentRev := kv.currentRev + 1}
  let kv := kv.record key ⟨kv.currentRev, [], true⟩
  {kv with key2Lease := kv.key2Lease.erase key}

/-- The keys under a prefix in ascending order, dead ones included, and the store
with a tombstone on each. -/
def deletePrefix (kv : KVStore) (keyPrefix : Bytes) : KVStore × List Bytes :=
  let deletedKeys := kv.data.keys.filter fun key => hasPrefix key keyPrefix
  (deletedKeys.foldl deleteKey kv, deletedKeys)

/-! ### What each operation changes -/

section Lemmas
variable (kv : KVStore)

/-- A write with a revision of its own leaves the counter at the larger of the two. -/
theorem write_currentRev {revision : Int} (h : revision ≠ 0) (key value : Bytes) (tombstone : Bool) :
    (kv.write key revision value tombstone).currentRev = max kv.currentRev revision := by
  unfold write stamp
  rw [if_neg h]
  split
  · show revision = max kv.currentRev revision
    omega
  · show kv.currentRev = max kv.currentRev revision
    omega

/-- A write with a revision of its own adds one version to one key. -/
theorem write_data {revision : Int} (h : revision ≠ 0) (key value k : Bytes) (tombstone : Bool) :
    (kv.write key revision value tombstone).data[k]? =
      if key = k then some (kv.versions key ++ [⟨revision, value, tombstone⟩]) else kv.data[k]? := by
  unfold write stamp
  rw [if_neg h]
  split
  · exact GoMap.get_insert ..
  · exact GoMap.get_insert ..

@[simp] theorem write_key2Lease (revision : Int) (key value : Bytes) (tombstone : Bool) :
    (kv.write key revision value tombstone).key2Lease = kv.key2Lease := by
  unfold write stamp
  split
  · rfl
  · split <;> rfl

@[simp] theorem deleteKey_currentRev (key : Bytes) :
    (kv.deleteKey key).currentRev = kv.currentRev + 1 := rfl

@[simp] theorem deleteKey_key2Lease (key : Bytes) :
    (kv.deleteKey key).key2Lease = kv.key2Lease.erase key := rfl

end Lemmas

end KVStore
end Wjetcd
