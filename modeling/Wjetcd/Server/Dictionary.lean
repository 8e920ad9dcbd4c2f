import Wjetcd.Kv.Prefix
import Wjetcd.Server.Binding

/-! What a server is for: a dictionary whose keys can be lent to leases.

The store keeps versions and tombstones, the lease manager a table and a heap, a binding of a key
to a lease is kept in two places, and the lock manager grants leases of its own. A
`Dictionary` has none of this. It has the live pairs and the leases, and says what each command
answers and leaves.

Every run of a node is a run of the dictionary with the same results, and what is read from
the store is what the dictionary has (`Node.serves_dictionary`). Two habits of the code
are to be seen in the dictionary: a key that was deleted is still counted by the next prefix
delete, and releasing a lock takes a lease away but leaves its keys. -/
namespace Wjetcd
open Runs

/-! ### The dictionary -/

/-- A live key. -/
structure Pair where
  value : Bytes
  revision : Int
  /-- The lease that will take the key with it. -/
  lease : Option Int
deriving Repr, DecidableEq

/-- A key that has been deleted has no pair, but is still known. -/
structure Dictionary where
  pairs : GoMap Bytes (Option Pair)
  /-- When each of the leases ends. -/
  leases : GoMap Int Int
  granted : Int
deriving DecidableEq

namespace Dictionary

def empty : Dictionary := ⟨∅, ∅, 0⟩

def pair (d : Dictionary) (key : Bytes) : Option Pair := (d.pairs[key]?).join

def set (d : Dictionary) (key : Bytes) (pair : Option Pair) : Dictionary :=
  {d with pairs := d.pairs.insert key pair}

/-- The lease that a write names, if it exists. -/
def standing (d : Dictionary) (id : Int) : Option Int := (d.leases[id]?).map fun _ => id

def remove (d : Dictionary) (doomed : Bytes → Pair → Bool) : Dictionary :=
  {d with pairs := d.pairs.map fun key pair => pair.filter fun pair => !doomed key pair}

def grant (d : Dictionary) (deadline : Int) : Dictionary :=
  {d with leases := d.leases.insert (d.granted + 1) deadline, granted := d.granted + 1}

def extend (d : Dictionary) (id deadline : Int) : Dictionary :=
  {d with leases := d.leases.modify id fun _ => deadline}

/-- A lease ends and takes its keys with it. -/
def revoke (d : Dictionary) (id : Int) : Dictionary :=
  {d.remove fun _ pair => pair.lease == some id with leases := d.leases.erase id}

/-- A lease ends and leaves its keys. -/
def drop (d : Dictionary) (id : Int) : Dictionary :=
  {d with
    pairs := d.pairs.map fun _ pair => pair.map fun pair =>
      {pair with lease := pair.lease.filter fun lease => lease != id}
    leases := d.leases.erase id}

/-- A revocation that names a time is meant for the lease that ends then. -/
def revokes (d : Dictionary) (cmd : Command) : Bool :=
  cmd.leaseID > 0 && (cmd.expireAt ≤ 0 || d.leases[cmd.leaseID]? == some cmd.expireAt)

/-- The live pairs under a prefix. -/
def under (d : Dictionary) (keyPrefix : Bytes) : GoMap Bytes Bytes :=
  d.pairs.filterMap fun key pair => if KVStore.hasPrefix key keyPrefix then pair.map Pair.value else none

/-- The live keys. -/
def keys (d : Dictionary) : List Bytes := d.pairs.keys.filter fun key => (d.pair key).isSome

/-- What a command does and answers. A write gets `revision`, a lease ends at
`deadline`. -/
def serve (d : Dictionary) (revision deadline : Int) (cmd : Command) : Dictionary × Bytes :=
  match cmd.type with
  | .put => (d.set cmd.key (some ⟨cmd.value, revision, d.standing cmd.leaseID⟩), [])
  | .delete => (d.set cmd.key none, [])
  | .cas =>
    match d.pair cmd.key with
    | none => (d, ascii "CAS_FAILED")
    | some pair =>
      if pair.revision = cmd.expectedRev then
        (d.set cmd.key (some {pair with value := cmd.value, revision := revision}), ascii "OK")
      else (d, ascii "CAS_FAILED")
  | .leaseAttach =>
    (if cmd.leaseID > 0 then d.set cmd.key (some ⟨cmd.value, revision, d.standing cmd.leaseID⟩) else d,
      ascii "OK")
  | .leaseGrant => (d.grant deadline, decimal (d.granted + 1))
  | .leaseKeepAlive =>
    (d.extend cmd.leaseID deadline,
      if (d.leases[cmd.leaseID]?).isSome then ascii "OK" else ascii "ERROR")
  | .leaseRevoke => (if d.revokes cmd then d.revoke cmd.leaseID else d, ascii "OK")
  | .deletePrefix =>
    (d.remove fun key _ => KVStore.hasPrefix key cmd.keyPrefix,
      decimal (d.pairs.keys.filter fun key => KVStore.hasPrefix key cmd.keyPrefix).length)
  | .getPrefix => (d, Machine.formatMap (d.under cmd.keyPrefix))
  | .get => (d, ((d.pair cmd.key).map Pair.value).getD [])
  | .other _ _ => (d, [])

/-- What happens to a dictionary: a command with the reply it gets, or what a lock call does
to the leases. -/
inductive Move where
  | command (cmd : Command) (revision deadline : Int) (reply : Except String Bytes)
  | grant (deadline : Int)
  | drop (id : Int)
  | extend (id deadline : Int)
  | idle

/-- The revision is above that of every live key. -/
def above (d : Dictionary) (revision : Int) : Bool :=
  d.pairs.toList.all fun entry => entry.2.all fun pair => pair.revision < revision

/-- A command that is answered with a failure has changed nothing. Any other is answered as
`serve` says, with a revision that is new and the time that the command asks for, if it
does. -/
def step : Move → Dictionary → Option Dictionary
  | .command _ _ _ (.error _), d => some d
  | .command cmd revision deadline (.ok reply), d =>
    if d.above revision ∧ (0 < cmd.expireAt → deadline = cmd.expireAt) ∧
        (d.serve revision deadline cmd).2 = reply then
      some (d.serve revision deadline cmd).1
    else none
  | .grant deadline, d => some (d.grant deadline)
  | .drop id, d => some (d.drop id)
  | .extend id deadline, d => some (d.extend id deadline)
  | .idle, d => some d

end Dictionary

/-! ### What is read from a store -/

namespace KVStore

/-- The live keys, in the order in which the map happens to be iterated. -/
def keys (kv : KVStore) (order : List Bytes → List Bytes) : List Bytes :=
  (order kv.data.keys).filter kv.live

def size (kv : KVStore) : Nat := (kv.data.keys.filter kv.live).length

/-- A key with an empty value does not exist. -/
def keyExists (kv : KVStore) (key : Bytes) : Bool := kv.get key != []

end KVStore

/-! ### A machine seen as a dictionary -/

namespace Machine

/-- The lease that has the key among its keys. -/
def keeper (m : Machine) (key : Bytes) : Option Int :=
  (m.store.key2Lease[key]?).filter fun id =>
    (m.leaseMgr.leases[id]?).any fun lease => (lease.keys[key]?).isSome

/-- A version, as it stands under a lease. -/
def shownUnder (lease : Option Int) (entry : VersionEntry) : Option Pair :=
  if entry.tombstone then none else some ⟨entry.value, entry.revision, lease⟩

def dictionary (m : Machine) : Dictionary where
  pairs := m.store.data.filterMap fun key entries => entries.getLast?.map (shownUnder (m.keeper key))
  leases := m.leaseMgr.leases.map fun _ lease => lease.expireAt
  granted := m.leaseMgr.leaseID

@[simp] theorem dictionary_pairs (m : Machine) (key : Bytes) :
    m.dictionary.pairs[key]? = (m.store.versions key).getLast?.map (shownUnder (m.keeper key)) := by
  unfold dictionary KVStore.versions
  rw [Std.ExtTreeMap.getElem?_filterMap']
  cases m.store.data[key]? with
  | none => rfl
  | some entries => rfl

@[simp] theorem dictionary_leases (m : Machine) (id : Int) :
    m.dictionary.leases[id]? = (m.leaseMgr.leases[id]?).map Lease.expireAt :=
  Std.ExtTreeMap.getElem?_map

/-- Numbering a command is not to be seen. -/
@[simp] theorem fill_dictionary (m : Machine) (now : Nat) (cmd : Command) :
    (m.fill now cmd).1.dictionary = m.dictionary := by
  unfold dictionary keeper
  rw [fill_store, fill_leaseMgr]

theorem keeper_iff {m : Machine} (hc : Consistent m) {key : Bytes} {id : Int} :
    m.keeper key = some id ↔ m.leaseMgr.Holds id key := by
  unfold keeper
  rw [Option.filter_eq_some_iff, Option.any_eq_true]
  simp only [Option.isSome_iff_exists]
  constructor
  · rintro ⟨_, lease, hlease, hkey⟩
    exact ⟨lease, hlease, hkey⟩
  · intro h
    have hbound := hc.bound id key h
    obtain ⟨lease, hlease, hkey⟩ := h
    exact ⟨hbound, lease, hlease, hkey⟩

/-- Two machines in which the same leases have the key. -/
theorem keeper_congr {m m' : Machine} (hc : Consistent m) (hc' : Consistent m') {key : Bytes}
    (h : ∀ id, m'.leaseMgr.Holds id key ↔ m.leaseMgr.Holds id key) : m'.keeper key = m.keeper key := by
  refine Option.ext fun id => ?_
  rw [keeper_iff hc, keeper_iff hc']
  exact h id

end Machine

/-! ### Who holds a key after each operation -/

namespace LeaseManager
variable {le : LeaseManager} {id : Int} {k : Bytes}

theorem holds_revoke_iff (hs : le.Single) {order : List Int → List Int} (ho : ∀ ids, (order ids).Perm ids)
    {key : Bytes} : (le.revoke order key).1.Holds id k ↔ le.Holds id k ∧ k ≠ key := by
  refine ⟨holds_revoke hs ho, ?_⟩
  rintro ⟨⟨lease, hlease, value, hvalue⟩, hne⟩
  refine ⟨{lease with keys := lease.keys.erase key}, ?_, value, ?_⟩
  · rw [revoke_leases hs ho, hlease]
    rfl
  · rw [GoMap.get_erase, if_neg (Ne.symm hne)]
    exact hvalue

theorem holds_attach_iff {leaseId : Int} {key value : Bytes} :
    (le.attach leaseId key value).Holds id k ↔
      le.Holds id k ∨ (id = leaseId ∧ k = key ∧ (le.leases[leaseId]?).isSome) := by
  unfold Holds
  simp only [attach, GoMap.get_modify]
  by_cases hid : leaseId = id
  · subst hid
    rw [if_pos rfl]
    cases hlease : le.leases[leaseId]? with
    | none => simp
    | some lease =>
      by_cases hk : key = k
      · simp [hk]
      · have hk' : ¬k = key := Ne.symm hk
        simp [hk, hk']
  · have hid' : ¬id = leaseId := Ne.symm hid
    simp [hid, hid']

theorem holds_keepAliveUntil_iff {leaseId ttl expireAt : Int} :
    (le.keepAliveUntil leaseId ttl expireAt).1.Holds id k ↔ le.Holds id k := by
  refine ⟨holds_keepAliveUntil, ?_⟩
  rintro ⟨lease, hlease, hkey⟩
  by_cases hid : leaseId = id
  · refine ⟨{lease with ttl := ttl, expireAt := expireAt}, ?_, hkey⟩
    rw [keepAliveUntil_leases, if_pos hid, hlease]
    rfl
  · refine ⟨lease, ?_, hkey⟩
    rw [keepAliveUntil_leases, if_neg hid]
    exact hlease

/-- The id of a grant is new. -/
theorem holds_grantUntil_iff (hq : le.Queued) {ttl expireAt : Int} :
    (le.grantUntil ttl expireAt).1.Holds id k ↔ le.Holds id k := by
  refine ⟨holds_grantUntil, ?_⟩
  rintro ⟨lease, hlease, hkey⟩
  refine ⟨lease, ?_, hkey⟩
  have hold := hq.counted id lease hlease
  rw [grantUntil_leases, GoMap.get_insert, if_neg (by omega)]
  exact hlease

theorem holds_revokeLeaseLocked_iff {leaseId : Int} :
    (le.revokeLeaseLocked leaseId).1.Holds id k ↔ le.Holds id k ∧ id ≠ leaseId := by
  refine ⟨holds_revokeLeaseLocked, ?_⟩
  rintro ⟨⟨lease, hlease, hkey⟩, hne⟩
  refine ⟨lease, ?_, hkey⟩
  rw [revokeLeaseLocked_leases, if_neg (Ne.symm hne)]
  exact hlease

theorem Single.revoke (hs : le.Single) {order : List Int → List Int} (ho : ∀ ids, (order ids).Perm ids)
    (key : Bytes) : (le.revoke order key).1.Single :=
  fun k i j hi hj => hs k i j (holds_revoke hs ho hi).1 (holds_revoke hs ho hj).1

theorem holds_revokeAll_iff (env : Env) (keys : List Bytes) (hs : le.Single) :
    (Machine.revokeAll env le keys).Holds id k ↔ le.Holds id k ∧ k ∉ keys := by
  induction keys generalizing le with
  | nil => exact ⟨fun h => ⟨h, List.not_mem_nil⟩, fun h => h.1⟩
  | cons key rest ih =>
    refine (ih (hs.revoke (env.perm key) key)).trans ?_
    rw [holds_revoke_iff hs (env.perm key), List.mem_cons, not_or, and_assoc]

theorem revoke_leaseID (le : LeaseManager) (order : List Int → List Int) (key : Bytes) :
    (le.revoke order key).1.leaseID = le.leaseID := by
  unfold revoke
  split <;> rfl

theorem revokeAll_leaseID (env : Env) (keys : List Bytes) (le : LeaseManager) :
    (Machine.revokeAll env le keys).leaseID = le.leaseID := by
  induction keys generalizing le with
  | nil => rfl
  | cons key rest ih => exact (ih _).trans (le.revoke_leaseID (env.order key) key)

theorem keepAliveUntil_leaseID (le : LeaseManager) (leaseId ttl expireAt : Int) :
    (le.keepAliveUntil leaseId ttl expireAt).1.leaseID = le.leaseID := by
  unfold keepAliveUntil
  split <;> rfl

theorem revokeLeaseLocked_leaseID (le : LeaseManager) (leaseId : Int) :
    (le.revokeLeaseLocked leaseId).1.leaseID = le.leaseID := by
  unfold revokeLeaseLocked
  split <;> rfl

/-- Taking keys out of leases changes no deadline. -/
theorem revoke_deadline (le : LeaseManager) (order : List Int → List Int) (key : Bytes) (id : Int) :
    ((le.revoke order key).1.leases[id]?).map Lease.expireAt = (le.leases[id]?).map Lease.expireAt := by
  unfold revoke
  split
  · rfl
  · rename_i holder _
    by_cases hid : holder = id
    · simp [hid, Function.comp_def]
    · simp [hid]

theorem revokeAll_deadline (env : Env) (keys : List Bytes) (le : LeaseManager) (id : Int) :
    ((Machine.revokeAll env le keys).leases[id]?).map Lease.expireAt = (le.leases[id]?).map Lease.expireAt := by
  induction keys generalizing le with
  | nil => rfl
  | cons key rest ih => exact (ih _).trans (le.revoke_deadline (env.order key) key id)

theorem attach_deadline (le : LeaseManager) (leaseId : Int) (key value : Bytes) (id : Int) :
    ((le.attach leaseId key value).leases[id]?).map Lease.expireAt = (le.leases[id]?).map Lease.expireAt := by
  unfold attach
  by_cases hid : leaseId = id
  · simp [hid, Function.comp_def]
  · simp [hid]

end LeaseManager

/-! ### Keys that are known -/

namespace KVStore

/-- A key of the map has a version. -/
def Filled (kv : KVStore) : Prop :=
  ∀ (key : Bytes) (entries : List VersionEntry), kv.data[key]? = some entries → entries ≠ []

namespace Filled
variable {kv : KVStore} (h : kv.Filled)
include h

theorem known (key : Bytes) : (kv.data[key]?).isSome ↔ ∃ entry, (kv.versions key).getLast? = some entry := by
  unfold versions
  cases hdata : kv.data[key]? with
  | none => simp
  | some entries =>
    have hlast := List.getLast?_eq_some_getLast (h key entries hdata)
    simp [hlast]

theorem record (key : Bytes) (entry : VersionEntry) : (kv.record key entry).Filled := by
  intro k entries hentries
  unfold KVStore.record at hentries
  rw [GoMap.get_insert] at hentries
  split at hentries
  · cases hentries
    simp
  · exact h k entries hentries

theorem write (key : Bytes) (revision : Int) (value : Bytes) (tombstone : Bool) :
    (kv.write key revision value tombstone).Filled := by
  have hstamped : (kv.stamp revision).1.Filled := by
    unfold stamp
    split
    · exact h
    · split <;> exact h
  exact hstamped.record key _

theorem apply (cmd : Command) : (kv.apply cmd).1.Filled := by
  unfold KVStore.apply
  split
  · have hwrite := h.write cmd.key cmd.revision cmd.value false
    dsimp only
    split <;> exact hwrite
  · exact h
  · exact h.write cmd.key cmd.revision [] true
  · split
    · exact h.write cmd.key cmd.revision cmd.value false
    · exact h
  · split
    · have hbound : (kv.setKeyLease cmd.key cmd.leaseID).Filled := h
      exact hbound.write cmd.key cmd.revision cmd.value false
    · exact h
  · exact h

theorem deleteKeys (keys : List Bytes) : (keys.foldl deleteKey kv).Filled := by
  induction keys generalizing kv with
  | nil => exact h
  | cons key rest ih =>
    have hcounted : Filled {kv with currentRev := kv.currentRev + 1} := h
    exact ih (hcounted.record key _)

end Filled

end KVStore

theorem Machine.expireKeys_filled (keys : List Bytes) {m : Machine} (h : m.store.Filled) :
    (expireKeys m keys).1.store.Filled := by
  induction keys generalizing m with
  | nil => exact h
  | cons key rest ih => exact ih (h.apply _)

theorem Machine.execute_filled {m : Machine} (h : m.store.Filled) (env : Env) (cmd : Command) :
    (m.execute env cmd).machine.store.Filled := by
  have hdefault : (m.executeDefault env cmd).machine.store.Filled := by
    have happly := h.apply cmd
    unfold executeDefault
    dsimp only
    split <;> exact happly
  cases ht : cmd.type with
  | leaseRevoke =>
    rw [execute_revoke m env ht]
    split
    · exact expireKeys_filled _ h
    · exact h
  | leaseAttach =>
    simp only [execute, ht]
    split
    · have hbound : (m.store.setKeyLease cmd.key cmd.leaseID).Filled := h
      exact hbound.apply _
    · exact h
  | cas =>
    simp only [execute, ht]
    split <;> exact h.apply cmd
  | deletePrefix =>
    simp only [execute, ht, catchUp_store]
    exact h.deleteKeys _
  | leaseGrant | leaseKeepAlive | getPrefix | get =>
    simp only [execute, ht]
    exact h
  | put | delete | other =>
    simp only [execute, ht]
    exact hdefault

end Wjetcd
