import Wjetcd.Lib.Heap
import Wjetcd.Lib.Runs
import Wjetcd.Server.Persist

/-! The heap of expiries beside the table of leases.

The lease manager keeps its leases twice: in a map, and in a heap ordered by expiry from which
the cleanup loop reads the lease that expires first. `Queued` says that the two are the
same set of leases, that the heap is one, and that the counter is not behind an id. Every
operation keeps it, `Restore` establishes it, and `heap_invariant` says so of every
sequence of operations in which the counter does not wrap. -/
namespace Wjetcd.LeaseManager
open Runs

/-! ### The loops of the source are those of a heap -/

section Loops
variable (heap : List LeaseItem)

theorem expiry_eq (i : Nat) : expiry heap i = Heap.keyAt LeaseItem.expireAt heap i := by
  unfold expiry Heap.keyAt
  cases heap[i]? <;> rfl

theorem swap_eq (i j : Nat) : swap heap i j = Heap.swap heap i j := by
  unfold swap Heap.swap
  cases heap[i]? with
  | none => rfl
  | some a =>
    cases heap[j]? with
    | none => rfl
    | some b => rfl

theorem bubbleUp_eq (fuel i : Nat) : bubbleUp fuel heap i = Heap.up LeaseItem.expireAt fuel heap i := by
  induction fuel generalizing heap i with
  | zero => rfl
  | succ fuel ih =>
    simp only [bubbleUp, Heap.up, Heap.parent, expiry_eq, swap_eq, ih, ge_iff_le]
    rfl

theorem smallest_eq (i : Nat) : smallest heap i = Heap.least LeaseItem.expireAt heap i := by
  simp only [smallest, Heap.least, expiry_eq]

theorem bubbleDown_eq (fuel i : Nat) :
    bubbleDown fuel heap i = Heap.down LeaseItem.expireAt fuel heap i := by
  induction fuel generalizing heap i with
  | zero => rfl
  | succ fuel ih =>
    simp only [bubbleDown, Heap.down, smallest_eq, swap_eq, ih]

theorem settle_eq (i : Nat) : settle heap i = Heap.settle LeaseItem.expireAt heap i := by
  rw [settle, bubbleUp_eq, bubbleDown_eq, Heap.settle]

theorem removeItem_eq (i : Nat) : removeItem heap i = Heap.remove LeaseItem.expireAt heap i := by
  unfold removeItem Heap.remove Heap.fill
  simp only [settle_eq]
  cases heap.getLast? with
  | none => rfl
  | some last => rfl

theorem heapify_eq : heapify heap = Heap.build LeaseItem.expireAt heap := by
  simp only [heapify, Heap.build, bubbleDown_eq]

end Loops

/-! ### One item for each lease -/

/-- The heap lists the leases of the table, each once and with its expiry. -/
structure Lists (heap : List LeaseItem) (leases : GoMap Int Lease) : Prop where
  items : ∀ item : LeaseItem,
    item ∈ heap ↔ ∃ lease, leases[item.id]? = some lease ∧ lease.expireAt = item.expireAt
  once : (heap.map LeaseItem.id).Nodup

namespace Lists
variable {heap heap' : List LeaseItem} {leases leases' : GoMap Int Lease}

theorem perm (h : Lists heap leases) (hp : heap'.Perm heap) : Lists heap' leases where
  items := fun item => hp.mem_iff.trans (h.items item)
  once := (hp.map LeaseItem.id).nodup_iff.mpr h.once

/-- Only expiries count. -/
theorem congr (h : Lists heap leases)
    (hsame : ∀ id : Int, leases'[id]?.map Lease.expireAt = leases[id]?.map Lease.expireAt) :
    Lists heap leases' where
  items := by
    intro item
    rw [h.items, ← Option.map_eq_some_iff, ← Option.map_eq_some_iff, hsame]
  once := h.once

theorem mem {id : Int} {lease : Lease} (h : Lists heap leases) (hl : leases[id]? = some lease) :
    ⟨id, lease.expireAt⟩ ∈ heap := (h.items _).mpr ⟨lease, hl, rfl⟩

/-- One lease more, under an id that is not in use. -/
theorem cons (h : Lists heap leases) {id : Int} (hnew : leases[id]? = none) (lease : Lease) :
    Lists (⟨id, lease.expireAt⟩ :: heap) (leases.insert id lease) where
  items := by
    intro item
    rw [List.mem_cons, h.items, GoMap.get_insert]
    by_cases hid : id = item.id
    · rw [if_pos hid, ← hid, hnew]
      constructor
      · intro hmem
        rcases hmem with rfl | ⟨_, hnone, _⟩
        · exact ⟨lease, rfl, rfl⟩
        · cases hnone
      · intro hmem
        obtain ⟨_, heq, hexp⟩ := hmem
        cases heq
        left
        cases item
        cases hid
        cases hexp
        rfl
    · rw [if_neg hid, or_iff_right]
      intro heq
      rw [heq] at hid
      exact hid rfl
  once := by
    rw [List.map_cons, List.nodup_cons]
    refine ⟨?_, h.once⟩
    intro hmem
    obtain ⟨item, hitem, hid⟩ := List.mem_map.mp hmem
    obtain ⟨_, hsome, _⟩ := (h.items item).mp hitem
    rw [hid, hnew] at hsome
    cases hsome

/-- One lease less. -/
theorem tail {item : LeaseItem} (h : Lists (item :: heap) leases) : Lists heap (leases.erase item.id) where
  items := by
    intro other
    have honce := h.once
    rw [List.map_cons, List.nodup_cons] at honce
    rw [GoMap.get_erase]
    by_cases hid : item.id = other.id
    · rw [if_pos hid]
      constructor
      · intro hmem
        exact absurd (List.mem_map.mpr ⟨other, hmem, hid.symm⟩) honce.1
      · intro hmem
        obtain ⟨_, hnone, _⟩ := hmem
        cases hnone
    · rw [if_neg hid, ← h.items other, List.mem_cons, or_iff_right]
      intro heq
      rw [heq] at hid
      exact hid rfl
  once := (List.nodup_cons.mp h.once).2

end Lists

/-! ### The invariant -/

structure Queued (le : LeaseManager) : Prop where
  lists : Lists le.heap le.leases
  ordered : Heap.Ordered LeaseItem.expireAt 0 le.heap
  counted : ∀ (id : Int) (lease : Lease), le.leases[id]? = some lease → id ≤ le.leaseID
  named : ∀ (id : Int) (lease : Lease), le.leases[id]? = some lease → lease.id = id

namespace Queued
variable {le : LeaseManager}

theorem newLeaseManager : Queued newLeaseManager where
  lists := ⟨by simp [LeaseManager.newLeaseManager], List.nodup_nil⟩
  ordered := by
    intro p j hc
    exact absurd hc.1 (Nat.not_lt_zero j)
  counted := by simp [LeaseManager.newLeaseManager]
  named := by simp [LeaseManager.newLeaseManager]

/-- Change a lease's keys only. -/
theorem modify (h : Queued le) (id : Int) {f : Lease → Lease} (hid : ∀ lease, (f lease).id = lease.id)
    (hexp : ∀ lease, (f lease).expireAt = lease.expireAt) :
    Queued {le with leases := le.leases.modify id f} := by
  have hold : ∀ (i : Int) (lease : Lease), (le.leases.modify id f)[i]? = some lease →
      ∃ old, le.leases[i]? = some old ∧ lease.id = old.id := by
    intro i lease hi
    rw [GoMap.get_modify] at hi
    split at hi
    · rename_i heq
      obtain ⟨old, hl, rfl⟩ := Option.map_eq_some_iff.mp hi
      exact ⟨old, heq ▸ hl, hid old⟩
    · exact ⟨lease, hi, rfl⟩
  refine ⟨h.lists.congr ?_, h.ordered, ?_, ?_⟩
  · intro i
    rw [GoMap.get_modify]
    split
    · rename_i heq
      rw [← heq, Option.map_map]
      congr 1
      funext lease
      exact hexp lease
    · rfl
  · intro i lease hi
    obtain ⟨old, hl, _⟩ := hold i lease hi
    exact h.counted i old hl
  · intro i lease hi
    obtain ⟨old, hl, hname⟩ := hold i lease hi
    rw [hname]
    exact h.named i old hl

theorem attach (h : Queued le) (leaseId : Int) (key value : Bytes) : Queued (le.attach leaseId key value) :=
  h.modify leaseId (fun _ => rfl) (fun _ => rfl)

theorem revoke (h : Queued le) (order : List Int → List Int) (key : Bytes) :
    Queued (le.revoke order key).1 := by
  unfold LeaseManager.revoke
  split
  · exact h
  · exact h.modify _ (fun _ => rfl) (fun _ => rfl)

/-- The counter's next id is not in use. -/
theorem fresh (h : Queued le) : le.leases[le.leaseID + 1]? = none := by
  cases hl : le.leases[le.leaseID + 1]? with
  | none => rfl
  | some lease =>
    have := h.counted _ lease hl
    omega

theorem grantUntil (h : Queued le) (ttl expireAt : Int) : Queued (le.grantUntil ttl expireAt).1 := by
  have hlen : (le.heap ++ [(⟨le.leaseID + 1, expireAt⟩ : LeaseItem)]).length = le.heap.length + 1 := by simp
  refine ⟨?_, ?_, ?_, ?_⟩
  · refine (h.lists.cons h.fresh ⟨le.leaseID + 1, ttl, expireAt, ∅⟩).perm ?_
    show (bubbleUp _ (le.heap ++ [⟨le.leaseID + 1, expireAt⟩]) _).Perm _
    rw [bubbleUp_eq]
    exact (Heap.up_perm _ _ _ _).trans (List.perm_append_singleton _ _)
  · show Heap.Ordered LeaseItem.expireAt 0
      (bubbleUp (le.heap ++ [(⟨le.leaseID + 1, expireAt⟩ : LeaseItem)]).length
        (le.heap ++ [⟨le.leaseID + 1, expireAt⟩])
        ((le.heap ++ [(⟨le.leaseID + 1, expireAt⟩ : LeaseItem)]).length - 1))
    rw [bubbleUp_eq, hlen, Nat.add_sub_cancel]
    exact h.ordered.push _ (Nat.le_succ _)
  · intro i lease hi
    show i ≤ le.leaseID + 1
    rw [grantUntil_leases, GoMap.get_insert] at hi
    split at hi
    · omega
    · have := h.counted i lease hi
      omega
  · intro i lease hi
    rw [grantUntil_leases, GoMap.get_insert] at hi
    split at hi
    · rename_i heq
      cases hi
      exact heq
    · exact h.named i lease hi

/-- The search for a lease of the table finds an item. -/
theorem find (h : Queued le) {id : Int} {lease : Lease} (hl : le.leases[id]? = some lease) :
    ∃ i, le.heap.findIdx? (fun item => item.id == id) = some i ∧
      ∃ hi : i < le.heap.length, le.heap[i].id = id := by
  cases hfind : le.heap.findIdx? (fun item => item.id == id) with
  | none =>
    have hnot := List.findIdx?_eq_none_iff.mp hfind _ (h.lists.mem hl)
    simp at hnot
  | some i =>
    obtain ⟨hi, hid, _⟩ := List.findIdx?_eq_some_iff_getElem.mp hfind
    exact ⟨i, rfl, hi, by simpa using hid⟩

/-- The table without the lease of an item, and the heap without the item. -/
theorem erase (h : Queued le) {i : Nat} (hi : i < le.heap.length) {heap : List LeaseItem}
    (hperm : heap.Perm (le.heap.eraseIdx i)) : Lists heap (le.leases.erase le.heap[i].id) :=
  ((h.lists.perm (List.getElem_cons_eraseIdx_perm hi)).tail).perm hperm

theorem keepAliveUntil (h : Queued le) (leaseId ttl expireAt : Int) :
    Queued (le.keepAliveUntil leaseId ttl expireAt).1 := by
  unfold LeaseManager.keepAliveUntil
  cases hl : le.leases[leaseId]? with
  | none => exact h
  | some lease =>
    obtain ⟨i, hfind, hi, hitem⟩ := h.find hl
    dsimp only
    rw [hfind]
    refine ⟨?_, ?_, ?_, ?_⟩
    · -- the lease out, and in again with its new expiry
      have hout := h.erase hi (List.Perm.refl _)
      rw [hitem] at hout
      have hgone : (le.leases.erase leaseId)[leaseId]? = none := by simp
      have hin := hout.cons hgone {lease with ttl := ttl, expireAt := expireAt}
      show Lists (settle _ i) (le.leases.insert leaseId {lease with ttl := ttl, expireAt := expireAt})
      rw [settle_eq]
      refine (hin.perm ?_).congr ?_
      · exact (Heap.settle_perm _ _ _).trans (Heap.set_perm hi _)
      · intro k
        simp only [GoMap.get_insert, GoMap.get_erase]
        split
        · rfl
        · rfl
    · show Heap.Ordered LeaseItem.expireAt 0 (settle _ i)
      rw [settle_eq]
      exact h.ordered.replace hi _
    · intro k lease' hk
      simp only [GoMap.get_insert] at hk
      split at hk
      · rename_i heq
        exact heq ▸ h.counted leaseId lease hl
      · exact h.counted k lease' hk
    · intro k lease' hk
      simp only [GoMap.get_insert] at hk
      split at hk
      · rename_i heq
        cases hk
        exact (h.named leaseId lease hl).trans heq
      · exact h.named k lease' hk

/-- A lease out of the table, and its item out of the heap. -/
theorem without (h : Queued le) {id : Int} {i : Nat} (hi : i < le.heap.length)
    (hitem : le.heap[i].id = id) :
    Queued {le with leases := le.leases.erase id, heap := removeItem le.heap i} := by
  have hkeep : ∀ (k : Int) (lease' : Lease), (le.leases.erase id)[k]? = some lease' → le.leases[k]? = some lease' := by
    intro k lease' hk
    rw [GoMap.get_erase] at hk
    split at hk
    · cases hk
    · exact hk
  refine ⟨?_, ?_, ?_, ?_⟩
  · show Lists (removeItem le.heap i) (le.leases.erase id)
    rw [removeItem_eq, ← hitem]
    exact h.erase hi (Heap.remove_perm _ hi)
  · show Heap.Ordered LeaseItem.expireAt 0 (removeItem le.heap i)
    rw [removeItem_eq]
    exact h.ordered.remove
  · intro k lease' hk
    exact h.counted k lease' (hkeep k lease' hk)
  · intro k lease' hk
    exact h.named k lease' (hkeep k lease' hk)

theorem revokeLeaseLocked (h : Queued le) (leaseId : Int) : Queued (le.revokeLeaseLocked leaseId).1 := by
  unfold LeaseManager.revokeLeaseLocked
  cases hl : le.leases[leaseId]? with
  | none => exact h
  | some lease =>
    obtain ⟨i, hfind, hi, hitem⟩ := h.find hl
    dsimp only
    rw [hfind]
    exact h.without hi hitem

theorem revokeLeaseIfMatches (h : Queued le) (leaseId expected : Int) :
    Queued (le.revokeLeaseIfMatches leaseId expected).1 := by
  rcases revokeLeaseIfMatches_cases le leaseId expected with heq | heq
  · rw [heq]
    exact h
  · rw [heq]
    exact h.revokeLeaseLocked leaseId

/-- Moving down from the root only is all that is left of the repair there. -/
theorem removeExpiredLease (h : Queued le) (now : Int) (order : List Bytes → List Bytes) :
    Queued (le.removeExpiredLease now order).1 := by
  unfold LeaseManager.removeExpiredLease
  cases hroot : le.heap[0]? with
  | none => exact h
  | some item =>
    dsimp only
    split
    · exact h
    · cases hl : le.leases[item.id]? with
      | none => exact h
      | some lease =>
        obtain ⟨hi, rfl⟩ := List.getElem?_eq_some_iff.mp hroot
        exact h.without hi rfl

end Queued

/-! ### What `Restore` builds -/

/-- The table and the list of items, entry by entry. -/
structure Rebuilt.Sound (built : Rebuilt) : Prop where
  lists : Lists built.heap built.leases
  counted : ∀ (id : Int) (lease : Lease), built.leases[id]? = some lease → id ≤ built.maxLeaseID
  named : ∀ (id : Int) (lease : Lease), built.leases[id]? = some lease → lease.id = id

theorem Rebuilt.Sound.empty : Rebuilt.Sound ⟨∅, [], 0⟩ where
  lists := ⟨by simp, List.nodup_nil⟩
  counted := by simp
  named := by simp

theorem Rebuilt.Sound.add {built : Rebuilt} (h : built.Sound) {entry : Lease}
    (hnew : built.leases[entry.id]? = none) :
    Rebuilt.Sound ⟨built.leases.insert entry.id entry, built.heap ++ [⟨entry.id, entry.expireAt⟩],
      max entry.id built.maxLeaseID⟩ where
  lists := (h.lists.cons hnew entry).perm (List.perm_append_singleton _ _)
  counted := by
    intro id lease hl
    show id ≤ max entry.id built.maxLeaseID
    rw [GoMap.get_insert] at hl
    split at hl
    · omega
    · have := h.counted id lease hl
      omega
  named := by
    intro id lease hl
    rw [GoMap.get_insert] at hl
    split at hl
    · rename_i heq
      cases hl
      exact heq
    · exact h.named id lease hl

theorem rebuild_sound (entries : List Lease) : ∀ built result : Rebuilt, built.Sound →
    rebuild built entries = some result → result.Sound := by
  induction entries with
  | nil =>
    intro built result h hr
    cases hr
    exact h
  | cons entry rest ih =>
    intro built result h hr
    unfold rebuild at hr
    split at hr
    · cases hr
    · split at hr
      · cases hr
      · rename_i hnew
        refine ih _ result (h.add ?_) hr
        rw [Std.ExtTreeMap.contains_eq_isSome_getElem?] at hnew
        simpa using hnew

/-- Whatever `Restore` accepts, the heap it makes is one and lists the leases. -/
theorem Queued.restore {s : LeaseSnapshot} {le : LeaseManager} (h : restore s = some le) : Queued le := by
  obtain ⟨built, hbuilt, hrest⟩ := Option.bind_eq_some_iff.mp h
  have hsound := rebuild_sound s.leases _ built Rebuilt.Sound.empty hbuilt
  split at hrest
  · cases hrest
  · rename_i hle
    cases hrest
    refine ⟨?_, ?_, ?_, hsound.named⟩
    · show Lists (heapify built.heap) built.leases
      rw [heapify_eq]
      exact hsound.lists.perm (Heap.build_perm _ _)
    · show Heap.Ordered LeaseItem.expireAt 0 (heapify built.heap)
      rw [heapify_eq]
      exact Heap.build_ordered _ _
    · intro id lease hl
      exact (hsound.counted id lease hl).trans (not_lt.mp hle)

/-! ### Sequences of operations -/

/-- A call of the lease manager's, with what the caller and the process decide. -/
inductive Op where
  | grantUntil (ttl expireAt : Int)
  | keepAliveUntil (leaseId ttl expireAt : Int)
  | revokeLease (leaseId : Int)
  | revokeLeaseIfMatches (leaseId expectedExpireAt : Int)
  | removeExpiredLease (now : Int) (order : List Bytes → List Bytes)
  | attach (leaseId : Int) (key value : Bytes)
  | revoke (order : List Int → List Int) (key : Bytes)

def step [Width] (op : Op) (le : LeaseManager) : Option LeaseManager :=
  match op with
  | .grantUntil ttl expireAt => some (le.grantUntil ttl expireAt).1
  | .keepAliveUntil leaseId ttl expireAt => some (le.keepAliveUntil leaseId ttl expireAt).1
  | .revokeLease leaseId => some (le.revokeLease leaseId).1
  | .revokeLeaseIfMatches leaseId expected => some (le.revokeLeaseIfMatches leaseId expected).1
  | .removeExpiredLease now order => some (le.removeExpiredLease now order).1
  | .attach leaseId key value => some (le.attach leaseId key value)
  | .revoke order key => some (le.revoke order key).1

theorem Queued.step (op : Op) (le le' : LeaseManager) (h : Queued le)
    (hs : LeaseManager.step op le = some le') : Queued le' := by
  cases op with
  | grantUntil ttl expireAt =>
    cases hs
    exact h.grantUntil ttl expireAt
  | keepAliveUntil leaseId ttl expireAt =>
    cases hs
    exact h.keepAliveUntil leaseId ttl expireAt
  | revokeLease leaseId =>
    cases hs
    exact h.revokeLeaseLocked leaseId
  | revokeLeaseIfMatches leaseId expected =>
    cases hs
    exact h.revokeLeaseIfMatches leaseId expected
  | removeExpiredLease now order =>
    cases hs
    exact h.removeExpiredLease now order
  | attach leaseId key value =>
    cases hs
    exact h.attach leaseId key value
  | revoke order key =>
    cases hs
    exact h.revoke order key

/-- The item the cleanup loop looks at is the first of all leases to expire. -/
theorem Queued.expiring {le : LeaseManager} (h : Queued le) :
    match le.getExpiringLease with
    | none => ∀ id : Int, le.leases[id]? = none
    | some item => (∃ lease, le.leases[item.id]? = some lease ∧ lease.expireAt = item.expireAt) ∧
        ∀ (id : Int) (lease : Lease), le.leases[id]? = some lease → item.expireAt ≤ lease.expireAt := by
  unfold getExpiringLease
  cases hroot : le.heap[0]? with
  | none =>
    intro id
    cases hl : le.leases[id]? with
    | none => rfl
    | some lease =>
      have hmem := h.lists.mem hl
      rw [List.getElem?_eq_none_iff, Nat.le_zero, List.length_eq_zero_iff] at hroot
      rw [hroot] at hmem
      cases hmem
  | some item =>
    refine ⟨(h.lists.items item).mp (List.mem_of_getElem? hroot), ?_⟩
    intro id lease hl
    obtain ⟨h0, rfl⟩ := List.getElem?_eq_some_iff.mp hroot
    obtain ⟨i, hi, hitem⟩ := List.getElem_of_mem (h.lists.mem hl)
    have hle := h.ordered.root_le i hi
    rw [Heap.keyAt_eq _ h0, Heap.keyAt_eq _ hi, hitem] at hle
    exact hle

/-- The heap and the table as a caller sees them. -/
structure Coherent (le : LeaseManager) : Prop where
  /-- One item a lease, with its expiry. -/
  items : (∀ item : LeaseItem, item ∈ le.heap ↔
      ∃ lease, le.leases[item.id]? = some lease ∧ lease.expireAt = item.expireAt) ∧
    (le.heap.map LeaseItem.id).Nodup
  ordered : ∀ (i : Nat) (item above : LeaseItem), 0 < i → le.heap[i]? = some item →
    le.heap[(i - 1) / 2]? = some above → above.expireAt ≤ item.expireAt
  counted : ∀ (id : Int) (lease : Lease), le.leases[id]? = some lease → lease.id = id ∧ id ≤ le.leaseID
  expiring : match le.getExpiringLease with
    | none => ∀ id : Int, le.leases[id]? = none
    | some item => (∃ lease, le.leases[item.id]? = some lease ∧ lease.expireAt = item.expireAt) ∧
        ∀ (id : Int) (lease : Lease), le.leases[id]? = some lease → item.expireAt ≤ lease.expireAt

theorem Queued.coherent {le : LeaseManager} (h : Queued le) : Coherent le := by
  refine ⟨⟨h.lists.items, h.lists.once⟩, ?_, ?_, h.expiring⟩
  · intro i item above hi hitem habove
    obtain ⟨hlt, rfl⟩ := List.getElem?_eq_some_iff.mp hitem
    have hchild := Heap.child_parent hi hlt
    have hle := h.ordered _ i hchild (Nat.zero_le _)
    obtain ⟨hplt, rfl⟩ := List.getElem?_eq_some_iff.mp habove
    rw [Heap.keyAt_eq _ hlt, Heap.keyAt_eq _ hchild.inside] at hle
    exact hle
  · intro id lease hl
    exact ⟨h.named id lease hl, h.counted id lease hl⟩

section Word
open scoped Word64

/-- No lease is granted once the counter is at the largest `int64`. -/
def Room (op : Op) (le : LeaseManager) : Prop :=
  match op with
  | .grantUntil _ _ => Word64.Fits (le.leaseID + 1)
  | _ => True

instance (op : Op) (le : LeaseManager) : Decidable (Room op le) := by
  unfold Room
  split <;> infer_instance

theorem Queued.step_room (op : Op) (le le' : LeaseManager) (h : Queued le) (hroom : Room op le)
    (hs : LeaseManager.step op le = some le') : Queued le' := by
  cases op with
  | grantUntil ttl expireAt =>
    have hsame : le.grantUntil ttl expireAt = @LeaseManager.grantUntil Width.unbounded le ttl expireAt := by
      unfold LeaseManager.grantUntil
      rw [Word64.wrap_of_fits hroom]
      rfl
    rw [LeaseManager.step, hsame] at hs
    exact Queued.step (.grantUntil ttl expireAt) le le' h hs
  | keepAliveUntil leaseId ttl expireAt => exact Queued.step (.keepAliveUntil leaseId ttl expireAt) le le' h hs
  | revokeLease leaseId => exact Queued.step (.revokeLease leaseId) le le' h hs
  | revokeLeaseIfMatches leaseId expected => exact Queued.step (.revokeLeaseIfMatches leaseId expected) le le' h hs
  | removeExpiredLease now order => exact Queued.step (.removeExpiredLease now order) le le' h hs
  | attach leaseId key value => exact Queued.step (.attach leaseId key value) le le' h hs
  | revoke order key => exact Queued.step (.revoke order key) le le' h hs

/-- **The heap and the table stay the same set of leases**, in heap order, whatever is called in
whatever order, and the lease that expires first is at the root: as long as nothing is granted once the
counter is at the largest `int64`. -/
theorem heap_invariant (ops : List Op) (start le : LeaseManager)
    (hstart : start = LeaseManager.newLeaseManager ∨ ∃ s, restore s = some start)
    (hroom : Along LeaseManager.step Room start ops)
    (hrun : Runs.run LeaseManager.step start ops = some le) : Coherent le := by
  have hqueued : Queued start := by
    rcases hstart with rfl | ⟨s, hs⟩
    · exact Queued.newLeaseManager
    · exact Queued.restore hs
  exact (run_invariant Queued.step_room ops start le hqueued hroom hrun).coherent

/-- Three leases; the first is renewed past the second and the second is revoked. -/
theorem heap_invariant_three :
    ∃ le, Runs.run LeaseManager.step LeaseManager.newLeaseManager
        [.grantUntil 10 5, .grantUntil 10 7, .grantUntil 10 6, .keepAliveUntil 1 10 9, .revokeLease 3] =
          some le ∧
      le.getExpiringLease = some ⟨2, 7⟩ ∧ Coherent le := by
  refine ⟨_, rfl, by decide, ?_⟩
  exact heap_invariant [.grantUntil 10 5, .grantUntil 10 7, .grantUntil 10 6, .keepAliveUntil 1 10 9,
    .revokeLease 3] _ _ (Or.inl rfl) (by decide) rfl

/-- A snapshot may have any counter. With the largest one, the next lease gets the smallest id, which
is then the counter: lease 1 is above it. -/
theorem counter_starts_over :
    ¬∀ (ops : List Op) (start le : LeaseManager),
      (start = LeaseManager.newLeaseManager ∨ ∃ s, restore s = some start) →
      Runs.run LeaseManager.step start ops = some le → Coherent le := by
  intro h
  have hcoherent := h [.grantUntil 10 5] _ _ (Or.inr ⟨⟨2 ^ 63 - 1, [⟨1, 10, 5, ∅⟩]⟩, rfl⟩) rfl
  exact absurd (hcoherent.counted 1 ⟨1, 10, 5, ∅⟩ (by decide +kernel)).2 (by decide +kernel)

end Word

end Wjetcd.LeaseManager
