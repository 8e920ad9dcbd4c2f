import Wjetcd.Server.Binding

/-! A checkpoint is read back as it was written.

`Restore` checks what it reads: revisions within what the counter has given out, leases with
positive fields and ids of their own, a lease counter that is not behind. A state of a
server passes these checks because it is a state of a server: `Consistent`, the history
of the store, `Queued` and `Lasting` are what the checks ask for. What comes back is the state,
but for the heap, which is built anew (`checkpoint_round_trip`). -/
namespace Wjetcd
open Runs

/-! ### Through JSON -/

/-- A map whose strings are valid comes through. -/
theorem throughJson_eq {V : Type} {f : V → V} {m : GoMap Bytes V}
    (h : ∀ (key : Bytes) (v : V), m[key]? = some v → Utf8.valid key = true ∧ f v = v) :
    throughJson f m = m := by
  unfold throughJson
  have hsame : m.toList.foldl (fun read pair => read.insert (Utf8.coerce pair.1) (f pair.2)) ∅ =
      m.toList.foldl (fun read pair => read.insert pair.1 pair.2) (∅ : GoMap Bytes V) := by
    refine List.foldl_ext _ _ _ ?_
    intro read pair hpair
    obtain ⟨hkey, hvalue⟩ := h pair.1 pair.2 (Std.ExtTreeMap.mem_toList_iff_getElem?_eq_some.mp hpair)
    rw [(Utf8.coerce_eq_iff _).mpr hkey, hvalue]
  rw [hsame]
  exact GoMap.foldl_insert_toList m

/-- All strings of a machine are valid UTF-8. -/
structure Machine.Textual (m : Machine) : Prop where
  data : ∀ (key : Bytes) (entries : List VersionEntry), m.store.data[key]? = some entries →
    Utf8.valid key = true ∧ ∀ entry ∈ entries, Utf8.valid entry.value = true
  bound : ∀ (key : Bytes) (id : Int), m.store.key2Lease[key]? = some id → Utf8.valid key = true
  leases : ∀ (id : Int) (lease : Lease) (key value : Bytes), m.leaseMgr.leases[id]? = some lease →
    lease.keys[key]? = some value → Utf8.valid key = true ∧ Utf8.valid value = true

/-! ### The store -/

theorem StoreSnapshot.decoded_eq {m : Machine} (h : m.Textual) : m.store.snapshot.decoded = m.store.snapshot := by
  have hdata : throughJson (fun entries : List VersionEntry =>
      entries.map fun entry => {entry with value := Utf8.coerce entry.value}) m.store.data = m.store.data := by
    refine throughJson_eq ?_
    intro key entries hentries
    obtain ⟨hkey, hvalues⟩ := h.data key entries hentries
    refine ⟨hkey, ?_⟩
    conv_rhs => rw [← List.map_id entries]
    refine List.map_congr_left ?_
    intro entry hentry
    rw [(Utf8.coerce_eq_iff _).mpr (hvalues entry hentry), id]
  have hbound : throughJson id m.store.key2Lease = m.store.key2Lease :=
    throughJson_eq fun key id hid => ⟨h.bound key id hid, rfl⟩
  unfold decoded KVStore.snapshot
  dsimp only
  rw [hdata, hbound]

/-- Every version has been given a number, and the counter has not been behind. -/
theorem KVStore.snapshot_valid {actions : List Node.Action} {s : Node}
    (hs : run Node.step Node.boot actions = some s) : s.store.snapshot.valid = true := by
  have hc : Consistent s.server.machine := Reachable.consistent ⟨actions, s, hs, rfl⟩
  obtain ⟨log, hlog⟩ := history hs
  unfold StoreSnapshot.valid
  rw [List.all_eq_true]
  intro pair hpair
  rw [List.all_eq_true]
  intro entry hentry
  have hdata : s.store.data[pair.1]? = some pair.2 := Std.ExtTreeMap.mem_toList_iff_getElem?_eq_some.mp hpair
  have hmem : entry ∈ s.store.versions pair.1 := by
    rw [KVStore.versions, hdata]
    exact hentry
  have hpos : 1 ≤ entry.revision := hc.positive pair.1 pair.2 hdata entry hentry
  have hle : entry.revision ≤ s.store.currentRev := hlog.le_hi hmem
  rw [decide_eq_true_iff]
  exact ⟨by omega, hle⟩

/-! ### The leases -/

namespace LeaseManager

/-- The loop of `Restore` over entries with positive fields and ids of their own. -/
theorem rebuild_some (entries : List Lease) (built : Rebuilt)
    (hpos : ∀ entry ∈ entries, 0 < entry.id ∧ 0 < entry.ttl ∧ 0 < entry.expireAt)
    (hids : (entries.map Lease.id).Nodup)
    (hnew : ∀ entry ∈ entries, built.leases[entry.id]? = none) :
    ∃ result, rebuild built entries = some result ∧
      (∀ entry ∈ entries, result.leases[entry.id]? = some entry) ∧
      (∀ id : Int, id ∉ entries.map Lease.id → result.leases[id]? = built.leases[id]?) ∧
      ∀ bound, built.maxLeaseID ≤ bound → (∀ entry ∈ entries, entry.id ≤ bound) →
        result.maxLeaseID ≤ bound := by
  induction entries generalizing built with
  | nil =>
    refine ⟨built, rfl, by simp, fun _ _ => rfl, ?_⟩
    intro bound hbound _
    exact hbound
  | cons entry rest ih =>
    obtain ⟨hid, hrest⟩ := List.nodup_cons.mp hids
    have hentry := hpos entry List.mem_cons_self
    have hfree : built.leases.contains entry.id = false := by
      rw [Std.ExtTreeMap.contains_eq_isSome_getElem?, hnew entry List.mem_cons_self]
      rfl
    obtain ⟨result, hresult, hmem, hother, hmax⟩ := ih
      ⟨built.leases.insert entry.id entry, built.heap ++ [⟨entry.id, entry.expireAt⟩],
        max entry.id built.maxLeaseID⟩
      (fun e he => hpos e (List.mem_cons_of_mem _ he)) hrest
      (by
        intro e he
        have hne : entry.id ≠ e.id := fun heq => hid (heq ▸ List.mem_map_of_mem he)
        rw [GoMap.get_insert, if_neg hne]
        exact hnew e (List.mem_cons_of_mem _ he))
    refine ⟨result, ?_, ?_, ?_, ?_⟩
    · rw [rebuild, if_neg (by omega), hfree, if_neg Bool.false_ne_true]
      exact hresult
    · intro e he
      rcases List.mem_cons.mp he with rfl | he
      · rw [hother e.id hid, GoMap.get_insert, if_pos rfl]
      · exact hmem e he
    · intro id hnot
      rw [List.map_cons, List.mem_cons, not_or] at hnot
      rw [hother id hnot.2, GoMap.get_insert, if_neg (Ne.symm hnot.1)]
    · intro bound hbound hle
      refine hmax bound ?_ fun e he => hle e (List.mem_cons_of_mem _ he)
      have := hle entry List.mem_cons_self
      show max entry.id built.maxLeaseID ≤ bound
      omega

section Snapshot
variable {le : LeaseManager} (h : le.Queued) {order : List Int → List Int}
  (hperm : ∀ ids, (order ids).Perm ids)
include h hperm

/-- The entries of a snapshot are the leases. -/
theorem mem_snapshot (lease : Lease) :
    lease ∈ (le.snapshot order).leases ↔ le.leases[lease.id]? = some lease := by
  unfold snapshot
  rw [List.mem_filterMap]
  constructor
  · intro hmem
    obtain ⟨id, _, hl⟩ := hmem
    rw [h.named id lease hl]
    exact hl
  · intro hl
    exact ⟨lease.id, (hperm _).mem_iff.mpr ((GoMap.mem_keys_iff _ _).mpr ⟨lease, hl⟩), hl⟩

theorem snapshot_ids : ((le.snapshot order).leases.map Lease.id).Nodup := by
  have hids : ∀ ids : List Int, (∀ id ∈ ids, ∃ lease, le.leases[id]? = some lease) →
      (ids.filterMap fun id => le.leases[id]?).map Lease.id = ids := by
    intro ids hall
    induction ids with
    | nil => rfl
    | cons id rest ih =>
      obtain ⟨lease, hl⟩ := hall id List.mem_cons_self
      rw [List.filterMap_cons, hl, List.map_cons, h.named id lease hl,
        ih fun i hi => hall i (List.mem_cons_of_mem _ hi)]
  unfold snapshot
  rw [hids _ fun id hid => (GoMap.mem_keys_iff _ _).mp ((hperm _).mem_iff.mp hid)]
  exact (hperm _).nodup_iff.mpr Std.ExtTreeMap.nodup_keys

/-- A snapshot of leases with positive fields restores the table and the counter. -/
theorem restore_snapshot (hpos : ∀ (id : Int) (lease : Lease), le.leases[id]? = some lease →
      0 < id ∧ 0 < lease.ttl ∧ 0 < lease.expireAt) (hcounter : 0 ≤ le.leaseID) :
    ∃ le', restore (le.snapshot order) = some le' ∧ le'.leases = le.leases ∧ le'.leaseID = le.leaseID := by
  have hmem := mem_snapshot h hperm
  obtain ⟨built, hbuilt, hin, hout, hmax⟩ := rebuild_some (le.snapshot order).leases ⟨∅, [], 0⟩
    (fun entry hentry => hpos entry.id entry ((hmem entry).mp hentry)) (snapshot_ids h hperm)
    (fun entry _ => Std.ExtTreeMap.getElem?_empty)
  have hbound : built.maxLeaseID ≤ le.leaseID :=
    hmax le.leaseID hcounter fun entry hentry => h.counted entry.id entry ((hmem entry).mp hentry)
  refine ⟨⟨built.leases, le.leaseID, heapify built.heap⟩, ?_, ?_, rfl⟩
  · unfold restore
    rw [hbuilt, Option.bind_some]
    exact if_neg (not_lt.mpr hbound)
  · refine Std.ExtTreeMap.ext_getElem? ?_
    intro id
    cases hl : le.leases[id]? with
    | some lease =>
      have hname := h.named id lease hl
      have hentry := hin lease ((hmem lease).mpr (hname.symm ▸ hl))
      rw [hname] at hentry
      exact hentry
    | none =>
      rw [hout id]
      · exact Std.ExtTreeMap.getElem?_empty
      · intro hid
        obtain ⟨lease, hlease, rfl⟩ := List.mem_map.mp hid
        rw [(hmem lease).mp hlease] at hl
        cases hl

end Snapshot

/-- The entries of a snapshot with valid strings come through JSON. -/
theorem snapshot_decoded {m : Machine} (h : m.Textual) (order : List Int → List Int) :
    (m.leaseMgr.snapshot order).decoded = m.leaseMgr.snapshot order := by
  unfold LeaseSnapshot.decoded snapshot
  dsimp only
  congr 1
  conv_rhs => rw [← List.map_id (List.filterMap _ _)]
  refine List.map_congr_left ?_
  intro lease hlease
  obtain ⟨id, _, hl⟩ := List.mem_filterMap.mp hlease
  have hkeys : throughJson Utf8.coerce lease.keys = lease.keys := by
    refine throughJson_eq ?_
    intro key value hkey
    obtain ⟨hk, hv⟩ := h.leases id lease key value hl hkey
    exact ⟨hk, (Utf8.coerce_eq_iff _).mpr hv⟩
  rw [hkeys]
  rfl

end LeaseManager

/-! ### The server -/

/-- What is restored is the machine with a lease manager built anew from the same leases. -/
theorem Machine.restored_saved {actions : List Node.Action} {s : Node}
    (hs : run Node.step Node.boot actions = some s) (htext : s.server.machine.Textual)
    (hexpiry : ∀ (id : Int) (lease : Lease), s.leaseMgr.leases[id]? = some lease → 0 < lease.expireAt)
    {order : List Int → List Int} (hperm : ∀ ids, (order ids).Perm ids) :
    ∃ le, Machine.restored (s.server.machine.saved order) =
        some ⟨s.server.machine.store, le, s.server.machine.currentRev⟩ ∧
      le.leases = s.leaseMgr.leases ∧ le.leaseID = s.leaseMgr.leaseID ∧ le.Queued := by
  have hc : Consistent s.server.machine := Reachable.consistent ⟨actions, s, hs, rfl⟩
  have hqueued : s.leaseMgr.Queued := LeaseManager.Queued.nodeRun hs
  have hlasting : s.leaseMgr.Lasting := LeaseManager.Closed.nodeRun LeaseManager.closed_lasting
    (by simp [LeaseManager.Lasting, LeaseManager.newLeaseManager]) hs
  obtain ⟨le, hle, htable, hcounter⟩ := LeaseManager.restore_snapshot hqueued hperm
    (fun id lease hl => ⟨hc.numbered.ids id lease hl, hlasting id lease hl, hexpiry id lease hl⟩)
    hc.numbered.granted
  have hstore : KVStore.restore s.server.machine.store.snapshot = some s.server.machine.store :=
    if_pos (KVStore.snapshot_valid hs)
  refine ⟨le, ?_, htable, hcounter, LeaseManager.Queued.restore hle⟩
  unfold Machine.restored Machine.saved
  dsimp only
  rw [StoreSnapshot.decoded_eq htext, LeaseManager.snapshot_decoded htext, hstore, Option.bind_some]
  replace hle : LeaseManager.restore (s.server.machine.leaseMgr.snapshot order) = some le := hle
  rw [hle, Option.map_some, hc.catchUp, Machine.catchUp, if_neg (not_lt.mpr hc.ahead)]

/-- **A checkpoint of a server restores the server**, in whatever order its leases were written:
the versions of every key, the bindings, both revision counters, the leases and their counter,
and a heap that lists every lease once. -/
theorem checkpoint_round_trip (actions : List Node.Action) (s : Node)
    (hs : run Node.step Node.boot actions = some s) (htext : s.server.machine.Textual)
    (hexpiry : ∀ (id : Int) (lease : Lease), s.leaseMgr.leases[id]? = some lease → 0 < lease.expireAt)
    (order : List Int → List Int) (hperm : ∀ ids, (order ids).Perm ids) :
    ∃ m, Machine.restored (s.server.machine.saved order) = some m ∧
      m.store.versions = s.store.versions ∧ m.store.key2Lease = s.store.key2Lease ∧
      m.store.currentRev = s.store.currentRev ∧ m.currentRev = s.server.machine.currentRev ∧
      m.leaseMgr.leases = s.leaseMgr.leases ∧ m.leaseMgr.leaseID = s.leaseMgr.leaseID ∧
      m.leaseMgr.Queued := by
  obtain ⟨le, hrestored, htable, hcounter, hqueued⟩ := Machine.restored_saved hs htext hexpiry hperm
  exact ⟨_, hrestored, rfl, rfl, rfl, rfl, htable, hcounter, hqueued⟩

/-- The machine of a server with a key under a lease. -/
def leased : Machine :=
  { store := ⟨(∅ : GoMap Bytes _).insert [97] [⟨1, [98], false⟩], (∅ : GoMap Bytes _).insert [97] 1, 1⟩
    leaseMgr := ⟨(∅ : GoMap Int _).insert 1 ⟨1, 10, 5, (∅ : GoMap Bytes _).insert [97] [98]⟩, 1, [⟨1, 5⟩]⟩
    currentRev := 1 }

theorem leased_textual : leased.Textual where
  data := by
    intro key entries h
    simp only [leased, GoMap.get_insert, Std.ExtTreeMap.getElem?_empty] at h
    split at h
    · rename_i hkey
      cases h
      subst hkey
      decide
    · cases h
  bound := by
    intro key id h
    simp only [leased, GoMap.get_insert, Std.ExtTreeMap.getElem?_empty] at h
    split at h
    · rename_i hkey
      subst hkey
      decide
    · cases h
  leases := by
    intro id lease key value h hv
    simp only [leased, GoMap.get_insert, Std.ExtTreeMap.getElem?_empty] at h
    split at h
    · cases h
      simp only [GoMap.get_insert, Std.ExtTreeMap.getElem?_empty] at hv
      split at hv
      · rename_i hkey
        cases hv
        subst hkey
        decide
      · cases hv
    · cases h

/-- A key under a lease, written and read back. -/
theorem checkpoint_round_trip_one :
    ∃ s m, run Node.step Node.boot [Node.granting 5, Node.puttingUnder 1 [97] [98]] = some s ∧
      Machine.restored (s.server.machine.saved id) = some m ∧ m.store.versions = s.store.versions ∧
      m.leaseMgr.leases = s.leaseMgr.leases := by
  have hmachine : ∃ s, run Node.step Node.boot [Node.granting 5, Node.puttingUnder 1 [97] [98]] = some s ∧
      s.server.machine = leased := ⟨_, rfl, by decide⟩
  obtain ⟨s, hs, hleased⟩ := hmachine
  have hexpiry : ∀ (id : Int) (lease : Lease), s.leaseMgr.leases[id]? = some lease → 0 < lease.expireAt := by
    intro id lease h
    replace h : s.server.machine.leaseMgr.leases[id]? = some lease := h
    rw [hleased] at h
    simp only [leased, GoMap.get_insert, Std.ExtTreeMap.getElem?_empty] at h
    split at h
    · cases h
      decide
    · cases h
  obtain ⟨m, hm, hversions, _, _, _, hleases, _⟩ := checkpoint_round_trip _ s hs
    (hleased ▸ leased_textual) hexpiry id (fun ids => List.Perm.refl ids)
  exact ⟨s, m, hs, hm, hversions, hleases⟩

end Wjetcd
