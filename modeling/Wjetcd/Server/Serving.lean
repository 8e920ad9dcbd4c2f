import Wjetcd.Server.Dictionary

/-! A node serves a dictionary.

`Legible` is what makes a machine readable as a dictionary. The new part of it is `Tied`: what
the store notes of a binding, the lease notes as well. It holds as long as no write names
a lease that is yet to be granted. Each command and each lock call is then seen to do to
the dictionary what `Dictionary.step` says, and a run to be a run (`Node.serves_dictionary`). -/
namespace Wjetcd
open Runs

/-! ### One command -/

/-- A binding that the store keeps is kept by the lease. -/
structure Tied (m : Machine) : Prop where
  /-- No key waits for a lease that is yet to be granted. -/
  known : ∀ (key : Bytes) (id : Int), m.store.key2Lease[key]? = some id → id ≤ m.leaseMgr.leaseID
  /-- A key that is bound to a lease that exists is among its keys. -/
  attached : ∀ (key : Bytes) (id : Int), m.store.key2Lease[key]? = some id →
    (m.leaseMgr.leases[id]?).isSome → m.leaseMgr.Holds id key

/-- What holds of a machine that can be seen as a dictionary. -/
structure Legible (m : Machine) : Prop where
  consistent : Consistent m
  bound : Bound m
  queued : m.leaseMgr.Queued
  filled : m.store.Filled
  bounded : ∀ (key : Bytes) (entry : VersionEntry), entry ∈ m.store.versions key →
    entry.revision ≤ m.store.currentRev
  tied : Tied m

theorem Dictionary.ext_get {d d' : Dictionary} (hpairs : ∀ key : Bytes, d.pairs[key]? = d'.pairs[key]?)
    (hleases : ∀ id : Int, d.leases[id]? = d'.leases[id]?) (hgranted : d.granted = d'.granted) : d = d' := by
  obtain ⟨pairs, leases, granted⟩ := d
  obtain ⟨pairs', leases', granted'⟩ := d'
  rw [Dictionary.mk.injEq]
  exact ⟨Std.ExtTreeMap.ext_getElem? hpairs, Std.ExtTreeMap.ext_getElem? hleases, hgranted⟩

namespace Machine
open KVStore
variable {m m' : Machine} {log : List (Bytes × VersionEntry)} {key : Bytes}

/-- A key that is not written and stays with its lease. -/
theorem pairs_untouched (happ : m.store.Appends m'.store log) (hlog : latest log key = none)
    (hkeeper : m'.keeper key = m.keeper key) : m'.dictionary.pairs[key]? = m.dictionary.pairs[key]? := by
  rw [dictionary_pairs, dictionary_pairs, happ.last, hlog, hkeeper, Option.none_or]

theorem pairs_written (happ : m.store.Appends m'.store log) {entry : VersionEntry}
    (hlog : latest log key = some entry) :
    m'.dictionary.pairs[key]? = some (shownUnder (m'.keeper key) entry) := by
  rw [dictionary_pairs, happ.last, hlog]
  rfl

/-- A key that is deleted. -/
theorem pairs_deleted (happ : m.store.Appends m'.store log) {entry : VersionEntry}
    (hlog : latest log key = some entry) (hdead : entry.tombstone = true) :
    m'.dictionary.pairs[key]? = some none := by
  rw [pairs_written happ hlog, shownUnder, if_pos hdead]

theorem standing_eq (m : Machine) (id : Int) :
    m.dictionary.standing id = if (m.leaseMgr.leases[id]?).isSome then some id else none := by
  unfold Dictionary.standing
  rw [dictionary_leases]
  cases m.leaseMgr.leases[id]? with
  | none => rfl
  | some lease => rfl

end Machine

/-- A binding is new and kept, or it is old and no less is kept of it. -/
theorem Tied.after {m m' : Machine} (h : Tied m) (hgranted : m.leaseMgr.leaseID ≤ m'.leaseMgr.leaseID)
    (hkey : ∀ (key : Bytes) (id : Int), m'.store.key2Lease[key]? = some id →
      (id ≤ m'.leaseMgr.leaseID ∧ ((m'.leaseMgr.leases[id]?).isSome → m'.leaseMgr.Holds id key)) ∨
      (m.store.key2Lease[key]? = some id ∧ ((m'.leaseMgr.leases[id]?).isSome → id ≤ m.leaseMgr.leaseID →
        (m.leaseMgr.leases[id]?).isSome ∧ (m.leaseMgr.Holds id key → m'.leaseMgr.Holds id key)))) :
    Tied m' where
  known := by
    intro key id hid
    rcases hkey key id hid with hnew | hold
    · exact hnew.1
    · exact (h.known key id hold.1).trans hgranted
  attached := by
    intro key id hid hsome
    rcases hkey key id hid with hnew | hold
    · exact hnew.2 hsome
    · obtain ⟨hpresent, hkept⟩ := hold.2 hsome (h.known key id hold.1)
      exact hkept (h.attached key id hold.1 hpresent)

/-- The deadlines tell which leases there are. -/
theorem LeaseManager.present_of_deadline {le le' : LeaseManager} {id : Int}
    (h : (le'.leases[id]?).map Lease.expireAt = (le.leases[id]?).map Lease.expireAt) :
    (le'.leases[id]?).isSome = (le.leases[id]?).isSome := by
  rw [← Option.isSome_map, h, Option.isSome_map]

namespace Legible
open KVStore
variable {m m' : Machine} (h : Legible m) (hc' : Consistent m')
include h hc'

/-- One key is written, and bound to the lease that the write names. -/
theorem rebound {key value : Bytes} {revision leaseID : Int} (hknown : leaseID ≤ m.leaseMgr.leaseID)
    (happ : m.store.Appends m'.store [(key, ⟨revision, value, false⟩)])
    (hle : m'.leaseMgr.leaseID = m.leaseMgr.leaseID)
    (hdeadline : ∀ id : Int, (m'.leaseMgr.leases[id]?).map Lease.expireAt = (m.leaseMgr.leases[id]?).map Lease.expireAt)
    (hholds : ∀ id k, m'.leaseMgr.Holds id k ↔ (m.leaseMgr.Holds id k ∧ k ≠ key) ∨
      (id = leaseID ∧ k = key ∧ (m.leaseMgr.leases[leaseID]?).isSome))
    (hkeys : ∀ k : Bytes, m'.store.key2Lease[k]? =
      if key = k then (if leaseID > 0 then some leaseID else none) else m.store.key2Lease[k]?) :
    m'.dictionary = m.dictionary.set key (some ⟨value, revision, m.dictionary.standing leaseID⟩) ∧ Tied m' := by
  refine ⟨Dictionary.ext_get ?_ ?_ hle, h.tied.after hle.ge ?_⟩
  · intro k
    unfold Dictionary.set
    rw [GoMap.get_insert]
    by_cases hk : key = k
    · subst hk
      rw [if_pos rfl, Machine.pairs_written happ ((latest_single key key _).trans (if_pos rfl))]
      have hkeeper : m'.keeper key = m.dictionary.standing leaseID := by
        refine Option.ext fun id => ?_
        rw [Machine.keeper_iff hc', hholds, Machine.standing_eq]
        by_cases hsome : (m.leaseMgr.leases[leaseID]?).isSome
        · simp [hsome, eq_comm]
        · simp [hsome]
      simp [Machine.shownUnder, hkeeper]
    · rw [if_neg hk]
      refine Machine.pairs_untouched happ (by simp [hk]) (Machine.keeper_congr h.consistent hc' fun id => ?_)
      have hk' : ¬k = key := Ne.symm hk
      simp [hholds, hk']
  · intro id
    show m'.dictionary.leases[id]? = m.dictionary.leases[id]?
    rw [Machine.dictionary_leases, Machine.dictionary_leases, hdeadline]
  · intro k id hid
    rw [hkeys] at hid
    have hpresent := LeaseManager.present_of_deadline (hdeadline id)
    split at hid
    · rename_i hk
      split at hid
      · cases hid
        refine Or.inl ⟨hle ▸ hknown, fun hsome => ?_⟩
        rw [hpresent] at hsome
        exact (hholds leaseID k).mpr (Or.inr ⟨rfl, hk.symm, hsome⟩)
      · cases hid
    · rename_i hk
      refine Or.inr ⟨hid, fun hsome _ => ⟨hpresent ▸ hsome, fun hheld => ?_⟩⟩
      exact (hholds id k).mpr (Or.inl ⟨hheld, Ne.symm hk⟩)

/-- Keys are deleted, and leave their leases. -/
theorem removed (keys : List Bytes) {log : List (Bytes × VersionEntry)} (happ : m.store.Appends m'.store log)
    (hdead : ∀ k ∈ keys, ∃ entry, latest log k = some entry ∧ entry.tombstone = true)
    (hother : ∀ k, k ∉ keys → latest log k = none)
    (hle : m'.leaseMgr.leaseID = m.leaseMgr.leaseID)
    (hpresent : ∀ id : Int, (m'.leaseMgr.leases[id]?).isSome → (m.leaseMgr.leases[id]?).isSome)
    (hholds : ∀ id k, m'.leaseMgr.Holds id k ↔ m.leaseMgr.Holds id k ∧ k ∉ keys)
    (hkeys : ∀ k : Bytes, m'.store.key2Lease[k]? = if k ∈ keys then none else m.store.key2Lease[k]?) :
    (∀ k : Bytes, m'.dictionary.pairs[k]? = if k ∈ keys then some none else m.dictionary.pairs[k]?) ∧ Tied m' := by
  refine ⟨?_, h.tied.after hle.ge ?_⟩
  · intro k
    split
    · rename_i hk
      obtain ⟨entry, hlast, htomb⟩ := hdead k hk
      exact Machine.pairs_deleted happ hlast htomb
    · rename_i hk
      refine Machine.pairs_untouched happ (hother k hk) (Machine.keeper_congr h.consistent hc' fun id => ?_)
      rw [hholds, and_iff_left hk]
  · intro k id hid
    rw [hkeys] at hid
    split at hid
    · cases hid
    · rename_i hk
      exact Or.inr ⟨hid, fun hsome _ => ⟨hpresent id hsome, fun hheld => (hholds id k).mpr ⟨hheld, hk⟩⟩⟩

/-- The keys stay as they are, and with their leases. -/
theorem unmoved (happ : m.store.Appends m'.store []) (hle : m.leaseMgr.leaseID ≤ m'.leaseMgr.leaseID)
    (hpresent : ∀ id : Int, id ≤ m.leaseMgr.leaseID → (m'.leaseMgr.leases[id]?).isSome →
      (m.leaseMgr.leases[id]?).isSome)
    (hholds : ∀ id k, m'.leaseMgr.Holds id k ↔ m.leaseMgr.Holds id k)
    (hkeys : m'.store.key2Lease = m.store.key2Lease) :
    (∀ k : Bytes, m'.dictionary.pairs[k]? = m.dictionary.pairs[k]?) ∧ Tied m' := by
  refine ⟨?_, h.tied.after hle ?_⟩
  · intro k
    exact Machine.pairs_untouched happ rfl (Machine.keeper_congr h.consistent hc' fun id => hholds id k)
  · intro k id hid
    rw [hkeys] at hid
    exact Or.inr ⟨hid, fun hsome hid' => ⟨hpresent id hid' hsome, (hholds id k).mpr⟩⟩

end Legible

namespace Legible
open KVStore
variable {m : Machine} (h : Legible m) (env : Env) {cmd : Command}
  (hc' : Consistent (m.execute env cmd).machine)
  (happ : m.store.Appends (m.execute env cmd).machine.store (m.appended cmd))
include h hc' happ

theorem executePut (ht : cmd.type = .put) (hknown : cmd.leaseID ≤ m.leaseMgr.leaseID) :
    (m.execute env cmd).machine.dictionary =
      m.dictionary.set cmd.key (some ⟨cmd.value, cmd.revision, m.dictionary.standing cmd.leaseID⟩) ∧
    Tied (m.execute env cmd).machine := by
  have hput := fun k => m.store.apply_put_key2Lease ht k
  have hrevoke := fun id k => @LeaseManager.holds_revoke_iff m.leaseMgr id k h.consistent.single
    (env.order cmd.key) (env.perm cmd.key) cmd.key
  have hgone := m.leaseMgr.revoke_deadline (env.order cmd.key) cmd.key
  simp only [Machine.appended, ht] at happ
  simp only [Machine.execute, Machine.executeDefault, ht] at hc' happ ⊢
  by_cases hid : cmd.leaseID > 0
  · simp only [hid, and_self, if_true, true_or] at hc' happ ⊢
    refine h.rebound hc' hknown happ (LeaseManager.revoke_leaseID ..) ?_ ?_ ?_
    · intro id
      rw [LeaseManager.attach_deadline, hgone]
    · intro id k
      rw [LeaseManager.holds_attach_iff, hrevoke, LeaseManager.present_of_deadline (hgone cmd.leaseID)]
    · intro k
      simp only [setKeyLease, GoMap.get_insert, hput, hid, if_true]
      split <;> rfl
  · simp only [hid, false_and, if_false, true_or, if_true] at hc' happ ⊢
    have hnone : (m.leaseMgr.leases[cmd.leaseID]?).isSome = false := by
      by_contra hsome
      rw [Bool.not_eq_false, Option.isSome_iff_exists] at hsome
      obtain ⟨lease, hlease⟩ := hsome
      have := h.consistent.numbered.ids _ lease hlease
      omega
    refine h.rebound hc' hknown happ (LeaseManager.revoke_leaseID ..) hgone ?_ ?_
    · intro id k
      rw [hrevoke, hnone]
      simp
    · intro k
      rw [hput, if_neg hid]

theorem executeAttach (ht : cmd.type = .leaseAttach) (hid : cmd.leaseID > 0)
    (hknown : cmd.leaseID ≤ m.leaseMgr.leaseID) :
    (m.execute env cmd).machine.dictionary =
      m.dictionary.set cmd.key (some ⟨cmd.value, cmd.revision, m.dictionary.standing cmd.leaseID⟩) ∧
    Tied (m.execute env cmd).machine := by
  have hgone := m.leaseMgr.revoke_deadline (env.order cmd.key) cmd.key
  simp only [Machine.appended, ht, hid, if_true] at happ
  simp only [Machine.execute, ht, hid, if_true] at hc' happ ⊢
  refine h.rebound hc' hknown happ (LeaseManager.revoke_leaseID ..) ?_ ?_ ?_
  · intro id
    rw [LeaseManager.attach_deadline, hgone]
  · intro id k
    rw [LeaseManager.holds_attach_iff, LeaseManager.holds_revoke_iff h.consistent.single (env.perm cmd.key),
      LeaseManager.present_of_deadline (hgone cmd.leaseID)]
  · intro k
    rw [apply_put_key2Lease _ rfl]
    by_cases hk : cmd.key = k
    · simp [hk]
    · simp [hk, setKeyLease]

theorem executeDelete (ht : cmd.type = .delete) :
    (m.execute env cmd).machine.dictionary = m.dictionary.set cmd.key none ∧
    Tied (m.execute env cmd).machine := by
  have hdelete := fun k => m.store.apply_delete_key2Lease ht k
  have hgone := m.leaseMgr.revoke_deadline (env.order cmd.key) cmd.key
  simp only [Machine.appended, ht] at happ
  simp only [Machine.execute, Machine.executeDefault, ht, if_true, or_true, reduceCtorEq, and_false,
    if_false] at hc' happ ⊢
  obtain ⟨hpairs, htied⟩ := h.removed hc' [cmd.key] happ (by simp) (by simp [eq_comm]) (LeaseManager.revoke_leaseID ..)
    (fun id hsome => LeaseManager.present_of_deadline (hgone id) ▸ hsome)
    (fun id k => by
      rw [LeaseManager.holds_revoke_iff h.consistent.single (env.perm cmd.key), List.mem_singleton])
    (fun k => by simp only [hdelete, List.mem_singleton, eq_comm])
  refine ⟨Dictionary.ext_get ?_ ?_ (LeaseManager.revoke_leaseID ..), htied⟩
  · intro k
    rw [hpairs]
    simp only [Dictionary.set, GoMap.get_insert, List.mem_singleton, eq_comm]
  · intro id
    show Machine.dictionary _ |>.leases[id]? = m.dictionary.leases[id]?
    rw [Machine.dictionary_leases, Machine.dictionary_leases]
    exact hgone id

theorem executePrefix (ht : cmd.type = .deletePrefix) :
    (m.execute env cmd).machine.dictionary =
      m.dictionary.remove (fun key _ => hasPrefix key cmd.keyPrefix) ∧
    Tied (m.execute env cmd).machine := by
  have hgone := LeaseManager.revokeAll_deadline env (m.store.deletePrefix cmd.keyPrefix).2 m.leaseMgr
  obtain ⟨_, _, hlease⟩ := deleteKeys_spec (m.store.deletePrefix cmd.keyPrefix).2 m.store
    h.consistent.counted h.consistent.positive
  have hmem := m.store.mem_deletePrefix cmd.keyPrefix
  simp only [Machine.appended, ht] at happ
  simp only [Machine.execute, ht] at hc' happ ⊢
  obtain ⟨hpairs, htied⟩ := h.removed hc' (m.store.deletePrefix cmd.keyPrefix).2 happ
    (fun k hk => latest_tombstones hk _) (fun k hk => latest_tombstones_none hk _)
    (by rw [Machine.catchUp_leaseMgr]; exact LeaseManager.revokeAll_leaseID ..)
    (fun id hsome => by
      rw [Machine.catchUp_leaseMgr] at hsome
      exact LeaseManager.present_of_deadline (hgone id) ▸ hsome)
    (fun id k => by
      rw [Machine.catchUp_leaseMgr]
      exact LeaseManager.holds_revokeAll_iff env _ h.consistent.single)
    (fun k => by
      rw [Machine.catchUp_store]
      exact hlease k)
  refine ⟨Dictionary.ext_get ?_ ?_ ?_, htied⟩
  · intro k
    rw [hpairs]
    unfold Dictionary.remove
    rw [Std.ExtTreeMap.getElem?_map, Machine.dictionary_pairs]
    split
    · rename_i hk
      obtain ⟨hpresent, hp⟩ := (hmem k).mp hk
      obtain ⟨entry, hlast⟩ := (h.filled.known k).mp hpresent
      simp [hlast, hp]
    · rename_i hk
      cases hlast : (m.store.versions k).getLast? with
      | none => rfl
      | some entry =>
        have hp : ¬hasPrefix k cmd.keyPrefix = true := fun hp =>
          hk ((hmem k).mpr ⟨(h.filled.known k).mpr ⟨entry, hlast⟩, hp⟩)
        cases hshown : Machine.shownUnder (m.keeper k) entry <;> simp [hp, hshown, Option.filter]
  · intro id
    show Machine.dictionary _ |>.leases[id]? = m.dictionary.leases[id]?
    rw [Machine.dictionary_leases, Machine.dictionary_leases, Machine.catchUp_leaseMgr]
    exact hgone id
  · show (Machine.catchUp _).leaseMgr.leaseID = m.leaseMgr.leaseID
    rw [Machine.catchUp_leaseMgr]
    exact LeaseManager.revokeAll_leaseID ..

/-- The key stays with its lease. -/
theorem executeCAS (ht : cmd.type = .cas) (hmatch : m.store.casMatches cmd.key cmd.expectedRev = true) :
    (m.execute env cmd).machine.dictionary =
      m.dictionary.set cmd.key (some ⟨cmd.value, cmd.revision, m.keeper cmd.key⟩) ∧
    Tied (m.execute env cmd).machine := by
  have hlease := m.store.apply_cas_key2Lease ht
  have hok := (m.casMatches_iff ht).mpr hmatch
  -- attaching the key again does not move it
  have hagain : ∀ id k, (if m.store.getKeyLease cmd.key > 0 then
      m.leaseMgr.attach (m.store.getKeyLease cmd.key) cmd.key cmd.value else m.leaseMgr).Holds id k ↔
        m.leaseMgr.Holds id k := by
    intro id k
    split
    · rename_i hpos
      rw [LeaseManager.holds_attach_iff]
      refine or_iff_left_of_imp ?_
      rintro ⟨rfl, rfl, hsome⟩
      refine h.tied.attached _ _ ?_ hsome
      unfold getKeyLease at hpos ⊢
      cases hbound : m.store.key2Lease[cmd.key]? with
      | none => simp [hbound] at hpos
      | some id => rfl
    · exact Iff.rfl
  have hdeadline : ∀ id : Int, ((if m.store.getKeyLease cmd.key > 0 then
      m.leaseMgr.attach (m.store.getKeyLease cmd.key) cmd.key cmd.value else m.leaseMgr).leases[id]?).map
        Lease.expireAt = (m.leaseMgr.leases[id]?).map Lease.expireAt := by
    intro id
    split
    · exact LeaseManager.attach_deadline ..
    · rfl
  have hle : (if m.store.getKeyLease cmd.key > 0 then
      m.leaseMgr.attach (m.store.getKeyLease cmd.key) cmd.key cmd.value else m.leaseMgr).leaseID =
        m.leaseMgr.leaseID := by
    split <;> rfl
  simp only [Machine.appended, ht, hmatch, if_true] at happ
  simp only [Machine.execute, ht, hok, if_true] at hc' happ ⊢
  have hkeeper := fun k => Machine.keeper_congr h.consistent hc' fun id => hagain id k
  refine ⟨Dictionary.ext_get ?_ ?_ hle, h.tied.after hle.ge ?_⟩
  · intro k
    unfold Dictionary.set
    rw [GoMap.get_insert]
    by_cases hk : cmd.key = k
    · subst hk
      rw [if_pos rfl, Machine.pairs_written happ ((latest_single _ _ _).trans (if_pos rfl)), hkeeper]
      rfl
    · rw [if_neg hk]
      exact Machine.pairs_untouched happ (by simp [hk]) (hkeeper k)
  · intro id
    rw [Machine.dictionary_leases]
    exact (hdeadline id).trans (Machine.dictionary_leases m id).symm
  · intro k id hid
    rw [hlease] at hid
    exact Or.inr ⟨hid, fun hsome _ =>
      ⟨LeaseManager.present_of_deadline (hdeadline id) ▸ hsome, (hagain id k).mpr⟩⟩

theorem executeRevoke (ht : cmd.type = .leaseRevoke) (hid : cmd.leaseID > 0)
    (hrevoked : m.revokedBy cmd = m.leaseMgr.revokeLeaseLocked cmd.leaseID) :
    (m.execute env cmd).machine.dictionary = m.dictionary.revoke cmd.leaseID ∧
    Tied (m.execute env cmd).machine := by
  obtain ⟨_, _, _, _, hkeys⟩ := Machine.expireKeys_spec (m.revokedBy cmd).2
    {m with leaseMgr := (m.revokedBy cmd).1} h.consistent.counted h.consistent.ahead h.consistent.positive
  have hmem := m.leaseMgr.revokeLeaseLocked_keys cmd.leaseID
  simp only [Machine.appended, ht, hid, if_true, hrevoked] at happ
  rw [Machine.execute_revoke m env ht, if_pos hid, hrevoked] at hc' happ ⊢
  rw [hrevoked] at hkeys
  have hholds : ∀ id k, (m.leaseMgr.revokeLeaseLocked cmd.leaseID).1.Holds id k ↔
      m.leaseMgr.Holds id k ∧ k ∉ (m.leaseMgr.revokeLeaseLocked cmd.leaseID).2 := by
    intro id k
    rw [LeaseManager.holds_revokeLeaseLocked_iff, hmem]
    refine and_congr_right fun hheld => not_congr ⟨?_, ?_⟩
    · rintro rfl
      exact hheld
    · exact fun hheld' => h.consistent.single k id cmd.leaseID hheld hheld'
  obtain ⟨hpairs, htied⟩ := h.removed hc' (m.leaseMgr.revokeLeaseLocked cmd.leaseID).2 happ
    (fun k hk => latest_tombstones hk _) (fun k hk => latest_tombstones_none hk _)
    (by rw [Machine.expireKeys_leaseMgr]; exact LeaseManager.revokeLeaseLocked_leaseID ..)
    (fun id hsome => by
      rw [Machine.expireKeys_leaseMgr] at hsome
      dsimp only at hsome
      rw [LeaseManager.revokeLeaseLocked_leases] at hsome
      split at hsome
      · cases hsome
      · exact hsome)
    (fun id k => by
      rw [Machine.expireKeys_leaseMgr]
      exact hholds id k)
    hkeys
  refine ⟨Dictionary.ext_get ?_ ?_ ?_, htied⟩
  · intro k
    rw [hpairs]
    simp only [hmem, ← Machine.keeper_iff h.consistent]
    unfold Dictionary.revoke Dictionary.remove
    rw [Std.ExtTreeMap.getElem?_map, Machine.dictionary_pairs]
    split
    · rename_i hkeeper
      -- the key is live, so that there is something to delete
      obtain ⟨value, hcarries⟩ := LeaseManager.holds_iff.mp ((Machine.keeper_iff h.consistent).mp hkeeper)
      obtain ⟨entry, hlast, hlive, _⟩ := current_eq_some.mp (h.bound.carried _ _ _ hcarries)
      simp [hlast, Machine.shownUnder, hlive, hkeeper, Option.filter]
    · rename_i hkeeper
      cases (m.store.versions k).getLast? with
      | none => rfl
      | some entry => by_cases hdead : entry.tombstone <;> simp [Machine.shownUnder, hdead, hkeeper, Option.filter]
  · intro id
    unfold Dictionary.revoke
    rw [Machine.dictionary_leases, Machine.expireKeys_leaseMgr, GoMap.get_erase, Machine.dictionary_leases]
    dsimp only
    rw [LeaseManager.revokeLeaseLocked_leases]
    split <;> rfl
  · show (Machine.expireKeys _ _).1.leaseMgr.leaseID = m.leaseMgr.leaseID
    rw [Machine.expireKeys_leaseMgr]
    exact LeaseManager.revokeLeaseLocked_leaseID ..

end Legible

namespace Machine
open KVStore

theorem dictionary_pair (m : Machine) (key : Bytes) :
    m.dictionary.pair key = (m.store.versions key).getLast?.bind (shownUnder (m.keeper key)) := by
  unfold Dictionary.pair
  rw [dictionary_pairs]
  cases (m.store.versions key).getLast? <;> rfl

theorem live_dictionary (m : Machine) (key : Bytes) : m.store.live key = (m.dictionary.pair key).isSome := by
  rw [dictionary_pair]
  unfold live
  cases (m.store.versions key).getLast? with
  | none => rfl
  | some entry => by_cases hdead : entry.tombstone <;> simp [shownUnder, hdead]

/-- A compare-and-swap compares what the dictionary has. -/
theorem casMatches_dictionary (m : Machine) (key : Bytes) (expectedRev : Int) :
    m.store.casMatches key expectedRev = true ↔
      ∃ pair, m.dictionary.pair key = some pair ∧ pair.revision = expectedRev ∧ pair.lease = m.keeper key := by
  rw [dictionary_pair]
  unfold casMatches
  cases (m.store.versions key).getLast? with
  | none => simp
  | some entry => by_cases hdead : entry.tombstone <;> simp [shownUnder, hdead]

theorem pair_lease (m : Machine) {key : Bytes} {pair : Pair} (h : m.dictionary.pair key = some pair) :
    pair.lease = m.keeper key := by
  rw [dictionary_pair, Option.bind_eq_some_iff] at h
  obtain ⟨entry, _, hshown⟩ := h
  unfold shownUnder at hshown
  split at hshown
  · cases hshown
  · cases hshown
    rfl

theorem known_keys (m : Machine) (h : m.store.Filled) : m.dictionary.pairs.keys.Perm m.store.data.keys := by
  refine (List.perm_ext_iff_of_nodup Std.ExtTreeMap.nodup_keys Std.ExtTreeMap.nodup_keys).mpr fun key => ?_
  rw [GoMap.mem_keys_iff, GoMap.mem_keys_iff, ← Option.isSome_iff_exists, ← Option.isSome_iff_exists,
    dictionary_pairs, Option.isSome_map, h.known, Option.isSome_iff_exists]

theorem under_dictionary (m : Machine) (keyPrefix : Bytes) :
    m.dictionary.under keyPrefix = m.store.getPrefix keyPrefix := by
  refine Std.ExtTreeMap.ext_getElem? fun key => ?_
  unfold Dictionary.under getPrefix
  rw [Std.ExtTreeMap.getElem?_filterMap', Std.ExtTreeMap.getElem?_filterMap', dictionary_pairs]
  unfold versions
  cases m.store.data[key]? with
  | none => rfl
  | some entries =>
    cases hlast : entries.getLast? with
    | none => simp [hlast]
    | some entry => by_cases hdead : entry.tombstone <;> simp [hlast, shownUnder, hdead]

/-- Which lease a revocation removes, if any. -/
theorem revokedBy_dictionary (m : Machine) {cmd : Command} (hid : cmd.leaseID > 0) :
    m.revokedBy cmd =
      if m.dictionary.revokes cmd then m.leaseMgr.revokeLeaseLocked cmd.leaseID else (m.leaseMgr, []) := by
  unfold revokedBy Dictionary.revokes LeaseManager.revokeLeaseIfMatches LeaseManager.revokeLease
  rw [dictionary_leases]
  by_cases hat : cmd.expireAt > 0
  · have hat' : ¬cmd.expireAt ≤ 0 := by omega
    cases hlease : m.leaseMgr.leases[cmd.leaseID]? with
    | none => simp [hat, hat', hid]
    | some lease => by_cases heq : lease.expireAt = cmd.expireAt <;> simp [hat, hat', hid, heq]
  · have hat' : cmd.expireAt ≤ 0 := by omega
    simp [hat, hat', hid]

end Machine

namespace Legible
open KVStore
variable {m : Machine} (h : Legible m)
include h

theorem granted (ttl deadline : Int) :
    Machine.dictionary {m with leaseMgr := (m.leaseMgr.grantUntil ttl deadline).1} = m.dictionary.grant deadline ∧
      Tied {m with leaseMgr := (m.leaseMgr.grantUntil ttl deadline).1} := by
  have hc' := h.consistent.withLeases (h.consistent.numbered.grantUntil ttl deadline)
    fun id k => LeaseManager.holds_grantUntil
  obtain ⟨hpairs, htied⟩ := h.unmoved hc' (Appends.refl m.store)
    (show m.leaseMgr.leaseID ≤ m.leaseMgr.leaseID + 1 by omega)
    (fun id hid hsome => by
      rw [LeaseManager.grantUntil_leases, GoMap.get_insert, if_neg (by omega)] at hsome
      exact hsome)
    (fun id k => LeaseManager.holds_grantUntil_iff h.queued) rfl
  refine ⟨Dictionary.ext_get hpairs ?_ rfl, htied⟩
  intro id
  unfold Dictionary.grant
  rw [Machine.dictionary_leases, LeaseManager.grantUntil_leases, GoMap.get_insert, GoMap.get_insert,
    Machine.dictionary_leases]
  show _ = if m.leaseMgr.leaseID + 1 = id then _ else _
  split <;> rfl

theorem extended (id ttl deadline : Int) :
    Machine.dictionary {m with leaseMgr := (m.leaseMgr.keepAliveUntil id ttl deadline).1} =
        m.dictionary.extend id deadline ∧
      Tied {m with leaseMgr := (m.leaseMgr.keepAliveUntil id ttl deadline).1} := by
  have hc' := h.consistent.withLeases (h.consistent.numbered.keepAliveUntil id ttl deadline)
    fun id k => LeaseManager.holds_keepAliveUntil
  have hcounter := m.leaseMgr.keepAliveUntil_leaseID id ttl deadline
  obtain ⟨hpairs, htied⟩ := h.unmoved hc' (Appends.refl m.store) hcounter.ge
    (fun i _ hsome => by
      rw [LeaseManager.keepAliveUntil_leases] at hsome
      split at hsome
      · rwa [Option.isSome_map] at hsome
      · exact hsome)
    (fun i k => LeaseManager.holds_keepAliveUntil_iff) rfl
  refine ⟨Dictionary.ext_get hpairs ?_ hcounter, htied⟩
  intro i
  unfold Dictionary.extend
  rw [Machine.dictionary_leases, GoMap.get_modify, Machine.dictionary_leases, Machine.dictionary_leases]
  dsimp only
  rw [LeaseManager.keepAliveUntil_leases]
  by_cases hi : id = i
  · simp [hi, Function.comp_def]
  · simp [hi]

/-- A lock is released. -/
theorem dropped (id : Int) :
    Machine.dictionary {m with leaseMgr := (m.leaseMgr.revokeLease id).1} = m.dictionary.drop id ∧
      Tied {m with leaseMgr := (m.leaseMgr.revokeLease id).1} := by
  have hc' := h.consistent.withLeases (h.consistent.numbered.revokeLeaseLocked id)
    fun _ _ hk => (LeaseManager.holds_revokeLeaseLocked hk).1
  have hcounter := m.leaseMgr.revokeLeaseLocked_leaseID id
  have hleases := m.leaseMgr.revokeLeaseLocked_leases id
  unfold LeaseManager.revokeLease
  refine ⟨Dictionary.ext_get ?_ ?_ hcounter, h.tied.after hcounter.ge ?_⟩
  · intro k
    have hkeeper : Machine.keeper {m with leaseMgr := (m.leaseMgr.revokeLeaseLocked id).1} k =
        (m.keeper k).filter fun lease => lease != id := by
      refine Option.ext fun i => ?_
      rw [Machine.keeper_iff hc', Option.filter_eq_some_iff, Machine.keeper_iff h.consistent,
        LeaseManager.holds_revokeLeaseLocked_iff, bne_iff_ne]
    unfold Dictionary.drop
    rw [Machine.dictionary_pairs, Std.ExtTreeMap.getElem?_map, Machine.dictionary_pairs, hkeeper]
    show (m.store.versions k).getLast?.map _ = _
    cases (m.store.versions k).getLast? with
    | none => rfl
    | some entry => by_cases hdead : entry.tombstone <;> simp [Machine.shownUnder, hdead]
  · intro i
    unfold Dictionary.drop
    rw [Machine.dictionary_leases, GoMap.get_erase, Machine.dictionary_leases]
    dsimp only
    rw [hleases]
    split <;> rfl
  · intro k i hid
    refine Or.inr ⟨hid, fun hsome _ => ?_⟩
    dsimp only at hsome ⊢
    rw [hleases] at hsome
    split at hsome
    · cases hsome
    · rename_i hne
      exact ⟨hsome, fun hheld => LeaseManager.holds_revokeLeaseLocked_iff.mpr ⟨hheld, Ne.symm hne⟩⟩

/-! ### What each command answers -/

section Serves
variable (env : Env) {cmd : Command} (hc' : Consistent (m.execute env cmd).machine)
  (happ : m.store.Appends (m.execute env cmd).machine.store (m.appended cmd))

theorem unchanged (hsame : (m.execute env cmd).machine = m) :
    (m.execute env cmd).machine.dictionary = m.dictionary ∧ Tied (m.execute env cmd).machine := by
  rw [hsame]
  exact ⟨rfl, h.tied⟩

include hc' happ

theorem servesAttach (ht : cmd.type = .leaseAttach) (hknown : cmd.leaseID ≤ m.leaseMgr.leaseID) :
    (m.execute env cmd).machine.dictionary = (m.dictionary.serve cmd.revision cmd.expireAt cmd).1 ∧
      Tied (m.execute env cmd).machine := by
  simp only [Dictionary.serve, ht]
  by_cases hid : cmd.leaseID > 0
  · rw [if_pos hid]
    exact h.executeAttach env hc' happ ht hid hknown
  · rw [if_neg hid]
    exact h.unchanged env (by simp only [Machine.execute, ht, if_neg hid])

theorem servesRevoke (ht : cmd.type = .leaseRevoke) :
    (m.execute env cmd).machine.dictionary = (m.dictionary.serve cmd.revision cmd.expireAt cmd).1 ∧
      Tied (m.execute env cmd).machine := by
  simp only [Dictionary.serve, ht]
  by_cases hid : cmd.leaseID > 0
  · have hrevoked := m.revokedBy_dictionary hid
    by_cases hdoes : m.dictionary.revokes cmd = true
    · rw [if_pos hdoes] at hrevoked ⊢
      exact h.executeRevoke env hc' happ ht hid hrevoked
    · rw [if_neg hdoes] at hrevoked ⊢
      refine h.unchanged env ?_
      rw [Machine.execute_revoke m env ht, if_pos hid, hrevoked]
      rfl
  · have hdoes : ¬m.dictionary.revokes cmd = true := by
      unfold Dictionary.revokes
      simp [hid]
    rw [if_neg hdoes]
    exact h.unchanged env (by rw [Machine.execute_revoke m env ht, if_neg hid])

theorem servesCAS (ht : cmd.type = .cas) :
    ((m.execute env cmd).machine.dictionary, (m.execute env cmd).result) =
        m.dictionary.serve cmd.revision cmd.expireAt cmd ∧
      Tied (m.execute env cmd).machine := by
  have hiff := m.casMatches_dictionary cmd.key cmd.expectedRev
  simp only [Dictionary.serve, ht]
  by_cases hmatch : m.store.casMatches cmd.key cmd.expectedRev = true
  · obtain ⟨hview, htied⟩ := h.executeCAS env hc' happ ht hmatch
    obtain ⟨pair, hpair, heq, hlease⟩ := hiff.mp hmatch
    simp only [hpair, if_pos heq, hview, hlease]
    refine ⟨?_, htied⟩
    simp only [Machine.execute, ht, (m.casMatches_iff ht).mpr hmatch, if_true]
  · have happly : m.store.apply cmd = (m.store, .ok (ascii "CAS_FAILED")) := by
      simp only [KVStore.apply, ht, hmatch]
      rfl
    have hsame : m.execute env cmd = ⟨m, ascii "CAS_FAILED", []⟩ := by
      simp only [Machine.execute, ht, happly]
      rfl
    rw [hsame]
    refine ⟨?_, h.tied⟩
    cases hpair : m.dictionary.pair cmd.key with
    | none => rfl
    | some pair =>
      have hne : ¬pair.revision = cmd.expectedRev := fun heq =>
        hmatch (hiff.mpr ⟨pair, hpair, heq, m.pair_lease hpair⟩)
      simp only [if_neg hne]

end Serves

/-- What a command does to the machine and answers is what it does to the dictionary and answers
there. -/
theorem execute (env : Env) {cmd : Command} (hget : cmd.type ≠ .get)
    (hrev : cmd.type.writes = true → cmd.revision = m.currentRev ∧ m.store.currentRev < m.currentRev)
    (hknown : cmd.type = .put ∨ cmd.type = .leaseAttach → cmd.leaseID ≤ m.leaseMgr.leaseID) :
    ((m.execute env cmd).machine.dictionary, (m.execute env cmd).result) =
        m.dictionary.serve cmd.revision cmd.expireAt cmd ∧
      Tied (m.execute env cmd).machine := by
  have happ := Machine.execute_appends h.consistent env hrev
  have hc' := h.consistent.execute env fun hw => ⟨(hrev hw).1, by
    have := hrev hw
    have := h.consistent.counted
    omega⟩
  cases ht : cmd.type with
  | get => exact absurd ht hget
  | cas => exact h.servesCAS env hc' happ ht
  | leaseAttach =>
    obtain ⟨hview, htied⟩ := h.servesAttach env hc' happ ht (hknown (Or.inr ht))
    refine ⟨Prod.ext hview ?_, htied⟩
    simp only [Machine.execute, Dictionary.serve, ht]
    split <;> rfl
  | leaseRevoke =>
    obtain ⟨hview, htied⟩ := h.servesRevoke env hc' happ ht
    refine ⟨Prod.ext hview ?_, htied⟩
    simp only [Machine.execute, Dictionary.serve, ht]
    split <;> rfl
  | put =>
    obtain ⟨hview, htied⟩ := h.executePut env hc' happ ht (hknown (Or.inl ht))
    refine ⟨?_, htied⟩
    rw [hview]
    simp only [Machine.execute, Machine.executeDefault, Dictionary.serve, ht, KVStore.apply, Machine.textOf]
  | delete =>
    obtain ⟨hview, htied⟩ := h.executeDelete env hc' happ ht
    refine ⟨?_, htied⟩
    rw [hview]
    simp only [Machine.execute, Machine.executeDefault, Dictionary.serve, ht, KVStore.apply, Machine.textOf]
  | deletePrefix =>
    obtain ⟨hview, htied⟩ := h.executePrefix env hc' happ ht
    refine ⟨?_, htied⟩
    have hcount := ((m.known_keys h.filled).filter fun key => hasPrefix key cmd.keyPrefix).length_eq
    rw [hview]
    simp only [Machine.execute, Dictionary.serve, ht]
    rw [hcount]
    rfl
  | leaseGrant =>
    obtain ⟨hview, htied⟩ := h.granted (Machine.defaultTTL cmd.ttl) cmd.expireAt
    simp only [Machine.execute, Dictionary.serve, ht]
    rw [hview]
    exact ⟨rfl, htied⟩
  | leaseKeepAlive =>
    obtain ⟨hview, htied⟩ := h.extended cmd.leaseID (Machine.defaultTTL cmd.ttl) cmd.expireAt
    simp only [Machine.execute, Dictionary.serve, ht]
    rw [hview, Machine.dictionary_leases, Option.isSome_map]
    refine ⟨?_, htied⟩
    unfold LeaseManager.keepAliveUntil
    cases m.leaseMgr.leases[cmd.leaseID]? <;> rfl
  | getPrefix =>
    simp only [Machine.execute, Dictionary.serve, ht, m.under_dictionary]
    exact ⟨trivial, h.tied⟩
  | other n hn =>
    have happly : m.store.apply cmd = (m.store, .error "unknown command type") := by
      simp only [KVStore.apply, ht]
    have hsame : m.execute env cmd = ⟨m, [], [cmd]⟩ := by
      simp only [Machine.execute, Machine.executeDefault, ht, happly, reduceCtorEq, or_self, and_false, if_false]
      rfl
    rw [hsame]
    simp only [Dictionary.serve, ht]
    exact ⟨trivial, h.tied⟩

end Legible

/-! ### The command before it is numbered -/

namespace Dictionary

/-- Only a write looks at the revision. -/
theorem serve_revision (d : Dictionary) {cmd : Command} (h : cmd.type.writes = false) (r r' deadline : Int) :
    d.serve r deadline cmd = d.serve r' deadline cmd := by
  unfold serve
  cases ht : cmd.type with
  | put | cas | leaseAttach =>
    rw [ht] at h
    cases h
  | _ => rfl

/-- Numbering a command and giving it an expiry does not change what it asks for. -/
theorem serve_fill (d : Dictionary) (m : Machine) (now : Nat) (cmd : Command) (r deadline : Int) :
    d.serve r deadline (m.fill now cmd).2 = d.serve r deadline cmd := by
  obtain ⟨hkey, hvalue, hid, _, hexpected, hprefix⟩ := m.fill_fields now cmd
  have hexpire : cmd.type = .leaseRevoke → (m.fill now cmd).2.expireAt = cmd.expireAt := by
    intro ht
    simp [Machine.fill, Machine.numbered, Machine.timed, ht, CommandType.writes]
  unfold serve
  rw [Machine.fill_type, hkey, hvalue, hid, hexpected, hprefix]
  cases ht : cmd.type with
  | leaseRevoke =>
    unfold revokes
    rw [hexpire ht, hid]
  | _ => rfl

theorem step_command {d d' : Dictionary} {cmd : Command} {revision deadline : Int} {reply : Bytes}
    (hnew : d.above revision = true) (hdeadline : 0 < cmd.expireAt → deadline = cmd.expireAt)
    (hserve : d.serve revision deadline cmd = (d', reply)) :
    step (.command cmd revision deadline (.ok reply)) d = some d' := by
  show (if _ ∧ _ ∧ (d.serve revision deadline cmd).2 = reply then some (d.serve revision deadline cmd).1
    else none) = some d'
  rw [hserve, if_pos ⟨hnew, hdeadline, rfl⟩]

theorem above_iff (d : Dictionary) (r : Int) :
    d.above r = true ↔ ∀ key pair, d.pair key = some pair → pair.revision < r := by
  unfold above pair
  rw [List.all_eq_true]
  constructor
  · intro h key pair hpair
    have hentry := h (key, some pair) (Std.ExtTreeMap.mem_toList_iff_getElem?_eq_some.mpr (Option.join_eq_some_iff.mp hpair))
    simpa using hentry
  · rintro h ⟨key, pair⟩ hentry
    have hget := Std.ExtTreeMap.mem_toList_iff_getElem?_eq_some.mp hentry
    cases pair with
    | none => rfl
    | some pair =>
      have hlt := h key pair (by rw [hget]; rfl)
      simpa using hlt

end Dictionary

/-! ### A life -/

namespace Node

def dictionary (s : Node) : Dictionary := s.server.machine.dictionary

/-- What an action does to the dictionary. -/
def move (action : Action) (s : Node) : Dictionary.Move :=
  match action with
  | .deliver d =>
    .command d.cmd (s.server.machine.currentRev + 1) (s.server.machine.fill d.env.now d.cmd).2.expireAt
      (s.server.applyLoop d).reply
  | .acquire now key ttl _ =>
    if s.lockMgr.held key then .idle else .grant (Machine.expiryFrom now (Machine.defaultTTL ttl))
  | .release key leaseID ownerID =>
    if s.locks[key]? = some ⟨leaseID, ownerID⟩ then .drop leaseID else .idle
  | .renew now leaseID ttl => .extend leaseID (Machine.expiryFrom now (Machine.defaultTTL ttl))
  | .getLockStatus _ => .idle

/-- A write names a lease that has been granted, if any; and there is no `CmdGet`, which
the loop does not get to execute. -/
def Heeds : Action → Node → Prop
  | .deliver d, s => d.cmd.type ≠ .get ∧
      (d.cmd.type = .put ∨ d.cmd.type = .leaseAttach → d.cmd.leaseID ≤ s.leaseMgr.leaseID)
  | _, _ => True

instance : (action : Action) → (s : Node) → Decidable (Heeds action s)
  | .deliver d, s => inferInstanceAs (Decidable (d.cmd.type ≠ .get ∧
      (d.cmd.type = .put ∨ d.cmd.type = .leaseAttach → d.cmd.leaseID ≤ s.leaseMgr.leaseID)))
  | .acquire _ _ _ _, _ => .isTrue trivial
  | .release _ _ _, _ => .isTrue trivial
  | .renew _ _ _, _ => .isTrue trivial
  | .getLockStatus _, _ => .isTrue trivial

end Node

theorem Legible.fresh : Legible Machine.fresh where
  consistent := Consistent.fresh
  bound := Bound.fresh
  queued := LeaseManager.Queued.newLeaseManager
  filled := by
    intro key entries h
    simp [Machine.fresh, KVStore.newKVStore] at h
  bounded := by
    intro key entry h
    simp [Machine.fresh, KVStore.newKVStore, KVStore.versions] at h
  tied := by
    refine ⟨?_, ?_⟩ <;>
    · intro key id h
      simp [Machine.fresh, KVStore.newKVStore] at h

/-- Versions that are appended are numbered up to the counter. -/
theorem KVStore.Appends.bounded {kv kv' : KVStore} {log : List (Bytes × VersionEntry)} (happ : kv.Appends kv' log)
    (h : ∀ (key : Bytes) (entry : VersionEntry), entry ∈ kv.versions key → entry.revision ≤ kv.currentRev)
    (key : Bytes) (entry : VersionEntry) (hentry : entry ∈ kv'.versions key) : entry.revision ≤ kv'.currentRev := by
  rw [happ.grown, List.mem_append] at hentry
  rcases hentry with hold | hnew
  · exact (h key entry hold).trans happ.le
  · exact (happ.within _ (Versions.mem_ofKey.mp hnew)).2

/-- Whatever it answers, a release by the owner leaves no lease. -/
theorem LockManager.release_removes (lm : LockManager) {key ownerID : Bytes} {leaseID : Int}
    (h : lm.locks[key]? = some ⟨leaseID, ownerID⟩) :
    (lm.release key leaseID ownerID).1.leaseMgr = (lm.leaseMgr.revokeLease leaseID).1 := by
  rw [lm.release_owned key ownerID h]
  cases hlease : lm.leaseMgr.leases[leaseID]? with
  | none => simp [LeaseManager.revokeLease, LeaseManager.revokeLeaseLocked, hlease]
  | some lease =>
    dsimp only
    split <;> rfl

namespace Legible
open KVStore

theorem fill {m : Machine} (h : Legible m) (now : Nat) (cmd : Command) : Legible (m.fill now cmd).1 := by
  have hstore := m.fill_store now cmd
  have hle := m.fill_leaseMgr now cmd
  refine ⟨h.consistent.fill now cmd, ?_, hle ▸ h.queued, hstore ▸ h.filled, hstore ▸ h.bounded, ?_⟩
  · exact h.bound.sameStore hstore fun id key value hk => by
      rw [hle] at hk
      exact hk
  · refine ⟨?_, ?_⟩
    · rw [hstore, hle]
      exact h.tied.known
    · rw [hstore, hle]
      exact h.tied.attached

/-- Every live key is older than the next revision. -/
theorem above {m : Machine} (h : Legible m) : m.dictionary.above (m.currentRev + 1) = true := by
  rw [Dictionary.above_iff]
  intro key pair hpair
  have hahead := h.consistent.ahead
  rw [Machine.dictionary_pair, Option.bind_eq_some_iff] at hpair
  obtain ⟨entry, hlast, hshown⟩ := hpair
  have hbounded := h.bounded key entry (List.mem_of_getLast? hlast)
  unfold Machine.shownUnder at hshown
  split at hshown
  · cases hshown
  · cases hshown
    show entry.revision < m.currentRev + 1
    omega

/-- One iteration of the loop. -/
theorem applyLoop {s : Server} (h : Legible s.machine) (d : Delivery) (hget : d.cmd.type ≠ .get)
    (hknown : d.cmd.type = .put ∨ d.cmd.type = .leaseAttach → d.cmd.leaseID ≤ s.machine.leaseMgr.leaseID) :
    Tied (s.applyLoop d).server.machine ∧ (s.applyLoop d).server.machine.store.Filled ∧
      Dictionary.step (.command d.cmd (s.machine.currentRev + 1) (s.machine.fill d.env.now d.cmd).2.expireAt
        (s.applyLoop d).reply) s.machine.dictionary = some (s.applyLoop d).server.machine.dictionary := by
  have hfill := h.fill d.env.now d.cmd
  have habove := @Server.fill_above s.machine h.consistent d.env.now d.cmd
  have htype := s.machine.fill_type d.env.now d.cmd
  obtain ⟨_, _, hid, _⟩ := s.machine.fill_fields d.env.now d.cmd
  rcases s.applyLoop_cases d with ⟨_, failure, heq⟩ | ⟨_, outcome, rfl, heq⟩
  · rw [heq]
    exact ⟨hfill.tied, hfill.filled, congrArg some (s.machine.fill_dictionary d.env.now d.cmd).symm⟩
  · rw [heq]
    obtain ⟨hserved, htied⟩ := hfill.execute d.env (htype ▸ hget) habove
      (by rw [htype, hid, Machine.fill_leaseMgr]; exact hknown)
    refine ⟨htied, Machine.execute_filled hfill.filled _ _, ?_⟩
    -- the revision that the loop has filled in is the one after the counter
    have hsame : s.machine.dictionary.serve (s.machine.currentRev + 1)
        (s.machine.fill d.env.now d.cmd).2.expireAt d.cmd =
        (s.machine.fill d.env.now d.cmd).1.dictionary.serve (s.machine.fill d.env.now d.cmd).2.revision
          (s.machine.fill d.env.now d.cmd).2.expireAt (s.machine.fill d.env.now d.cmd).2 := by
      rw [Dictionary.serve_fill, Machine.fill_dictionary]
      by_cases hw : d.cmd.type.writes = true
      · rw [(habove (htype ▸ hw)).1]
        simp only [Machine.fill, Machine.numbered, if_pos hw]
      · exact Dictionary.serve_revision _ (Bool.not_eq_true _ ▸ hw) _ _ _
    exact Dictionary.step_command h.above (Machine.fill_expireAt _ _) (hsame.trans hserved.symm)

/-- What a lock call leaves of the leases is what its move leaves of the dictionary. -/
theorem lockCall {s t : Node} {action : Node.Action} (h : Legible s.server.machine)
    (hs : Node.step action s = some t) (hcall : ∀ d, action ≠ .deliver d) :
    ∃ lm : LockManager, t = s.withLocks lm ∧ Tied {s.server.machine with leaseMgr := lm.leaseMgr} ∧
      Dictionary.step (s.move action) s.dictionary =
        some (Machine.dictionary {s.server.machine with leaseMgr := lm.leaseMgr}) := by
  cases action with
  | deliver d => exact absurd rfl (hcall d)
  | acquire now key ttl ownerID =>
    cases hs
    refine ⟨_, rfl, ?_⟩
    rcases s.lockMgr.acquire_cases key ownerID now ttl with ⟨hheld, heq⟩ | ⟨hfree, heq⟩
    · rw [heq, Node.move, if_pos hheld]
      exact ⟨h.tied, rfl⟩
    · obtain ⟨hview, htied⟩ := h.granted (Machine.defaultTTL ttl) (Machine.expiryFrom now (Machine.defaultTTL ttl))
      rw [heq, Node.move, if_neg (hfree ▸ Bool.false_ne_true)]
      exact ⟨htied, congrArg some hview.symm⟩
  | release key leaseID ownerID =>
    cases hs
    refine ⟨_, rfl, ?_⟩
    by_cases howned : s.locks[key]? = some ⟨leaseID, ownerID⟩
    · obtain ⟨hview, htied⟩ := h.dropped leaseID
      rw [s.lockMgr.release_removes howned, Node.move, if_pos howned]
      exact ⟨htied, congrArg some hview.symm⟩
    · rw [s.lockMgr.release_foreign key ownerID howned, Node.move, if_neg howned]
      exact ⟨h.tied, rfl⟩
  | renew now leaseID ttl =>
    cases hs
    obtain ⟨hview, htied⟩ := h.extended leaseID (Machine.defaultTTL ttl)
      (Machine.expiryFrom now (Machine.defaultTTL ttl))
    exact ⟨_, rfl, htied, congrArg some hview.symm⟩
  | getLockStatus key =>
    cases hs
    refine ⟨_, rfl, ?_⟩
    rw [s.lockMgr.getLockStatus_leaseMgr]
    exact ⟨h.tied, rfl⟩

/-- A step of the node is a step of the dictionary. -/
theorem nodeStep (action : Node.Action) (s t : Node) (h : Legible s.server.machine) (hheeds : Node.Heeds action s)
    (hs : Node.step action s = some t) :
    Legible t.server.machine ∧ Dictionary.step (s.move action) s.dictionary = some t.dictionary := by
  obtain ⟨hc, hb⟩ := Bound.nodeStep action s t ⟨h.consistent, h.bound⟩ hs
  have hq : t.server.machine.leaseMgr.Queued :=
    LeaseManager.Closed.nodeStep (fun op le le' _ h hs => LeaseManager.Queued.step op le le' h hs) h.queued hs
  by_cases hdeliver : ∃ d, action = .deliver d
  · obtain ⟨d, rfl⟩ := hdeliver
    cases hs
    obtain ⟨htied, hfilled, hstep⟩ := h.applyLoop d hheeds.1 hheeds.2
    exact ⟨⟨hc, hb, hq, hfilled, (Server.applyLoop_appends h.consistent d).bounded h.bounded, htied⟩, hstep⟩
  · -- a lock call leaves the store alone
    obtain ⟨lm, rfl, htied, hstep⟩ := h.lockCall hs fun d hd => hdeliver ⟨d, hd⟩
    exact ⟨⟨hc, hb, hq, h.filled, h.bounded, htied⟩, hstep⟩

end Legible

/-! ### What is read -/

/-- Everything that can be read from the store is in the dictionary, and the other way round. -/
structure KVStore.Shows (kv : KVStore) (d : Dictionary) : Prop where
  get : kv.currentRev ≤ KVStore.maxInt64 → ∀ key, kv.get key = ((d.pair key).map Pair.value).getD []
  keyExists : kv.currentRev ≤ KVStore.maxInt64 → ∀ key,
    (kv.keyExists key = true ↔ ∃ pair, d.pair key = some pair ∧ pair.value ≠ [])
  getPrefix : ∀ keyPrefix, kv.getPrefix keyPrefix = d.under keyPrefix
  keys : ∀ order : List Bytes → List Bytes, (∀ keys, (order keys).Perm keys) → (kv.keys order).Perm d.keys
  keysWithPrefix : ∀ order : List Bytes → List Bytes, (∀ keys, (order keys).Perm keys) → ∀ keyPrefix,
    (kv.keysWithPrefix order keyPrefix).Perm (d.keys.filter fun key => KVStore.hasPrefix key keyPrefix)
  size : kv.size = d.keys.length

namespace Legible
open KVStore
variable {m : Machine} (h : Legible m)
include h

/-- A read of the present finds the last version. -/
theorem get (hmax : m.store.currentRev ≤ maxInt64) (key : Bytes) :
    m.store.get key = ((m.dictionary.pair key).map Pair.value).getD [] := by
  unfold KVStore.get
  rw [getAtRevision_eq, if_pos rfl,
    Versions.asOf_all _ fun entry hentry => (h.bounded key entry hentry).trans hmax, Machine.dictionary_pair]
  cases (m.store.versions key).getLast? with
  | none => rfl
  | some entry => by_cases hdead : entry.tombstone <;> simp [shown, Machine.shownUnder, hdead]

theorem keys {order : List Bytes → List Bytes} (horder : ∀ keys, (order keys).Perm keys) :
    (m.store.keys order).Perm m.dictionary.keys := by
  have hknown := (horder m.store.data.keys).trans (m.known_keys h.filled).symm
  have hlive : m.store.live = fun key => (m.dictionary.pair key).isSome := funext m.live_dictionary
  unfold KVStore.keys Dictionary.keys
  rw [hlive]
  exact hknown.filter _

theorem shows : m.store.Shows m.dictionary where
  get := h.get
  keyExists := by
    intro hmax key
    unfold KVStore.keyExists
    rw [h.get hmax, bne_iff_ne]
    cases m.dictionary.pair key with
    | none => simp
    | some pair => simp
  getPrefix := fun keyPrefix => (m.under_dictionary keyPrefix).symm
  keys := fun order horder => h.keys horder
  keysWithPrefix := by
    intro order horder keyPrefix
    have hkeys := (h.keys horder).filter fun key => hasPrefix key keyPrefix
    unfold KVStore.keys at hkeys
    rw [List.filter_filter] at hkeys
    exact hkeys
  size := (h.keys (fun keys => List.Perm.refl keys)).length_eq

end Legible

/-- **A node serves a dictionary.** Whatever commands are committed and locks are
taken, in any order: each command has the result that it has on a dictionary to which the same
has been done, in which every write has a new revision; and all that can be read from the store
then is what the dictionary has. The results of the two prefix commands are computed but do
not reach the client, for the loop waits for itself when it sends them (`Locking`), and nothing is
executed after one of them; here a run goes on. -/
theorem Node.serves_dictionary (actions : List Node.Action) (s : Node)
    (hheeds : Along Node.step Node.Heeds Node.boot actions) (hs : run Node.step Node.boot actions = some s) :
    run Dictionary.step Dictionary.empty (observe Node.step (fun action s => s.move action) Node.boot actions) =
        some s.dictionary ∧
      s.store.Shows s.dictionary := by
  have hfresh : Node.boot.dictionary = Dictionary.empty := by decide
  have hlegible : Legible s.server.machine :=
    run_invariant (P := fun s : Node => Legible s.server.machine)
      (fun action s t h hrule hstep => (Legible.nodeStep action s t h hrule hstep).1) actions Node.boot s
      Legible.fresh hheeds hs
  refine ⟨?_, hlegible.shows⟩
  rw [← hfresh]
  exact run_refines (P := fun s : Node => Legible s.server.machine) Legible.nodeStep actions Node.boot s
    Legible.fresh hheeds hs

namespace Node

/-- Two keys under one lease, one of them changed, a lock, and the lease revoked. -/
def serving : List Action :=
  [granting 5, puttingUnder 1 [97] [1], puttingUnder 0 [98] [2], puttingUnder 1 [98] [3],
    .deliver ⟨Env.at 0, {Command.ofType .cas with key := [97], value := [4], expectedRev := 1}, none⟩,
    .acquire 0 [99] 5 [7], puttingUnder 2 [100] [5], .release [99] 2 [7], revoking 1]

/-- The key that was put under the lease of the lock is still there. -/
theorem serves_dictionary_lock :
    ∃ s, run step boot serving = some s ∧
      run Dictionary.step Dictionary.empty (observe step (fun action s => s.move action) boot serving) =
        some s.dictionary ∧
      s.store.get [97] = [] ∧ s.store.get [100] = [5] := by
  refine ⟨_, rfl, ?_⟩
  obtain ⟨hrun, hshows⟩ := serves_dictionary serving _ (by decide +kernel) rfl
  refine ⟨hrun, ?_, ?_⟩
  · rw [hshows.get (by decide +kernel)]
    decide +kernel
  · rw [hshows.get (by decide +kernel)]
    decide +kernel

end Node

end Wjetcd
