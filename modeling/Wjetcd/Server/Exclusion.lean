import Wjetcd.Server.Restart
import Wjetcd.Server.RoundTrip

/-! Who can hold a lock at the same time?

A lock is an entry in the table of the node that was asked for it, next to a lease in that
node's lease manager. Neither the table nor the grant of the lease goes through the log, and
the snapshot has the leases but not the table. `held_iff` says what `Acquire` therefore
checks: that no handle of this node, and of its life since the last restart, still has its
lease. So two handles of one key can both be good, and are then of different nodes or of
different lives (`lock_exclusion`). -/
namespace Wjetcd
open Runs

/-! ### Lease numbers are not used twice -/

namespace LeaseManager

/-- The counter does not go back, and no lease it has passed comes back. -/
structure Ages (le le' : LeaseManager) : Prop where
  counter : le.leaseID ≤ le'.leaseID
  present : ∀ id : Int, id ≤ le.leaseID → (le'.leases[id]?).isSome → (le.leases[id]?).isSome

theorem Ages.refl (le : LeaseManager) : Ages le le := ⟨le_refl _, fun _ _ h => h⟩

theorem Ages.trans {a b c : LeaseManager} (h : Ages a b) (h' : Ages b c) : Ages a c :=
  ⟨h.counter.trans h'.counter, fun id hid hc => h.present id hid (h'.present id (hid.trans h.counter) hc)⟩

/-- So a lease that is gone stays gone. -/
theorem Ages.absent {le le' : LeaseManager} (h : Ages le le') {id : Int} (hid : id ≤ le.leaseID)
    (hgone : le.leases[id]? = none) : le'.leases[id]? = none := by
  by_contra hback
  have hpresent := h.present id hid (Option.isSome_iff_ne_none.mpr hback)
  rw [hgone] at hpresent
  cases hpresent

theorem Fewer.ages {le le' : LeaseManager} (h : Fewer le le') : Ages le le' := by
  refine ⟨le_of_eq h.counter.symm, fun id _ hid => ?_⟩
  by_contra hno
  rw [h.absent id (Option.not_isSome_iff_eq_none.mp hno)] at hid
  cases hid

theorem ages_step {op : Op} {le le' : LeaseManager} (hs : step op le = some le') : Ages le le' := by
  by_cases hgrant : ∃ ttl expireAt, op = .grantUntil ttl expireAt
  · obtain ⟨ttl, expireAt, rfl⟩ := hgrant
    cases hs
    refine ⟨show le.leaseID ≤ le.leaseID + 1 by omega, fun i hi hl => ?_⟩
    rw [grantUntil_leases, GoMap.get_insert, if_neg (by omega)] at hl
    exact hl
  · exact (fewer_step hs fun ttl expireAt hop => hgrant ⟨ttl, expireAt, hop⟩).ages

theorem Ages.nodeStep {action : Node.Action} {s t : Node} (hs : Node.step action s = some t) :
    Ages s.leaseMgr t.leaseMgr :=
  Closed.nodeStep (P := Ages s.leaseMgr) (fun _ _ _ _ h hop => h.trans (ages_step hop)) (Ages.refl _) hs

/-- The loop of `Restore` makes leases of the entries only. -/
theorem rebuild_ids (entries : List Lease) : ∀ built result : Rebuilt,
    rebuild built entries = some result → ∀ id : Int, (result.leases[id]?).isSome →
      (built.leases[id]?).isSome ∨ id ∈ entries.map Lease.id := by
  induction entries with
  | nil =>
    intro built result h id hid
    cases h
    exact Or.inl hid
  | cons entry rest ih =>
    intro built result h id hid
    rw [rebuild] at h
    split at h
    · cases h
    · split at h
      · cases h
      · rcases ih _ result h id hid with hin | hin
        · rw [GoMap.get_insert] at hin
          split at hin
          · rename_i heq
            exact Or.inr (heq ▸ List.mem_cons_self)
          · exact Or.inl hin
        · exact Or.inr (List.mem_cons_of_mem _ hin)

/-- A restart keeps the counter and makes no lease. -/
theorem Ages.restored {m m' : Machine} (h : m.leaseMgr.Queued) {order : List Int → List Int}
    (hperm : ∀ ids, (order ids).Perm ids) (hm : Machine.restored (m.saved order) = some m') :
    Ages m.leaseMgr m'.leaseMgr ∧ m'.leaseMgr.Queued := by
  have hcounter := (Machine.restored_counters hm).1
  obtain ⟨store, _, hrest⟩ := Option.bind_eq_some_iff.mp hm
  obtain ⟨leaseMgr, hleases, rfl⟩ := Option.map_eq_some_iff.mp hrest
  rw [Machine.catchUp_leaseMgr] at hcounter ⊢
  refine ⟨⟨le_of_eq hcounter.symm, fun id _ hid => ?_⟩, Queued.restore hleases⟩
  obtain ⟨built, hbuilt, hdone⟩ := Option.bind_eq_some_iff.mp hleases
  split at hdone
  · cases hdone
  · cases hdone
    rcases rebuild_ids _ _ built hbuilt id hid with hin | hin
    · rw [Std.ExtTreeMap.getElem?_empty] at hin
      cases hin
    · -- the entries that were read have the ids of those that were written
      obtain ⟨entry, hentry, rfl⟩ := List.mem_map.mp hin
      obtain ⟨lease, hlease, rfl⟩ := List.mem_map.mp hentry
      rw [(mem_snapshot h hperm lease).mp hlease]
      rfl

end LeaseManager

/-! ### One node -/

namespace Node

/-- The handle that a request returns. -/
def returned (s : Node) : Action → Option (Bytes × Int)
  | .acquire now key ttl ownerID =>
    match (s.lockMgr.acquire now key ttl ownerID).2 with
    | .ok leaseID => some (key, leaseID)
    | .error _ => none
  | _ => none

/-- A handle comes with a new lease, and with the entry of the table. -/
theorem returned_spec {s t : Node} {action : Action} {key : Bytes} {leaseID : Int}
    (hs : step action s = some t) (h : s.returned action = some (key, leaseID)) :
    s.lockMgr.held key = false ∧ leaseID = s.leaseMgr.leaseID + 1 ∧ leaseID = t.leaseMgr.leaseID ∧
      ∃ ownerID, t.locks[key]? = some ⟨leaseID, ownerID⟩ := by
  cases action with
  | acquire now k ttl ownerID =>
    cases hs
    unfold returned at h
    rcases s.lockMgr.acquire_cases k ownerID now ttl with ⟨_, heq⟩ | ⟨hfree, heq⟩
    · simp only [heq] at h
      cases h
    · simp only [heq] at h ⊢
      cases h
      exact ⟨hfree, rfl, rfl, ownerID, by simp [withLocks]⟩
  | _ => cases h

/-- What a lock manager says about a lock under a lease that exists. -/
theorem held_of {s : Node} {key ownerID : Bytes} {leaseID : Int} (hpos : 0 < leaseID)
    (hlock : s.locks[key]? = some ⟨leaseID, ownerID⟩) (hlive : (s.leaseMgr.leases[leaseID]?).isSome) :
    s.lockMgr.held key = true := by
  unfold LockManager.held
  rw [show s.lockMgr.locks[key]? = some ⟨leaseID, ownerID⟩ from hlock]
  simp only [Bool.and_eq_true, decide_eq_true_eq]
  exact ⟨hpos, hlive⟩

/-- All an action can do to the table of locks: nothing, make an entry and return its handle,
or remove an entry whose lease is gone. -/
theorem step_locks {action : Action} {s t : Node} (hs : step action s = some t) :
    t.locks = s.locks ∨
    (∃ key info, s.lockMgr.held key = false ∧ s.returned action = some (key, LockInfo.leaseID info) ∧
      t.locks = s.locks.insert key info) ∨
    ∃ key info, s.locks[key]? = some info ∧ t.leaseMgr.leases[LockInfo.leaseID info]? = none ∧
      t.locks = s.locks.erase key := by
  cases action with
  | deliver d =>
    cases hs
    exact Or.inl rfl
  | acquire now key ttl ownerID =>
    cases hs
    rcases s.lockMgr.acquire_cases key ownerID now ttl with ⟨_, heq⟩ | ⟨hfree, heq⟩
    · rw [heq]
      exact Or.inl rfl
    · refine Or.inr (Or.inl ⟨key, ⟨s.lockMgr.leaseMgr.leaseID + 1, ownerID⟩, hfree, ?_, ?_⟩)
      · simp only [returned, heq]
      · rw [heq]
        rfl
  | release key leaseID ownerID =>
    cases hs
    rcases s.lockMgr.release_cases key ownerID leaseID with heq | ⟨hkey, heq | heq⟩
    · rw [heq]
      exact Or.inl rfl
    · rw [heq]
      exact Or.inl rfl
    · refine Or.inr (Or.inr ⟨key, ⟨leaseID, ownerID⟩, hkey, ?_, by rw [heq]; rfl⟩)
      rw [heq]
      show (s.leaseMgr.revokeLeaseLocked leaseID).1.leases[leaseID]? = none
      rw [LeaseManager.revokeLeaseLocked_leases, if_pos rfl]
  | renew now leaseID ttl =>
    cases hs
    exact Or.inl rfl
  | getLockStatus key =>
    cases hs
    rcases s.lockMgr.getLockStatus_cases key with heq | ⟨info, hkey, hgone, heq⟩
    · rw [heq]
      exact Or.inl rfl
    · refine Or.inr (Or.inr ⟨key, info, hkey, ?_, by rw [heq]; rfl⟩)
      rw [heq]
      exact hgone

/-- The entry of a lock stays as long as its lease does. -/
theorem lock_kept {action : Action} {s t : Node} (hs : step action s = some t) {key ownerID : Bytes}
    {leaseID : Int} (hpos : 0 < leaseID) (hlock : s.locks[key]? = some ⟨leaseID, ownerID⟩)
    (hbefore : (s.leaseMgr.leases[leaseID]?).isSome) (hafter : (t.leaseMgr.leases[leaseID]?).isSome) :
    t.locks[key]? = some ⟨leaseID, ownerID⟩ := by
  rcases step_locks hs with heq | ⟨k, info, hfree, _, heq⟩ | ⟨k, info, hk, hgone, heq⟩
  · rw [heq]
    exact hlock
  · have hne : k ≠ key := by
      rintro rfl
      rw [held_of hpos hlock hbefore] at hfree
      cases hfree
    rw [heq, GoMap.get_insert, if_neg hne]
    exact hlock
  · have hne : k ≠ key := by
      rintro rfl
      rw [hlock] at hk
      cases hk
      rw [hgone] at hafter
      cases hafter
    rw [heq, GoMap.get_erase, if_neg hne]
    exact hlock

/-- Entries come with handles. -/
theorem lock_from {action : Action} {s t : Node} (hs : step action s = some t) {key : Bytes}
    {info : LockInfo} (h : t.locks[key]? = some info) :
    s.locks[key]? = some info ∨ s.returned action = some (key, info.leaseID) := by
  rcases step_locks hs with heq | ⟨k, made, _, hreturned, heq⟩ | ⟨k, gone, _, _, heq⟩
  · rw [heq] at h
    exact Or.inl h
  · rw [heq, GoMap.get_insert] at h
    split at h
    · rename_i hk
      subst hk
      cases h
      exact Or.inr hreturned
    · exact Or.inl h
  · rw [heq, GoMap.get_erase] at h
    split at h
    · cases h
    · exact Or.inl h

end Node

/-! ### The cluster -/

/-- What a client has after a successful `Acquire`. The life is the number of restarts of the
node before. -/
structure Handle (n : Nat) where
  node : Fin n
  life : Nat
  key : Bytes
  leaseID : Int
deriving Repr, DecidableEq

/-- `handles` has every handle ever returned, the latest first. -/
structure Cluster (n : Nat) where
  nodes : Fin n → Node
  lives : Fin n → Nat
  handles : List (Handle n)

namespace Cluster
variable {n : Nat}

def boot : Cluster n := ⟨fun _ => Node.boot, fun _ => 0, []⟩

/-- A request to a node or a command committed there, or the node's restart. -/
inductive Action (n : Nat) where
  | node (i : Fin n) (action : Node.Action)
  | restart (i : Fin n) (order : List Int → List Int) (perm : ∀ ids, (order ids).Perm ids)

/-- The handle that a request to a node returns. -/
def issued (c : Cluster n) (i : Fin n) (action : Node.Action) : Option (Handle n) :=
  ((c.nodes i).returned action).map fun lock => ⟨i, c.lives i, lock.1, lock.2⟩

/-- `NewServer` restores the machine that was saved and makes a new lock manager. -/
def step (action : Action n) (c : Cluster n) : Option (Cluster n) :=
  match action with
  | .node i action =>
    (Node.step action (c.nodes i)).map fun node =>
      {c with
        nodes := Function.update c.nodes i node
        handles := (c.issued i action).toList ++ c.handles}
  | .restart i order _ =>
    (Machine.restored ((c.nodes i).server.machine.saved order)).map fun m =>
      {c with
        nodes := Function.update c.nodes i ⟨⟨m, none⟩, ∅⟩
        lives := Function.update c.lives i (c.lives i + 1)}

/-- The lease of a handle is still in the table of the node that granted it. -/
def Live (c : Cluster n) (h : Handle n) : Prop := ((c.nodes h.node).leaseMgr.leases[h.leaseID]?).isSome

instance (c : Cluster n) (h : Handle n) : Decidable (c.Live h) := inferInstanceAs (Decidable (_ = true))

/-- The handle is of the node's present life. -/
def Present (c : Cluster n) (h : Handle n) : Prop := h.life = c.lives h.node

/-- What a node's tables say about the handles it returned. -/
structure Recorded (c : Cluster n) : Prop where
  queued : ∀ i, (c.nodes i).leaseMgr.Queued
  counter : ∀ i, 0 ≤ (c.nodes i).leaseMgr.leaseID
  numbered : ∀ h ∈ c.handles, 0 < h.leaseID ∧ h.leaseID ≤ (c.nodes h.node).leaseMgr.leaseID
  lived : ∀ h ∈ c.handles, h.life ≤ c.lives h.node
  listed : ∀ h ∈ c.handles, c.Present h → c.Live h →
    ∃ ownerID, (c.nodes h.node).locks[h.key]? = some ⟨h.leaseID, ownerID⟩
  noted : ∀ (i : Fin n) (key : Bytes) (info : LockInfo), (c.nodes i).locks[key]? = some info →
    ⟨i, c.lives i, key, info.leaseID⟩ ∈ c.handles

theorem Recorded.boot : Recorded (boot : Cluster n) where
  queued _ := LeaseManager.Queued.newLeaseManager
  counter _ := le_refl _
  numbered := nofun
  lived := nofun
  listed := nofun
  noted i key info h := by
    have hnone : (Node.boot.locks)[key]? = none := Std.ExtTreeMap.getElem?_empty
    replace h : Node.boot.locks[key]? = some info := h
    rw [hnone] at h
    cases h

/-! ### One step -/

/-- No lease comes back, on any node. -/
theorem Recorded.ages {c c' : Cluster n} (hc : Recorded c) {action : Action n}
    (hs : step action c = some c') (j : Fin n) :
    (c.nodes j).leaseMgr.Ages (c'.nodes j).leaseMgr ∧ (c'.nodes j).leaseMgr.Queued := by
  cases action with
  | node i action =>
    obtain ⟨t, ht, rfl⟩ := Option.map_eq_some_iff.mp hs
    show (c.nodes j).leaseMgr.Ages (Function.update c.nodes i t j).leaseMgr ∧
      (Function.update c.nodes i t j).leaseMgr.Queued
    by_cases hj : j = i
    · subst hj
      rw [Function.update_self]
      exact ⟨LeaseManager.Ages.nodeStep ht, LeaseManager.Closed.nodeStep
        (fun op le le' _ h hs => LeaseManager.Queued.step op le le' h hs) (hc.queued j) ht⟩
    · rw [Function.update_of_ne hj]
      exact ⟨LeaseManager.Ages.refl _, hc.queued j⟩
  | restart i order perm =>
    obtain ⟨m, hm, rfl⟩ := Option.map_eq_some_iff.mp hs
    show (c.nodes j).leaseMgr.Ages (Function.update c.nodes i ⟨⟨m, none⟩, ∅⟩ j).leaseMgr ∧
      (Function.update c.nodes i ⟨⟨m, none⟩, ∅⟩ j).leaseMgr.Queued
    by_cases hj : j = i
    · subst hj
      rw [Function.update_self]
      exact LeaseManager.Ages.restored (hc.queued j) perm hm
    · rw [Function.update_of_ne hj]
      exact ⟨LeaseManager.Ages.refl _, hc.queued j⟩

theorem Recorded.live_before {c c' : Cluster n} (hc : Recorded c) {action : Action n}
    (hs : step action c = some c') {h : Handle n} (hh : h ∈ c.handles) (hlive : c'.Live h) : c.Live h :=
  (hc.ages hs h.node).1.present h.leaseID (hc.numbered h hh).2 hlive

/-- A handle is of the node and life that were asked, and has the node's latest lease. -/
theorem issued_spec {c : Cluster n} {i : Fin n} {action : Node.Action} {h : Handle n} {t : Node}
    (ht : Node.step action (c.nodes i) = some t) (hh : c.issued i action = some h) :
    h.node = i ∧ h.life = c.lives i ∧ (c.nodes i).lockMgr.held h.key = false ∧
      h.leaseID = (c.nodes i).leaseMgr.leaseID + 1 ∧ h.leaseID = t.leaseMgr.leaseID ∧
      ∃ ownerID, t.locks[h.key]? = some ⟨h.leaseID, ownerID⟩ := by
  obtain ⟨lock, hlock, rfl⟩ := Option.map_eq_some_iff.mp hh
  exact ⟨rfl, rfl, Node.returned_spec ht hlock⟩

theorem Recorded.node {c c' : Cluster n} (hc : Recorded c) {i : Fin n} {action : Node.Action}
    (hs : step (.node i action) c = some c') : Recorded c' := by
  have hages := hc.ages hs
  have hbefore : ∀ h ∈ c.handles, c'.Live h → c.Live h := fun h hh => hc.live_before hs hh
  obtain ⟨t, ht, rfl⟩ := Option.map_eq_some_iff.mp hs
  have hself : Function.update c.nodes i t i = t := Function.update_self ..
  have hcases : ∀ h ∈ (c.issued i action).toList ++ c.handles, c.issued i action = some h ∨ h ∈ c.handles := by
    intro h hh
    rcases List.mem_append.mp hh with hnew | hold
    · exact Or.inl (Option.mem_toList.mp hnew)
    · exact Or.inr hold
  refine ⟨fun j => (hages j).2, fun j => (hc.counter j).trans (hages j).1.counter, ?_, ?_, ?_, ?_⟩
  · intro h hh
    rcases hcases h hh with hnew | hold
    · obtain ⟨rfl, _, _, hnext, hlast, _⟩ := issued_spec ht hnew
      have hpos := hc.counter h.node
      refine ⟨by omega, ?_⟩
      show h.leaseID ≤ (Function.update c.nodes h.node t h.node).leaseMgr.leaseID
      rw [hself, hlast]
    · obtain ⟨hpos, hle⟩ := hc.numbered h hold
      exact ⟨hpos, hle.trans (hages h.node).1.counter⟩
  · intro h hh
    rcases hcases h hh with hnew | hold
    · obtain ⟨rfl, hlife, _⟩ := issued_spec ht hnew
      exact le_of_eq hlife
    · exact hc.lived h hold
  · intro h hh hpresent hlive
    show ∃ ownerID, (Function.update c.nodes i t h.node).locks[h.key]? = some ⟨h.leaseID, ownerID⟩
    rcases hcases h hh with hnew | hold
    · obtain ⟨hnode, _, _, _, _, hlock⟩ := issued_spec ht hnew
      rw [hnode, hself]
      exact hlock
    · have hlive' := hbefore h hold hlive
      obtain ⟨ownerID, hlock⟩ := hc.listed h hold hpresent hlive'
      refine ⟨ownerID, ?_⟩
      by_cases hi : h.node = i
      · subst hi
        rw [hself]
        replace hlive : ((Function.update c.nodes h.node t h.node).leaseMgr.leases[h.leaseID]?).isSome := hlive
        rw [hself] at hlive
        exact Node.lock_kept ht (hc.numbered h hold).1 hlock hlive' hlive
      · rw [Function.update_of_ne hi]
        exact hlock
  · intro j key info hlock
    replace hlock : (Function.update c.nodes i t j).locks[key]? = some info := hlock
    show _ ∈ (c.issued i action).toList ++ c.handles
    by_cases hj : j = i
    · subst hj
      rw [hself] at hlock
      rcases Node.lock_from ht hlock with hold | hnew
      · exact List.mem_append_right _ (hc.noted j key info hold)
      · have hissued : c.issued j action = some ⟨j, c.lives j, key, info.leaseID⟩ := by
          rw [issued, hnew]
          rfl
        exact List.mem_append_left _ (Option.mem_toList.mpr hissued)
    · rw [Function.update_of_ne hj] at hlock
      exact List.mem_append_right _ (hc.noted j key info hlock)

/-- After a restart the table of locks is empty, and no handle is of the new life. -/
theorem Recorded.restart {c c' : Cluster n} (hc : Recorded c) {i : Fin n} {order : List Int → List Int}
    {perm : ∀ ids, (order ids).Perm ids} (hs : step (.restart i order perm) c = some c') : Recorded c' := by
  have hages := hc.ages hs
  have hbefore : ∀ h ∈ c.handles, c'.Live h → c.Live h := fun h hh => hc.live_before hs hh
  obtain ⟨m, _, rfl⟩ := Option.map_eq_some_iff.mp hs
  refine ⟨fun j => (hages j).2, fun j => (hc.counter j).trans (hages j).1.counter, ?_, ?_, ?_, ?_⟩
  · intro h hh
    obtain ⟨hpos, hle⟩ := hc.numbered h hh
    exact ⟨hpos, hle.trans (hages h.node).1.counter⟩
  · intro h hh
    show h.life ≤ Function.update c.lives i (c.lives i + 1) h.node
    have hlived := hc.lived h hh
    by_cases hi : h.node = i
    · rw [hi, Function.update_self]
      rw [hi] at hlived
      omega
    · rw [Function.update_of_ne hi]
      exact hlived
  · intro h hh hpresent hlive
    replace hpresent : h.life = Function.update c.lives i (c.lives i + 1) h.node := hpresent
    show ∃ ownerID, (Function.update c.nodes i ⟨⟨m, none⟩, ∅⟩ h.node).locks[h.key]? =
      some ⟨h.leaseID, ownerID⟩
    by_cases hi : h.node = i
    · have hlived := hc.lived h hh
      rw [hi] at hlived
      rw [hi, Function.update_self] at hpresent
      omega
    · rw [Function.update_of_ne hi] at hpresent ⊢
      exact hc.listed h hh hpresent (hbefore h hh hlive)
  · intro j key info hlock
    replace hlock : (Function.update c.nodes i ⟨⟨m, none⟩, ∅⟩ j).locks[key]? = some info := hlock
    show ⟨j, Function.update c.lives i (c.lives i + 1) j, key, info.leaseID⟩ ∈ c.handles
    by_cases hj : j = i
    · rw [hj, Function.update_self] at hlock
      replace hlock : (∅ : GoMap Bytes LockInfo)[key]? = some info := hlock
      rw [Std.ExtTreeMap.getElem?_empty] at hlock
      cases hlock
    · rw [Function.update_of_ne hj] at hlock ⊢
      exact hc.noted j key info hlock

theorem Recorded.step (action : Action n) (c c' : Cluster n) (hc : Recorded c)
    (hs : step action c = some c') : Recorded c' := by
  cases action with
  | node i action => exact hc.node hs
  | restart i order perm => exact hc.restart hs

/-! ### Exclusion -/

/-- **`Acquire` refuses a lock exactly if** the node has returned a handle for the key in its
present life whose lease is still there. -/
theorem Recorded.held_iff {c : Cluster n} (hc : Recorded c) (i : Fin n) (key : Bytes) :
    (c.nodes i).lockMgr.held key = true ↔
      ∃ h ∈ c.handles, h.node = i ∧ h.key = key ∧ c.Present h ∧ c.Live h := by
  constructor
  · intro hheld
    unfold LockManager.held at hheld
    cases hlock : (c.nodes i).lockMgr.locks[key]? with
    | none =>
      rw [hlock] at hheld
      cases hheld
    | some info =>
      rw [hlock, Bool.and_eq_true] at hheld
      exact ⟨_, hc.noted i key info hlock, rfl, rfl, rfl, hheld.2⟩
  · rintro ⟨h, hh, rfl, rfl, hpresent, hlive⟩
    obtain ⟨ownerID, hlock⟩ := hc.listed h hh hpresent hlive
    exact Node.held_of (hc.numbered h hh).1 hlock hlive

/-- Not both good, unless of different nodes or lives. -/
def Apart (c : Cluster n) (h h' : Handle n) : Prop :=
  h.key = h'.key → c.Live h → c.Live h' → h.node ≠ h'.node ∨ h.life ≠ h'.life

theorem Apart.step (action : Action n) (c c' : Cluster n) (hc : Recorded c)
    (h : c.handles.Pairwise c.Apart) (hs : Cluster.step action c = some c') :
    c'.handles.Pairwise c'.Apart := by
  have hbefore : ∀ h ∈ c.handles, c'.Live h → c.Live h := fun h hh => hc.live_before hs hh
  have hold : c.handles.Pairwise c'.Apart := by
    refine h.imp_of_mem ?_
    intro a b ha hb hab hkey hla hlb
    exact hab hkey (hbefore a ha hla) (hbefore b hb hlb)
  cases action with
  | restart i order perm =>
    obtain ⟨m, _, rfl⟩ := Option.map_eq_some_iff.mp hs
    exact hold
  | node i action =>
    obtain ⟨t, ht, rfl⟩ := Option.map_eq_some_iff.mp hs
    cases hnew : c.issued i action with
    | none =>
      simp only [hnew] at hold ⊢
      exact hold
    | some a =>
      obtain ⟨rfl, hlife, hfree, _⟩ := issued_spec ht hnew
      simp only [hnew] at hold hbefore ⊢
      refine List.pairwise_cons.mpr ⟨?_, hold⟩
      -- a handle of this node and life would have been in the way
      intro b hb hkey _ hlb
      by_contra hsame
      push Not at hsame
      have hheld := (hc.held_iff a.node a.key).mpr
        ⟨b, hb, hsame.1.symm, hkey.symm, show b.life = c.lives b.node by rw [← hsame.1, ← hlife, hsame.2],
          hbefore b hb hlb⟩
      rw [hfree] at hheld
      cases hheld

theorem issued_acquire (c : Cluster n) (i : Fin n) (now : Nat) (key : Bytes) (ttl : Int) (ownerID : Bytes) :
    c.issued i (.acquire now key ttl ownerID) = none ↔ (c.nodes i).lockMgr.held key = true := by
  unfold issued Node.returned
  rcases (c.nodes i).lockMgr.acquire_cases key ownerID now ttl with ⟨hheld, heq⟩ | ⟨hfree, heq⟩
  · simp [heq, hheld]
  · simp [heq, hfree]

/-- **Two handles of one key whose leases both exist are of different nodes, or of
different lives of one node**, whatever requests the nodes serve, whatever is committed and
however often they restart; and `Acquire` returns no handle exactly if there is such a
handle of the node that is asked, in its present life. -/
theorem lock_exclusion (n : Nat) (actions : List (Action n)) (c : Cluster n)
    (hc : run step boot actions = some c) :
    c.handles.Pairwise c.Apart ∧
      ∀ i now key ttl ownerID, c.issued i (.acquire now key ttl ownerID) = none ↔
        ∃ h ∈ c.handles, h.node = i ∧ h.key = key ∧ c.Present h ∧ c.Live h := by
  obtain ⟨hrecorded, hapart⟩ := run_invariant_all
    (P := fun c : Cluster n => Recorded c ∧ c.handles.Pairwise c.Apart)
    (fun a c c' h hs => ⟨h.1.step a c c' hs, Apart.step a c c' h.1 h.2 hs⟩) actions boot c
    ⟨Recorded.boot, List.Pairwise.nil⟩ hc
  refine ⟨hapart, ?_⟩
  intro i now key ttl ownerID
  rw [issued_acquire]
  exact hrecorded.held_iff i key

/-- A client asks node `i` for the lock "l". -/
def locking (i : Fin n) (ownerID : Bytes) : Action n := .node i (.acquire 1 (ascii "l") 10 ownerID)

/-- The second of two clients that ask the same node gets no handle. -/
theorem lock_exclusion_one :
    ∃ c : Cluster 1, run step boot [locking 0 (ascii "a")] = some c ∧ c.handles.length = 1 ∧
      (c.issued 0 (.acquire 1 (ascii "l") 10 (ascii "b")) = none ↔
        ∃ h ∈ c.handles, h.node = 0 ∧ h.key = ascii "l" ∧ c.Present h ∧ c.Live h) := by
  refine ⟨_, rfl, rfl, ?_⟩
  exact (lock_exclusion 1 [locking 0 (ascii "a")] _ rfl).2 0 1 (ascii "l") 10 (ascii "b")

/-- Two nodes grant the same lock to two clients, and so does one node before and after a
restart. -/
theorem lock_held_twice :
    (¬∀ (actions : List (Action 2)) (c : Cluster 2), run step boot actions = some c →
      c.handles.Pairwise fun h h' => h.key = h'.key → ¬(c.Live h ∧ c.Live h')) ∧
    ¬∀ (actions : List (Action 1)) (c : Cluster 1), run step boot actions = some c →
      c.handles.Pairwise fun h h' => h.key = h'.key → ¬(c.Live h ∧ c.Live h') := by
  constructor
  · intro h
    have hpair := h [locking 0 (ascii "a"), locking 1 (ascii "b")] _ rfl
    exact absurd (List.pairwise_pair.mp hpair rfl) (by decide)
  · intro h
    have hpair := h [locking 0 (ascii "a"), .restart 0 id (fun ids => List.Perm.refl ids),
      locking 0 (ascii "b")] _ rfl
    exact absurd (List.pairwise_pair.mp hpair rfl) (by decide)

end Cluster
end Wjetcd
