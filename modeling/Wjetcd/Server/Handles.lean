import Wjetcd.Server.Exclusion

/-! What a client can do with the handle of a lock.

`Release` revokes the lease first and decides afterwards whether it was there, from the keys that
the lease had. The lease of a lock rarely has any: then the caller is told that the lock has
expired, the lease is gone and the entry of the table stays (`release_exact_iff`).

A handle from before the last `Acquire` of its key is harmless. Its lease is gone, the number is
not used again, and both calls end at the missing lease, also a `KeepAlive` that had its check
before the key changed hands (`stale_handle_powerless`). -/
namespace Wjetcd
open Runs

/-! ### Releasing a lock -/

namespace LockManager

/-- The table has the lock under this lease and owner, and the lease exists. -/
def Owned (lm : LockManager) (key : Bytes) (leaseID : Int) (ownerID : Bytes) : Prop :=
  lm.locks[key]? = some ⟨leaseID, ownerID⟩ ∧ (lm.leaseMgr.leases[leaseID]?).isSome

/-- The call succeeds for the owner and takes both out; otherwise it changes nothing. -/
structure ReleaseExact (lm : LockManager) (key : Bytes) (leaseID : Int) (ownerID : Bytes) : Prop where
  returns : (lm.release key leaseID ownerID).2 = .ok () ↔ lm.Owned key leaseID ownerID
  locks : (lm.release key leaseID ownerID).2 = .ok () →
    (lm.release key leaseID ownerID).1.locks = lm.locks.erase key
  leases : (lm.release key leaseID ownerID).2 = .ok () →
    (lm.release key leaseID ownerID).1.leaseMgr.leases = lm.leaseMgr.leases.erase leaseID
  unchanged : ∀ e, (lm.release key leaseID ownerID).2 = .error e → (lm.release key leaseID ownerID).1 = lm

/-- The lease of the lock holds no key. -/
def Keyless (lm : LockManager) (key : Bytes) (leaseID : Int) (ownerID : Bytes) : Prop :=
  lm.locks[key]? = some ⟨leaseID, ownerID⟩ ∧ ∃ lease, lm.leaseMgr.leases[leaseID]? = some lease ∧ lease.keys = ∅

section Release
variable {lm : LockManager} {key ownerID : Bytes} {leaseID : Int}

theorem release_keyless (h : lm.Keyless key leaseID ownerID) :
    (lm.release key leaseID ownerID).2 = .error errLockExpired ∧
      (lm.release key leaseID ownerID).1.locks = lm.locks ∧
      (lm.release key leaseID ownerID).1.leaseMgr.leases = lm.leaseMgr.leases.erase leaseID := by
  obtain ⟨hinfo, lease, hlease, hkeys⟩ := h
  rw [lm.release_owned key ownerID hinfo, hlease]
  dsimp only
  rw [if_pos hkeys]
  exact ⟨rfl, rfl, lm.leaseMgr.revokeLeaseLocked_erase leaseID⟩

theorem Keyless.owned (h : lm.Keyless key leaseID ownerID) : lm.Owned key leaseID ownerID := by
  obtain ⟨hinfo, lease, hlease, _⟩ := h
  exact ⟨hinfo, by rw [hlease]; rfl⟩

/-- Whoever does not own the lock is refused. -/
theorem ReleaseExact.of_refused {e : String} (heq : lm.release key leaseID ownerID = (lm, .error e))
    (hforeign : ¬lm.Owned key leaseID ownerID) : lm.ReleaseExact key leaseID ownerID where
  returns := by
    rw [heq]
    exact ⟨nofun, fun h => absurd h hforeign⟩
  locks := by
    rw [heq]
    nofun
  leases := by
    rw [heq]
    nofun
  unchanged _ _ := by rw [heq]

/-- The owner succeeds, if the lease has keys. -/
theorem ReleaseExact.of_keys {lease : Lease} (hinfo : lm.locks[key]? = some ⟨leaseID, ownerID⟩)
    (hlease : lm.leaseMgr.leases[leaseID]? = some lease) (hkeys : lease.keys ≠ ∅) :
    lm.ReleaseExact key leaseID ownerID := by
  have heq := lm.release_owned key ownerID hinfo
  rw [hlease] at heq
  dsimp only at heq
  rw [if_neg hkeys] at heq
  constructor
  · rw [heq, Owned, hlease]
    simp [hinfo]
  · intro _
    rw [heq]
  · intro _
    rw [heq]
    exact lm.leaseMgr.revokeLeaseLocked_erase leaseID
  · rw [heq]
    nofun

end Release

/-- **Releasing is exact and atomic, exactly if the lease of the lock is not without keys.** If it
is, the owner is told that the lock has expired, the lease is gone and the entry stays. -/
theorem release_exact_iff (lm : LockManager) (key : Bytes) (leaseID : Int) (ownerID : Bytes) :
    (lm.ReleaseExact key leaseID ownerID ↔ ¬lm.Keyless key leaseID ownerID) ∧
    (lm.Keyless key leaseID ownerID →
      (lm.release key leaseID ownerID).2 = .error errLockExpired ∧
      (lm.release key leaseID ownerID).1.locks = lm.locks ∧
      (lm.release key leaseID ownerID).1.leaseMgr.leases = lm.leaseMgr.leases.erase leaseID) := by
  refine ⟨⟨?_, ?_⟩, release_keyless⟩
  · intro h hk
    have hok := h.returns.mpr hk.owned
    rw [(release_keyless hk).1] at hok
    cases hok
  · intro hk
    by_cases hinfo : lm.locks[key]? = some ⟨leaseID, ownerID⟩
    · cases hlease : lm.leaseMgr.leases[leaseID]? with
      | none =>
        have heq := lm.release_owned key ownerID hinfo
        rw [hlease] at heq
        exact ReleaseExact.of_refused heq fun h => by simp [Owned, hlease] at h
      | some lease =>
        exact ReleaseExact.of_keys hinfo hlease fun hempty => hk ⟨hinfo, lease, hlease, hempty⟩
    · exact ReleaseExact.of_refused (lm.release_foreign key ownerID hinfo) fun h => hinfo h.1

end LockManager

/-- A client that takes a lock and gives it back is told that the lock has expired. -/
theorem release_says_expired :
    ¬∀ (actions : List Node.Action) (s : Node), run Node.step Node.boot actions = some s →
      ∀ key leaseID ownerID, s.lockMgr.ReleaseExact key leaseID ownerID := by
  intro h
  have hexact := h [.acquire 1 (ascii "l") 10 (ascii "a")] _ rfl (ascii "l") 1 (ascii "a")
  exact absurd (hexact.returns.mpr ⟨by decide, by decide⟩) (by decide)

/-! ### Old handles -/

namespace LockManager

/-- `KeepAlive`: the check sees one state and the renewal, with the mutex given up in between,
another. -/
def keepAlive (checked lm : LockManager) (now : Nat) (key : Bytes) (leaseID : Int) (ownerID : Bytes)
    (ttl : Int) : LockManager × Except String Unit :=
  match checked.owns key leaseID ownerID with
  | .error e => (lm, .error e)
  | .ok _ => lm.renew now leaseID ttl

/-- The call returned an error and changed nothing. -/
def Refused (lm : LockManager) (result : LockManager × Except String Unit) : Prop :=
  result.1 = lm ∧ ∃ e, result.2 = .error e

section Gone
variable {lm : LockManager} {leaseID : Int} (h : lm.leaseMgr.leases[leaseID]? = none)
include h

theorem release_gone (key ownerID : Bytes) : lm.Refused (lm.release key leaseID ownerID) := by
  by_cases hinfo : lm.locks[key]? = some ⟨leaseID, ownerID⟩
  · rw [lm.release_owned key ownerID hinfo, h]
    exact ⟨rfl, _, rfl⟩
  · rw [lm.release_foreign key ownerID hinfo]
    exact ⟨rfl, _, rfl⟩

theorem renew_gone (now : Nat) (ttl : Int) : lm.Refused (lm.renew now leaseID ttl) := by
  unfold renew LeaseManager.keepAlive LeaseManager.keepAliveUntil
  rw [h]
  exact ⟨rfl, _, rfl⟩

/-- Whatever state the check saw. -/
theorem keepAlive_gone (checked : LockManager) (now : Nat) (key ownerID : Bytes) (ttl : Int) :
    lm.Refused (keepAlive checked lm now key leaseID ownerID ttl) := by
  unfold keepAlive
  cases checked.owns key leaseID ownerID with
  | error e => exact ⟨rfl, e, rfl⟩
  | ok _ => exact renew_gone h now ttl

end Gone
end LockManager

namespace Node

theorem run_ages {actions : List Action} {s t : Node} (hs : run step s actions = some t) :
    s.leaseMgr.Ages t.leaseMgr :=
  run_invariant_all (P := fun t : Node => s.leaseMgr.Ages t.leaseMgr)
    (fun _ _ _ h hs => h.trans (LeaseManager.Ages.nodeStep hs)) actions s t (LeaseManager.Ages.refl _) hs

/-- As long as the lease of a handle exists, the table has its entry. -/
def Guarded (key : Bytes) (leaseID : Int) (s : Node) : Prop :=
  leaseID ≤ s.leaseMgr.leaseID ∧
    ((s.leaseMgr.leases[leaseID]?).isSome → ∃ ownerID, s.locks[key]? = some ⟨leaseID, ownerID⟩)

theorem Guarded.step {key : Bytes} {leaseID : Int} (hpos : 0 < leaseID) (action : Action) (s t : Node)
    (h : Guarded key leaseID s) (hs : step action s = some t) : Guarded key leaseID t := by
  have hages := LeaseManager.Ages.nodeStep hs
  refine ⟨h.1.trans hages.counter, ?_⟩
  intro hafter
  have hbefore := hages.present leaseID h.1 hafter
  obtain ⟨ownerID, hlock⟩ := h.2 hbefore
  exact ⟨ownerID, lock_kept hs hpos hlock hbefore hafter⟩

/-- **A handle is powerless once another one has been returned for its key**, in any order of
lock calls, renewals and committed commands: its lease never exists again, and releasing or
renewing it is refused and changes neither table. -/
theorem stale_handle_powerless (before between after : List Action) (first second : Action)
    (s₁ t₁ s₂ t₂ u : Node) (key : Bytes) (id id' : Int)
    (hbefore : run step boot before = some s₁)
    (hfirst : step first s₁ = some t₁) (hid : s₁.returned first = some (key, id))
    (hbetween : run step t₁ between = some s₂)
    (hsecond : step second s₂ = some t₂) (hid' : s₂.returned second = some (key, id'))
    (hafter : run step t₂ after = some u) :
    u.leaseMgr.leases[id]? = none ∧
      (∀ k ownerID, u.lockMgr.Refused (u.lockMgr.release k id ownerID)) ∧
      ∀ (checked : LockManager) (now : Nat) (k ownerID : Bytes) (ttl : Int),
        u.lockMgr.Refused (LockManager.keepAlive checked u.lockMgr now k id ownerID ttl) := by
  obtain ⟨_, hnext, hlast, ownerID, hlock⟩ := returned_spec hfirst hid
  have hpos : 0 < id := by
    have hcounter : (0 : Int) ≤ s₁.leaseMgr.leaseID := (run_ages hbefore).counter
    omega
  have hguarded : Guarded key id s₂ :=
    run_invariant_all (Guarded.step hpos) between t₁ s₂ ⟨hlast.le, fun _ => ⟨ownerID, hlock⟩⟩ hbetween
  -- the second request found the lock free
  have hgone : s₂.leaseMgr.leases[id]? = none := by
    by_contra hne
    have hlive := Option.isSome_iff_ne_none.mpr hne
    obtain ⟨owner, hheld⟩ := hguarded.2 hlive
    obtain ⟨hfree, _⟩ := returned_spec hsecond hid'
    rw [held_of hpos hheld hlive] at hfree
    cases hfree
  have hages := (LeaseManager.Ages.nodeStep hsecond).trans (run_ages hafter)
  have hnever : u.leaseMgr.leases[id]? = none := hages.absent hguarded.1 hgone
  exact ⟨hnever, fun k owner => LockManager.release_gone hnever k owner,
    fun checked now k owner ttl => LockManager.keepAlive_gone hnever checked now k owner ttl⟩

/-- The lock changes hands after its lease was revoked; the first client, whose check went well
before that, renews nothing. -/
theorem stale_handle_powerless_check :
    ∃ s t u : Node, step (.acquire 1 (ascii "l") 10 (ascii "a")) boot = some s ∧
      run step s [.release (ascii "l") 1 (ascii "a")] = some t ∧
      step (.acquire 2 (ascii "l") 10 (ascii "b")) t = some u ∧
      s.lockMgr.owns (ascii "l") 1 (ascii "a") = .ok () ∧
      u.lockMgr.Refused (LockManager.keepAlive s.lockMgr u.lockMgr 3 (ascii "l") 1 (ascii "a") 10) := by
  refine ⟨_, _, _, rfl, rfl, rfl, by decide, ?_⟩
  have hstale := stale_handle_powerless [] [.release (ascii "l") 1 (ascii "a")] []
    (.acquire 1 (ascii "l") 10 (ascii "a")) (.acquire 2 (ascii "l") 10 (ascii "b")) boot _ _ _ _
    (ascii "l") 1 2 rfl rfl (by decide) rfl rfl (by decide) rfl
  exact hstale.2.2 _ 3 (ascii "l") (ascii "a") 10

end Node
end Wjetcd
