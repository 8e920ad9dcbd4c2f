import Wjetcd.Server.Apply

/-! The lock manager of `server/lock.go`.

A lock is an entry of a local table and a lease in the server's lease manager.
Acquiring grants the lease directly, outside the replicated log. `KeepAlive` checks
the table under the lock manager's mutex and renews the lease after releasing it,
so its two halves are two functions. Acquisition times and the channels of
`TryAcquire` are left out: nothing reads them. -/
namespace Wjetcd

structure LockInfo where
  leaseID : Int
  ownerID : Bytes
deriving Repr, DecidableEq

/-- The table of locks beside the lease manager it shares with the server. -/
structure LockManager where
  locks : GoMap Bytes LockInfo
  leaseMgr : LeaseManager
deriving DecidableEq

def errLockNotHeld : String := "lock not held"
def errLockAlreadyHeld : String := "lock already held by another client"
def errLockExpired : String := "lock expired"

def LeaseManager.grant (le : LeaseManager) (now : Nat) (ttl : Int) : LeaseManager × Int :=
  le.grantUntil ttl (Machine.expiryFrom now ttl)

def LeaseManager.keepAlive (le : LeaseManager) (now : Nat) (leaseId ttl : Int) : LeaseManager × Bool :=
  le.keepAliveUntil leaseId ttl (Machine.expiryFrom now ttl)

namespace LockManager

/-- Somebody holds the lock under a lease that still exists. -/
def held (lm : LockManager) (key : Bytes) : Bool :=
  match lm.locks[key]? with
  | none => false
  | some info => decide (info.leaseID > 0) && (lm.leaseMgr.getLease info.leaseID).isSome

def acquire (lm : LockManager) (now : Nat) (key : Bytes) (ttl : Int) (ownerID : Bytes) :
    LockManager × Except String Int :=
  if lm.held key then (lm, .error errLockAlreadyHeld)
  else
    let granted := lm.leaseMgr.grant now (Machine.defaultTTL ttl)
    (⟨lm.locks.insert key ⟨granted.2, ownerID⟩, granted.1⟩, .ok granted.2)

def release (lm : LockManager) (key : Bytes) (leaseID : Int) (ownerID : Bytes) :
    LockManager × Except String Unit :=
  match lm.locks[key]? with
  | none => (lm, .error errLockNotHeld)
  | some info =>
    if info.leaseID ≠ leaseID then (lm, .error errLockNotHeld)
    else if info.ownerID ≠ ownerID then (lm, .error errLockNotHeld)
    else
      let revoked := lm.leaseMgr.revokeLease leaseID
      if revoked.2.length = 0 ∧ (revoked.1.getLease leaseID).isNone then
        ({lm with leaseMgr := revoked.1}, .error errLockExpired)
      else (⟨lm.locks.erase key, revoked.1⟩, .ok ())

/-- The check of `KeepAlive`. -/
def owns (lm : LockManager) (key : Bytes) (leaseID : Int) (ownerID : Bytes) : Except String Unit :=
  match lm.locks[key]? with
  | none => .error errLockNotHeld
  | some info =>
    if info.leaseID ≠ leaseID ∨ info.ownerID ≠ ownerID then .error errLockNotHeld else .ok ()

/-- Its renewal of the lease. -/
def renew (lm : LockManager) (now : Nat) (leaseID ttl : Int) : LockManager × Except String Unit :=
  let kept := lm.leaseMgr.keepAlive now leaseID (Machine.defaultTTL ttl)
  ({lm with leaseMgr := kept.1}, if kept.2 then .ok () else .error errLockExpired)

/-- An entry whose lease is gone is dropped on sight. -/
def getLockStatus (lm : LockManager) (key : Bytes) : LockManager × Bool × Int :=
  match lm.locks[key]? with
  | none => (lm, false, 0)
  | some info =>
    match lm.leaseMgr.getLease info.leaseID with
    | none => ({lm with locks := lm.locks.erase key}, false, 0)
    | some _ => (lm, true, info.leaseID)

/-! ### What a call can do -/

section Calls
variable (lm : LockManager) (key ownerID : Bytes)

/-- A lock that nobody holds is granted under a new lease. -/
theorem acquire_cases (now : Nat) (ttl : Int) :
    (lm.held key = true ∧ lm.acquire now key ttl ownerID = (lm, .error errLockAlreadyHeld)) ∨
    (lm.held key = false ∧ lm.acquire now key ttl ownerID =
      (⟨lm.locks.insert key ⟨lm.leaseMgr.leaseID + 1, ownerID⟩,
        (lm.leaseMgr.grant now (Machine.defaultTTL ttl)).1⟩, .ok (lm.leaseMgr.leaseID + 1))) := by
  unfold acquire
  cases hheld : lm.held key with
  | true => exact Or.inl ⟨rfl, rfl⟩
  | false => exact Or.inr ⟨rfl, rfl⟩

/-- A release by anybody but the owner is refused. -/
theorem release_foreign {leaseID : Int} (h : lm.locks[key]? ≠ some ⟨leaseID, ownerID⟩) :
    lm.release key leaseID ownerID = (lm, .error errLockNotHeld) := by
  unfold release
  cases hinfo : lm.locks[key]? with
  | none => rfl
  | some info =>
    dsimp only
    split
    · rfl
    rename_i hid
    split
    · rfl
    rename_i howner
    -- both comparisons went well
    rw [not_not] at hid howner
    subst hid howner
    exact absurd hinfo h

/-- A release by the owner succeeds if the lease had keys. -/
theorem release_owned {leaseID : Int} (h : lm.locks[key]? = some ⟨leaseID, ownerID⟩) :
    lm.release key leaseID ownerID =
      match lm.leaseMgr.leases[leaseID]? with
      | none => (lm, .error errLockExpired)
      | some lease =>
        if lease.keys = ∅ then ({lm with leaseMgr := (lm.leaseMgr.revokeLease leaseID).1}, .error errLockExpired)
        else (⟨lm.locks.erase key, (lm.leaseMgr.revokeLease leaseID).1⟩, .ok ()) := by
  unfold release
  rw [h]
  simp only [ne_eq, not_true, if_false]
  unfold LeaseManager.revokeLease LeaseManager.revokeLeaseLocked LeaseManager.getLease
  cases hlease : lm.leaseMgr.leases[leaseID]? with
  | none => simp [hlease]
  | some lease =>
    simp only [GoMap.get_erase, if_true, Option.isNone_none, and_true, List.length_eq_zero_iff,
      Std.ExtTreeMap.keys_eq_nil_iff]

/-- A release by the owner removes the lease of the lock; the entry of the table may stay. -/
theorem release_cases (leaseID : Int) :
    (lm.release key leaseID ownerID).1 = lm ∨
    lm.locks[key]? = some ⟨leaseID, ownerID⟩ ∧
      ((lm.release key leaseID ownerID).1 = {lm with leaseMgr := (lm.leaseMgr.revokeLease leaseID).1} ∨
       (lm.release key leaseID ownerID).1 = ⟨lm.locks.erase key, (lm.leaseMgr.revokeLease leaseID).1⟩) := by
  by_cases hinfo : lm.locks[key]? = some ⟨leaseID, ownerID⟩
  · rw [lm.release_owned key ownerID hinfo]
    cases lm.leaseMgr.leases[leaseID]? with
    | none => exact Or.inl rfl
    | some lease =>
      refine Or.inr ⟨hinfo, ?_⟩
      dsimp only
      split
      · exact Or.inl rfl
      · exact Or.inr rfl
  · rw [lm.release_foreign key ownerID hinfo]
    exact Or.inl rfl

theorem acquire_leaseMgr (now : Nat) (ttl : Int) :
    (lm.acquire now key ttl ownerID).1.leaseMgr = lm.leaseMgr ∨
      (lm.acquire now key ttl ownerID).1.leaseMgr = (lm.leaseMgr.grant now (Machine.defaultTTL ttl)).1 := by
  rcases lm.acquire_cases key ownerID now ttl with ⟨_, heq⟩ | ⟨_, heq⟩
  · exact Or.inl (by rw [heq])
  · exact Or.inr (by rw [heq])

theorem release_leaseMgr (leaseID : Int) :
    (lm.release key leaseID ownerID).1.leaseMgr = lm.leaseMgr ∨
      (lm.release key leaseID ownerID).1.leaseMgr = (lm.leaseMgr.revokeLease leaseID).1 := by
  rcases lm.release_cases key ownerID leaseID with heq | ⟨_, heq | heq⟩
  · exact Or.inl (by rw [heq])
  · exact Or.inr (by rw [heq])
  · exact Or.inr (by rw [heq])

/-- A status query drops the entry of a lock whose lease is gone. -/
theorem getLockStatus_cases :
    (lm.getLockStatus key).1 = lm ∨
    ∃ info, lm.locks[key]? = some info ∧ lm.leaseMgr.getLease info.leaseID = none ∧
      (lm.getLockStatus key).1 = {lm with locks := lm.locks.erase key} := by
  unfold getLockStatus
  cases hinfo : lm.locks[key]? with
  | none => exact Or.inl rfl
  | some info =>
    dsimp only
    cases hlease : lm.leaseMgr.getLease info.leaseID with
    | none => exact Or.inr ⟨info, rfl, hlease, rfl⟩
    | some lease => exact Or.inl rfl

@[simp] theorem getLockStatus_leaseMgr : (lm.getLockStatus key).1.leaseMgr = lm.leaseMgr := by
  rcases lm.getLockStatus_cases key with heq | ⟨_, _, _, heq⟩
  · rw [heq]
  · rw [heq]

end Calls

end LockManager
end Wjetcd
