import Wjetcd.Server.Lock
import Wjetcd.Server.Persist
import Wjetcd.Server.Submit

/-! Lease times in 64 bits.

A time to live comes from a request and is any 64-bit number of seconds. Four places make an
expiry of it, `time.Now().UnixNano() + ttl*1e9`, in 64 bits and without a look at the size. A
sum that does not fit wraps around. If it comes out at 0 or below, it counts as not set: the
loop computes it again with the clock of its own node, and `Restore` refuses the lease.
`expiry_exact_iff` says that all is well exactly if the sum fits. -/
namespace Wjetcd
open Machine

/-- The exact sum, with the default for a time to live that is not positive. -/
def exactExpiry (now : Nat) (ttl : Int) : Int := now + defaultTTL ttl * 1000000000

/-- The expiries that the code computes at a time for a time to live. -/
inductive Computed (now : Nat) (ttl : Int) : Int → Prop where
  | submit (cmd : Command) (type : cmd.type = .leaseGrant ∨ cmd.type = .leaseKeepAlive)
      (requested : cmd.ttl = ttl) (unset : cmd.expireAt ≤ 0) :
      Computed now ttl (Submit.submitted now cmd).expireAt
  | applyLoop (m : Machine) (cmd : Command) (type : cmd.type = .leaseGrant ∨ cmd.type = .leaseKeepAlive)
      (requested : cmd.ttl = ttl) (unset : cmd.expireAt ≤ 0) :
      Computed now ttl (m.fill now cmd).2.expireAt
  | grant (le : LeaseManager) (lease : Lease)
      (granted : (le.grant now (defaultTTL ttl)).1.leases[(le.grant now (defaultTTL ttl)).2]? = some lease) :
      Computed now ttl lease.expireAt
  | keepAlive (le : LeaseManager) (id : Int) (lease : Lease)
      (renewed : (le.keepAlive now id (defaultTTL ttl)).2 = true)
      (found : (le.keepAlive now id (defaultTTL ttl)).1.leases[id]? = some lease) :
      Computed now ttl lease.expireAt

/-- `Restore` takes the entry, whatever stands before and after it in the snapshot. -/
def LeaseManager.Takes (entry : Lease) : Prop :=
  ∀ (built : Rebuilt) (rest : List Lease), built.leases.contains entry.id = false →
    rebuild built (entry :: rest) = rebuild
      { leases := built.leases.insert entry.id entry
        heap := built.heap ++ [⟨entry.id, entry.expireAt⟩]
        maxLeaseID := max entry.id built.maxLeaseID } rest

/-- What an expiry is used for: the loop of any node leaves it as it is, and so does recovery, and
a lease with it can be restored. -/
structure Sound (now : Nat) (ttl expireAt : Int) : Prop where
  late : exactExpiry now ttl ≤ expireAt
  positive : 0 < expireAt
  applied : ∀ (m : Machine) (now' : Nat) (cmd : Command), cmd.expireAt = expireAt →
    (m.fill now' cmd).2.expireAt = expireAt
  recovered : ∀ (env : Env) (cmd : Command), cmd.expireAt = expireAt → recoveredExpiry env cmd = expireAt
  restored : ∀ entry : Lease, entry.expireAt = expireAt → 0 < entry.id → 0 < entry.ttl →
    LeaseManager.Takes entry

/-! ### The four places compute the same -/

theorem Computed.eq {now : Nat} {ttl expireAt : Int} (h : Computed now ttl expireAt) :
    expireAt = expiryFrom now (defaultTTL ttl) := by
  cases h with
  | submit cmd type requested unset =>
    unfold Submit.submitted
    rw [if_pos type]
    dsimp only
    rw [if_pos unset, requested]
  | applyLoop m cmd type requested unset =>
    rw [m.fill_lease now type, timed_unset now type unset, requested]
  | grant le lease granted =>
    have hnew : (le.grant now (defaultTTL ttl)).1.leases[le.leaseID + 1]? =
        some ⟨le.leaseID + 1, defaultTTL ttl, expiryFrom now (defaultTTL ttl), ∅⟩ := by
      unfold LeaseManager.grant
      rw [LeaseManager.grantUntil_leases, GoMap.get_insert, if_pos rfl]
    cases granted.symm.trans hnew
    rfl
  | keepAlive le id lease _ found =>
    unfold LeaseManager.keepAlive at found
    rw [LeaseManager.keepAliveUntil_leases, if_pos rfl] at found
    obtain ⟨old, _, rfl⟩ := Option.map_eq_some_iff.mp found
    rfl

/-- There is always such an expiry: that of a request. -/
theorem Computed.request (now : Nat) (ttl : Int) :
    Computed now ttl (Submit.submitted now {Command.ofType .leaseGrant with ttl := ttl}).expireAt :=
  .submit _ (Or.inl rfl) rfl (le_refl _)

theorem LeaseManager.Takes.of_positive {entry : Lease} (hid : 0 < entry.id) (httl : 0 < entry.ttl)
    (hexpiry : 0 < entry.expireAt) : LeaseManager.Takes entry := by
  intro built rest hfree
  rw [LeaseManager.rebuild, if_neg (by omega), hfree, if_neg Bool.false_ne_true]

theorem exactExpiry_pos (now : Nat) (ttl : Int) : 0 < exactExpiry now ttl := by
  have hpos := defaultTTL_pos ttl
  unfold exactExpiry
  omega

/-- All that an expiry is used for follows from its size. -/
theorem Sound.of_le {now : Nat} {ttl expireAt : Int} (h : exactExpiry now ttl ≤ expireAt) :
    Sound now ttl expireAt := by
  have hpos : 0 < expireAt := lt_of_lt_of_le (exactExpiry_pos now ttl) h
  refine ⟨h, hpos, ?_, ?_, ?_⟩
  · rintro m now' cmd rfl
    exact m.fill_expireAt now' hpos
  · rintro env cmd rfl
    exact if_neg (not_le.mpr hpos)
  · rintro entry rfl hid httl
    exact LeaseManager.Takes.of_positive hid httl hpos

/-- A 64-bit number is below 2^63, so a sum beyond that is missed. -/
theorem exact_of_le {now : Nat} {ttl : Int} (h : exactExpiry now ttl ≤ expiryFrom now (defaultTTL ttl)) :
    exactExpiry now ttl < 2 ^ 63 := by
  have hbound : expiryFrom now (defaultTTL ttl) < ((2 ^ 64 : Nat) + 1) / 2 :=
    Int.bmod_lt (by decide)
  omega

/-- **The expiry of a lease is late enough, set for every node and accepted by `Restore`,
exactly if the sum fits in 64 bits**, and then it is the sum. -/
theorem expiry_exact_iff (now : Nat) (ttl : Int) :
    ((∀ expireAt, Computed now ttl expireAt → Sound now ttl expireAt) ↔ exactExpiry now ttl < 2 ^ 63) ∧
    ((∀ expireAt, Computed now ttl expireAt → exactExpiry now ttl ≤ expireAt) ↔
      exactExpiry now ttl < 2 ^ 63) ∧
    (exactExpiry now ttl < 2 ^ 63 → ∀ expireAt, Computed now ttl expireAt → expireAt = exactExpiry now ttl) := by
  have hexact : exactExpiry now ttl < 2 ^ 63 →
      ∀ expireAt, Computed now ttl expireAt → expireAt = exactExpiry now ttl := by
    intro hfits expireAt h
    rw [h.eq]
    exact expiryFrom_exact (defaultTTL_pos ttl) hfits
  have hlate : (∀ expireAt, Computed now ttl expireAt → exactExpiry now ttl ≤ expireAt) →
      exactExpiry now ttl < 2 ^ 63 := by
    intro h
    have hrequest := Computed.request now ttl
    exact exact_of_le (hrequest.eq ▸ h _ hrequest)
  refine ⟨⟨?_, ?_⟩, ⟨hlate, ?_⟩, hexact⟩
  · intro h
    exact hlate fun expireAt hc => (h expireAt hc).late
  · intro hfits expireAt h
    exact Sound.of_le (hexact hfits expireAt h).ge
  · intro hfits expireAt h
    exact (hexact hfits expireAt h).ge

/-- In November 2023 a lease is requested for 292 years. -/
theorem long_lease_wraps :
    ¬∀ (now : Nat) (ttl : Int), now < 2 ^ 63 → -2 ^ 63 ≤ ttl → ttl < 2 ^ 63 →
      ∀ expireAt, Computed now ttl expireAt → Sound now ttl expireAt := by
  intro h
  have hsound := h 1700000000000000000 9223372036 (by decide) (by decide) (by decide) _
    (Computed.request 1700000000000000000 9223372036)
  exact absurd hsound.positive (by decide)

end Wjetcd
