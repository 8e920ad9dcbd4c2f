import Wjetcd.Server.Exclusion

/-! The cleanup loop: expiry against renewal.

`cleanupExpiredLeases` looks at the root of the heap, and if that lease has expired it submits a
revocation. The revocation goes through the log, so any number of commands can be applied before
it, renewals of the same lease among them. It carries the expiry that was seen, and is
ignored if the lease has another one by then (`expiry_never_beats_renewal`).

A `Leader` is a node with two records beside it: what its cleanup loop has seen so far, and for
every lease the expiry that was set last, by the grant or by a renewal that was acknowledged.
Nothing is assumed about the clocks. -/
namespace Wjetcd
open Runs

/-! ### Who sets an expiry -/

namespace LeaseManager

/-- The leases that are left expire when they did. -/
def Dates (le le' : LeaseManager) : Prop :=
  ∀ (id : Int) (lease : Lease), le'.leases[id]? = some lease →
    ∃ old, le.leases[id]? = some old ∧ lease.expireAt = old.expireAt

theorem Dates.refl (le : LeaseManager) : Dates le le := fun _ lease h => ⟨lease, h, rfl⟩

theorem Dates.trans {a b c : LeaseManager} (h : Dates a b) (h' : Dates b c) : Dates a c := by
  intro id lease hc
  obtain ⟨mid, hb, hmid⟩ := h' id lease hc
  obtain ⟨old, ha, hold⟩ := h id mid hb
  exact ⟨old, ha, hmid.trans hold⟩

/-- Only a grant and a renewal set an expiry. -/
theorem dates_step {op : Op} {le le' : LeaseManager} (hs : step op le = some le')
    (hgrant : ∀ ttl expireAt, op ≠ .grantUntil ttl expireAt)
    (hkeep : ∀ id ttl expireAt, op ≠ .keepAliveUntil id ttl expireAt) : Dates le le' := by
  intro i lease hi
  rcases step_leases hs with ⟨ttl, expireAt, rfl⟩ | ⟨_, hsame | ⟨id, _, hall⟩ | ⟨id, f, hf, hall⟩⟩
  · exact absurd rfl (hgrant ttl expireAt)
  · rw [hsame] at hi
    exact ⟨lease, hi, rfl⟩
  · rw [hall] at hi
    split at hi
    · cases hi
    · exact ⟨lease, hi, rfl⟩
  · rcases hf with hf | ⟨ttl, expireAt, rfl, _⟩
    · rw [hall] at hi
      split at hi
      · obtain ⟨old, hold, rfl⟩ := Option.map_eq_some_iff.mp hi
        exact ⟨old, hold, (hf old).2⟩
      · exact ⟨lease, hi, rfl⟩
    · exact absurd rfl (hkeep id ttl expireAt)

/-- No other command does. -/
theorem Dates.execute {m : Machine} (env : Env) {cmd : Command} (hgrant : cmd.type ≠ .leaseGrant)
    (hkeep : cmd.type ≠ .leaseKeepAlive) : Dates m.leaseMgr (m.execute env cmd).machine.leaseMgr := by
  have hclosed : Closed (Op.Served cmd) (Dates m.leaseMgr) := by
    intro op le le' hop h hs
    refine h.trans (dates_step hs ?_ ?_)
    · rintro ttl expireAt rfl
      exact hgrant hop.1
    · rintro id ttl expireAt rfl
      exact hkeep hop.1
  exact hclosed.execute env (Dates.refl _)

/-- A grant dates the new lease. -/
theorem grantUntil_dates (le : LeaseManager) (ttl expireAt : Int) {id : Int} {lease : Lease}
    (h : (le.grantUntil ttl expireAt).1.leases[id]? = some lease) :
    (id = le.leaseID + 1 ∧ lease.expireAt = expireAt) ∨
      (id ≠ le.leaseID + 1 ∧ le.leases[id]? = some lease) := by
  rw [grantUntil_leases, GoMap.get_insert] at h
  split at h
  · rename_i hid
    cases h
    exact Or.inl ⟨hid.symm, rfl⟩
  · rename_i hid
    exact Or.inr ⟨Ne.symm hid, h⟩

/-- A renewal dates the lease it names, and says whether there is one. -/
theorem keepAliveUntil_dates (le : LeaseManager) (leaseId ttl expireAt : Int) {id : Int} {lease : Lease}
    (h : (le.keepAliveUntil leaseId ttl expireAt).1.leases[id]? = some lease) :
    (id = leaseId ∧ lease.expireAt = expireAt ∧ (le.keepAliveUntil leaseId ttl expireAt).2 = true) ∨
      (id ≠ leaseId ∧ le.leases[id]? = some lease) := by
  rw [keepAliveUntil_leases] at h
  split at h
  · rename_i hid
    subst hid
    obtain ⟨old, hold, rfl⟩ := Option.map_eq_some_iff.mp h
    refine Or.inl ⟨rfl, rfl, ?_⟩
    unfold keepAliveUntil
    rw [hold]
  · rename_i hid
    exact Or.inr ⟨Ne.symm hid, h⟩

end LeaseManager

namespace Node

/-- The lease and the expiry that an action sets: those of a grant, or of a renewal whose caller is
told that it went well. -/
def dated (s : Node) : Action → Option (Int × Int)
  | .deliver d =>
    match (s.server.applyLoop d).journaled with
    | none => none
    | some cmd =>
      match cmd.type with
      | .leaseGrant => some (s.leaseMgr.leaseID + 1, cmd.expireAt)
      | .leaseKeepAlive =>
        if (s.server.applyLoop d).reply = .ok (ascii "OK") then some (cmd.leaseID, cmd.expireAt) else none
      | _ => none
  | .acquire now key ttl ownerID =>
    (s.returned (.acquire now key ttl ownerID)).map fun lock =>
      (lock.2, Machine.expiryFrom now (Machine.defaultTTL ttl))
  | .renew now leaseID ttl =>
    match (s.lockMgr.renew now leaseID ttl).2 with
    | .ok _ => some (leaseID, Machine.expiryFrom now (Machine.defaultTTL ttl))
    | .error _ => none
  | _ => none

/-- A lease expires as the action says, or as before. -/
def DatedBy (s : Node) (set : Option (Int × Int)) (le : LeaseManager) : Prop :=
  ∀ (id : Int) (lease : Lease), le.leases[id]? = some lease →
    set = some (id, lease.expireAt) ∨
      ((∀ expireAt, set ≠ some (id, expireAt)) ∧
        ∃ old, s.leaseMgr.leases[id]? = some old ∧ lease.expireAt = old.expireAt)

theorem DatedBy.none {s : Node} {le : LeaseManager} (h : s.leaseMgr.Dates le) : DatedBy s none le :=
  fun id lease hl => Or.inr ⟨nofun, h id lease hl⟩

theorem DatedBy.grantUntil (s : Node) (ttl expireAt : Int) :
    DatedBy s (some (s.leaseMgr.leaseID + 1, expireAt)) (s.leaseMgr.grantUntil ttl expireAt).1 := by
  intro id lease hl
  rcases s.leaseMgr.grantUntil_dates _ _ hl with ⟨rfl, heq⟩ | ⟨hne, hold⟩
  · exact Or.inl (by rw [heq])
  · refine Or.inr ⟨?_, lease, hold, rfl⟩
    intro expireAt hset
    cases hset
    exact hne rfl

/-- A renewal sets something if its caller is told so. -/
theorem DatedBy.keepAliveUntil (s : Node) (leaseID ttl expireAt : Int) :
    DatedBy s
      (if (s.leaseMgr.keepAliveUntil leaseID ttl expireAt).2 then some (leaseID, expireAt) else Option.none)
      (s.leaseMgr.keepAliveUntil leaseID ttl expireAt).1 := by
  intro id lease hl
  rcases s.leaseMgr.keepAliveUntil_dates _ _ _ hl with ⟨rfl, heq, hkept⟩ | ⟨hne, hold⟩
  · rw [if_pos hkept, heq]
    exact Or.inl rfl
  · refine Or.inr ⟨?_, lease, hold, rfl⟩
    intro expireAt hset
    split at hset
    · cases hset
      exact hne rfl
    · cases hset

/-- What the loop executes. -/
theorem execute_dated (s : Node) (m : Machine) (hm : m.leaseMgr = s.leaseMgr) (env : Env) (cmd : Command) :
    DatedBy s
      (match cmd.type with
      | .leaseGrant => some (s.leaseMgr.leaseID + 1, cmd.expireAt)
      | .leaseKeepAlive =>
        if (m.execute env cmd).result = ascii "OK" then some (cmd.leaseID, cmd.expireAt) else .none
      | _ => .none)
      (m.execute env cmd).machine.leaseMgr := by
  have hother : cmd.type ≠ .leaseGrant → cmd.type ≠ .leaseKeepAlive →
      DatedBy s Option.none (m.execute env cmd).machine.leaseMgr := by
    intro hgrant hkeep
    exact DatedBy.none (hm ▸ LeaseManager.Dates.execute env hgrant hkeep)
  cases ht : cmd.type with
  | leaseGrant =>
    simp only [Machine.execute, ht, hm]
    exact DatedBy.grantUntil s _ _
  | leaseKeepAlive =>
    simp only [Machine.execute, ht, hm]
    have hkept := DatedBy.keepAliveUntil s cmd.leaseID (Machine.defaultTTL cmd.ttl) cmd.expireAt
    cases hok : (s.leaseMgr.keepAliveUntil cmd.leaseID (Machine.defaultTTL cmd.ttl) cmd.expireAt).2 with
    | true => simpa [hok] using hkept
    | false => simpa [hok, show ascii "ERROR" ≠ ascii "OK" by decide] using hkept
  | _ => exact hother (by simp [ht]) (by simp [ht])

theorem step_dated {action : Action} {s t : Node} (hs : step action s = some t) :
    DatedBy s (s.dated action) t.leaseMgr := by
  cases action with
  | deliver d =>
    cases hs
    show DatedBy s _ (s.server.applyLoop d).server.machine.leaseMgr
    have hfill : (s.server.machine.fill d.env.now d.cmd).1.leaseMgr = s.leaseMgr :=
      Machine.fill_leaseMgr ..
    rcases s.server.applyLoop_cases d with ⟨_, failure, heq⟩ | ⟨_, outcome, rfl, heq⟩
    · simp only [dated, heq]
      exact DatedBy.none (hfill ▸ LeaseManager.Dates.refl _)
    · have hexecuted := execute_dated s _ hfill d.env (s.server.machine.fill d.env.now d.cmd).2
      simp only [dated, heq, Except.ok.injEq]
      exact hexecuted
  | acquire now key ttl ownerID =>
    cases hs
    show DatedBy s _ (s.lockMgr.acquire now key ttl ownerID).1.leaseMgr
    rcases s.lockMgr.acquire_cases key ownerID now ttl with ⟨_, heq⟩ | ⟨_, heq⟩
    · simp only [dated, returned, heq]
      exact DatedBy.none (LeaseManager.Dates.refl _)
    · simp only [dated, returned, heq]
      exact DatedBy.grantUntil s _ _
  | release key leaseID ownerID =>
    cases hs
    refine DatedBy.none ?_
    show s.leaseMgr.Dates (s.lockMgr.release key leaseID ownerID).1.leaseMgr
    rcases s.lockMgr.release_leaseMgr key ownerID leaseID with heq | heq
    · rw [heq]
      exact LeaseManager.Dates.refl _
    · rw [heq]
      exact LeaseManager.dates_step (show LeaseManager.step (.revokeLease leaseID) s.leaseMgr = some _ from rfl)
        (by simp) (by simp)
  | renew now leaseID ttl =>
    cases hs
    have hkept := DatedBy.keepAliveUntil s leaseID (Machine.defaultTTL ttl)
      (Machine.expiryFrom now (Machine.defaultTTL ttl))
    cases hok : (s.leaseMgr.keepAliveUntil leaseID (Machine.defaultTTL ttl)
        (Machine.expiryFrom now (Machine.defaultTTL ttl))).2 with
    | true =>
      have hanswer : (s.lockMgr.renew now leaseID ttl).2 = .ok () := if_pos hok
      rw [if_pos hok] at hkept
      simp only [dated, hanswer]
      exact hkept
    | false =>
      have hanswer : (s.lockMgr.renew now leaseID ttl).2 = .error errLockExpired :=
        if_neg (Bool.eq_false_iff.mp hok)
      rw [if_neg (Bool.eq_false_iff.mp hok)] at hkept
      simp only [dated, hanswer]
      exact hkept
  | getLockStatus key =>
    cases hs
    refine DatedBy.none ?_
    show s.leaseMgr.Dates (s.lockMgr.getLockStatus key).1.leaseMgr
    rw [LockManager.getLockStatus_leaseMgr]
    exact LeaseManager.Dates.refl _

end Node

/-! ### The leader -/

/-- What the loop saw at the root of the heap, and when. -/
structure Observation where
  id : Int
  expireAt : Int
  now : Int
deriving Repr, DecidableEq

/-- `kv.Command{Type: kv.CmdLeaseRevoke, LeaseID: item.ID, ExpireAt: item.expireAt}` -/
def Observation.command (o : Observation) : Command :=
  {Command.ofType .leaseRevoke with leaseID := o.id, expireAt := o.expireAt}

structure Leader where
  node : Node
  observed : List Observation
  /-- The expiry of each lease as it was set last. -/
  set : GoMap Int Int

namespace Leader

def boot : Leader := ⟨Node.boot, [], ∅⟩

/-- The commands of the cleanup loop are delivered like all others. -/
inductive Action where
  | node (action : Node.Action)
  | observe (now : Int)

/-- One turn of the loop in `cleanupExpiredLeases`, up to `Submit`. -/
def observation (s : Leader) (now : Int) : Option Observation :=
  match s.node.leaseMgr.getExpiringLease with
  | none => none
  | some item => if item.expireAt > now then none else some ⟨item.id, item.expireAt, now⟩

def step (action : Action) (s : Leader) : Option Leader :=
  match action with
  | .node action =>
    (Node.step action s.node).map fun node =>
      {s with
        node := node
        set := match s.node.dated action with
          | none => s.set
          | some (id, expireAt) => s.set.insert id expireAt}
  | .observe now => some {s with observed := (s.observation now).toList ++ s.observed}

/-- No lease expires at 0 or before. -/
def Positive (s : Leader) : Prop :=
  ∀ (id : Int) (lease : Lease), s.node.leaseMgr.leases[id]? = some lease → 0 < lease.expireAt

instance (s : Leader) : Decidable s.Positive :=
  decidable_of_iff (∀ pair ∈ s.node.leaseMgr.leases.toList, 0 < pair.2.expireAt)
    ⟨fun h id lease hl => h (id, lease) (Std.ExtTreeMap.mem_toList_iff_getElem?_eq_some.mpr hl),
      fun h pair hp => h pair.1 pair.2 (Std.ExtTreeMap.mem_toList_iff_getElem?_eq_some.mp hp)⟩

/-- What the records say about the tables. -/
structure Kept (s : Leader) : Prop where
  queued : s.node.leaseMgr.Queued
  observed : ∀ o ∈ s.observed, 0 < o.expireAt ∧ o.expireAt ≤ o.now
  dated : ∀ (id : Int) (lease : Lease), s.node.leaseMgr.leases[id]? = some lease →
    s.set[id]? = some lease.expireAt

theorem Kept.boot : Kept boot where
  queued := LeaseManager.Queued.newLeaseManager
  observed := nofun
  dated id lease h := by
    have hnone : Node.boot.leaseMgr.leases[id]? = none := Std.ExtTreeMap.getElem?_empty
    replace h : Node.boot.leaseMgr.leases[id]? = some lease := h
    rw [hnone] at h
    cases h

/-- What the loop sees is a lease of the table that has expired. -/
theorem Kept.observation {s : Leader} (h : Kept s) (hpos : Positive s) {now : Int} {o : Observation}
    (ho : s.observation now = some o) : 0 < o.expireAt ∧ o.expireAt ≤ o.now := by
  have hroot := h.queued.expiring
  unfold Leader.observation at ho
  cases hitem : s.node.leaseMgr.getExpiringLease with
  | none =>
    rw [hitem] at ho
    cases ho
  | some item =>
    rw [hitem] at ho hroot
    obtain ⟨⟨lease, hlease, hexpiry⟩, _⟩ := hroot
    dsimp only at ho
    split at ho
    · cases ho
    · rename_i hexpired
      cases ho
      exact ⟨hexpiry ▸ hpos item.id lease hlease, not_lt.mp hexpired⟩

theorem Kept.step (action : Action) (s t : Leader) (h : Kept s) (hpos : Positive s)
    (hs : step action s = some t) : Kept t := by
  cases action with
  | observe now =>
    cases hs
    refine ⟨h.queued, ?_, h.dated⟩
    intro o ho
    rcases List.mem_append.mp ho with hnew | hold
    · exact h.observation hpos (Option.mem_toList.mp hnew)
    · exact h.observed o hold
  | node action =>
    obtain ⟨node, hnode, rfl⟩ := Option.map_eq_some_iff.mp hs
    refine ⟨?_, h.observed, ?_⟩
    · exact LeaseManager.Closed.nodeStep
        (fun op le le' _ hq hop => LeaseManager.Queued.step op le le' hq hop) h.queued hnode
    · intro id lease hl
      dsimp only
      rcases Node.step_dated hnode id lease hl with hset | ⟨hnot, old, hold, heq⟩
      · rw [hset]
        simp
      · rw [heq, ← h.dated id old hold]
        cases hset : s.node.dated action with
        | none => rfl
        | some pair =>
          have hne : pair.1 ≠ id := fun hid => hnot pair.2 (by rw [hset, ← hid])
          exact (GoMap.get_insert s.set pair.1 id pair.2).trans (if_neg hne)

/-- All that the command of an observation can do: remove the lease that was seen, if it
still expires when it did. -/
theorem cleanup_leases (s : Server) {o : Observation} (hpos : 0 < o.expireAt) (env : Env)
    (writeErr : Option String) (id : Int) :
    (s.applyLoop ⟨env, o.command, writeErr⟩).server.machine.leaseMgr.leases[id]? =
        s.machine.leaseMgr.leases[id]? ∨
      (id = o.id ∧ ∃ lease, s.machine.leaseMgr.leases[id]? = some lease ∧ lease.expireAt = o.expireAt) := by
  have hfill : s.machine.fill env.now o.command = (s.machine, o.command) := rfl
  rcases s.applyLoop_cases ⟨env, o.command, writeErr⟩ with ⟨_, failure, heq⟩ | ⟨_, outcome, rfl, heq⟩
  · left
    rw [heq]
    rfl
  · rw [heq]
    dsimp only
    rw [hfill, Machine.execute_revoke s.machine env rfl]
    split
    · rw [Machine.expireKeys_leaseMgr]
      have hrevoked : s.machine.revokedBy o.command =
          s.machine.leaseMgr.revokeLeaseIfMatches o.id o.expireAt := if_pos hpos
      rw [hrevoked]
      unfold LeaseManager.revokeLeaseIfMatches
      cases hlease : s.machine.leaseMgr.leases[o.id]? with
      | none => exact Or.inl rfl
      | some lease =>
        dsimp only
        split
        · exact Or.inl rfl
        · rename_i hmatch
          rw [LeaseManager.revokeLeaseLocked_leases]
          split
          · rename_i hid
            subst hid
            exact Or.inr ⟨rfl, lease, hlease, not_not.mp hmatch⟩
          · exact Or.inl rfl
    · exact Or.inl rfl

/-- **Expiry never beats a renewal.** Whatever was granted, renewed, attached and revoked before,
and however long ago the cleanup loop looked: if the command it submitted removes a lease, that
lease's expiry, which is the one that was set last, is not after the time of the look. A lease that
was renewed beyond that time stays as it is. -/
theorem expiry_never_beats_renewal (actions : List Action) (s : Leader)
    (hs : run step boot actions = some s) (hpos : Along step (fun _ s => s.Positive) boot actions)
    (o : Observation) (ho : o ∈ s.observed) (env : Env) (writeErr : Option String) (node : Node)
    (hnode : Node.step (.deliver ⟨env, o.command, writeErr⟩) s.node = some node)
    (id : Int) (lease : Lease) (hlease : s.node.leaseMgr.leases[id]? = some lease) :
    s.set[id]? = some lease.expireAt ∧
      (node.leaseMgr.leases[id]? = none → id = o.id ∧ lease.expireAt ≤ o.now) ∧
      ∀ expireAt, s.set[id]? = some expireAt → o.now < expireAt →
        node.leaseMgr.leases[id]? = some lease := by
  have hkept : Kept s := run_invariant Kept.step actions boot s Kept.boot hpos hs
  obtain ⟨hpositive, hexpired⟩ := hkept.observed o ho
  cases hnode
  have hdated := hkept.dated id lease hlease
  rcases cleanup_leases s.node.server hpositive env writeErr id with hsame | ⟨hid, seen, hseen, hmatch⟩
  · have hafter := hsame.trans hlease
    refine ⟨hdated, ?_, fun _ _ _ => hafter⟩
    intro hnone
    cases hafter.symm.trans hnone
  · have hsame : seen = lease := Option.some.inj (hseen.symm.trans hlease)
    subst hsame
    refine ⟨hdated, fun _ => ⟨hid, hmatch ▸ hexpired⟩, ?_⟩
    intro expireAt hset hlater
    rw [hdated] at hset
    cases hset
    omega

/-- Seen at time 5, when it expires, and renewed before the revocation arrives. -/
theorem expiry_never_beats_renewal_late :
    ∃ s node lease, run step boot
        [.node (.deliver ⟨Env.at 0, {Command.ofType .leaseGrant with expireAt := 5}, none⟩), .observe 5,
          .node (.deliver ⟨Env.at 5, {Command.ofType .leaseKeepAlive with leaseID := 1, expireAt := 9}, none⟩)] =
          some s ∧
      ⟨1, 5, 5⟩ ∈ s.observed ∧
      Node.step (.deliver ⟨Env.at 6, Observation.command ⟨1, 5, 5⟩, none⟩) s.node = some node ∧
      node.leaseMgr.leases[(1 : Int)]? = some lease := by
  refine ⟨_, _, ⟨1, 10, 9, ∅⟩, rfl, by decide, rfl, ?_⟩
  exact (expiry_never_beats_renewal
    [.node (.deliver ⟨Env.at 0, {Command.ofType .leaseGrant with expireAt := 5}, none⟩), .observe 5,
      .node (.deliver ⟨Env.at 5, {Command.ofType .leaseKeepAlive with leaseID := 1, expireAt := 9}, none⟩)]
    _ rfl (by decide) ⟨1, 5, 5⟩ (by decide) (Env.at 6) none _ rfl 1 ⟨1, 10, 9, ∅⟩ (by decide)).2.2 9
    (by decide) (by decide)

end Leader
end Wjetcd
