import Wjetcd.Server.Cleanup
import Wjetcd.Server.Locking
import Wjetcd.Server.Serving

/-! The cleanup loop collects what has expired, and nothing else.

`cleanupExpiredLeases` takes the lease at the root of the heap, as long as it has expired, and
submits its revocation. `Cleanup` has the loop's single looks among the other commands; here
it runs as a whole, on a leader whose submissions are answered and on which nobody else calls.
It ends after one turn for each lease that has expired (`Node.cleanup_collects`), unless the
apply loop has been given a command on which it waits for itself: `Submit` then waits for `mu`. -/
namespace Wjetcd
open Runs

/-- One turn of the loop: what the clock says, and the environment in which the apply loop
executes the revocation, unless `Submit` returns an error. -/
structure Turn where
  now : Int
  submitted : Option Env

namespace Node

/-- The node after the loop, and how many leases it has revoked. -/
def cleanupExpiredLeases (turns : Nat → Turn) : Nat → Node → Option (Node × Nat)
  | 0, _ => none
  | fuel + 1, s =>
    match s.leaseMgr.getExpiringLease with
    | none => some (s, 0)
    | some item =>
      if item.expireAt > (turns 0).now then some (s, 0)
      else
        match (turns 0).submitted with
        | none => some (s, 0)
        | some env =>
          let d : Delivery := ⟨env, Observation.command ⟨item.id, item.expireAt, (turns 0).now⟩, none⟩
          (cleanupExpiredLeases (fun i => turns (i + 1)) fuel
            {s with server := (s.server.applyLoop d).server}).map fun result => (result.1, result.2 + 1)

/-- The apply loop gets to the end of its iteration. -/
def Passes : Action → Node → Prop
  | .deliver d, s =>
    s.server.persistenceErr = none → d.writeErr = none → Process.answersLocked d.cmd.type = false
  | _, _ => True

instance : (action : Action) → (s : Node) → Decidable (Passes action s)
  | .deliver d, s => inferInstanceAs (Decidable (s.server.persistenceErr = none → d.writeErr = none →
      Process.answersLocked d.cmd.type = false))
  | .acquire _ _ _ _, _ => .isTrue trivial
  | .release _ _ _, _ => .isTrue trivial
  | .renew _ _ _, _ => .isTrue trivial
  | .getLockStatus _, _ => .isTrue trivial

/-- With its locks, the loop of a process with the same server completes just then. -/
theorem passes_iff (d : Delivery) (s : Node) (p : Process) (hp : p.server = s.server) (index : Int) :
    Passes (.deliver d) s ↔
      Locking.Completes (Locking.applyLoop d.env d.writeErr (.raft (.command index (.typed d.cmd)))) p := by
  have hclear : Passes (.deliver d) s ↔
      Locking.Clear p d.writeErr (.raft (.command index (.typed d.cmd))) := by
    unfold Locking.Clear
    rw [hp]
    constructor
    · intro h i cmd hdecode
      cases hdecode
      exact h
    · intro h
      exact h index d.cmd rfl
  rw [hclear]
  constructor
  · intro h
    exact Locking.wp_applyLoop d.env d.writeErr _ p (Or.inr h) rfl
  · intro h
    by_contra hstuck
    exact Locks.not_wp_of_stuck (Locking.stuck_applyLoop d.env hstuck) h

end Node

/-! ### One turn -/

namespace Dictionary

/-- A command that is not refused is served. -/
theorem step_served {d d' : Dictionary} {cmd : Command} {revision deadline : Int} {reply : Bytes}
    (h : step (.command cmd revision deadline (.ok reply)) d = some d') :
    d' = (d.serve revision deadline cmd).1 := by
  have hserve : (if d.above revision = true ∧ (0 < cmd.expireAt → deadline = cmd.expireAt) ∧
      (d.serve revision deadline cmd).2 = reply then some (d.serve revision deadline cmd).1 else none) = some d' := h
  split at hserve
  · exact (Option.some.inj hserve).symm
  · cases hserve

theorem pair_revoke (d : Dictionary) (id : Int) (key : Bytes) :
    (d.revoke id).pair key = (d.pair key).filter fun pair => !(pair.lease == some id) := by
  unfold pair revoke remove
  rw [Std.ExtTreeMap.getElem?_map]
  cases d.pairs[key]? with
  | none => rfl
  | some pair => rfl

theorem leases_revoke (d : Dictionary) (id i : Int) :
    (d.revoke id).leases[i]? = if id = i then none else d.leases[i]? := GoMap.get_erase _ _ _

/-- Every lease that a key is under exists. -/
def Founded (d : Dictionary) : Prop :=
  ∀ key pair, d.pair key = some pair → ∀ id ∈ pair.lease, (d.leases[id]?).isSome

end Dictionary

namespace Legible

theorem founded {m : Machine} (h : Legible m) : m.dictionary.Founded := by
  intro key pair hpair id hid
  rw [m.pair_lease hpair, Option.mem_def, Machine.keeper_iff h.consistent] at hid
  obtain ⟨lease, hlease, _⟩ := hid
  rw [Machine.dictionary_leases, hlease]
  rfl

/-- Nothing has expired, or the lease at the root has. -/
theorem look {s : Node} (h : Legible s.server.machine) (now : Int) :
    ((∀ item, s.leaseMgr.getExpiringLease = some item → item.expireAt > now) ∧
      ∀ id deadline : Int, s.dictionary.leases[id]? = some deadline → now < deadline) ∨
    ∃ item, s.leaseMgr.getExpiringLease = some item ∧ item.expireAt ≤ now ∧ 0 < item.id ∧
      s.dictionary.leases[item.id]? = some item.expireAt := by
  have hroot : match s.leaseMgr.getExpiringLease with | none => _ | some item => _ := h.queued.expiring
  have hview : ∀ id : Int, s.dictionary.leases[id]? = (s.leaseMgr.leases[id]?).map Lease.expireAt :=
    Machine.dictionary_leases s.server.machine
  cases hitem : s.leaseMgr.getExpiringLease with
  | none =>
    rw [hitem] at hroot
    refine Or.inl ⟨nofun, fun id deadline hid => ?_⟩
    rw [hview, show s.leaseMgr.leases[id]? = none from hroot id] at hid
    cases hid
  | some item =>
    rw [hitem] at hroot
    obtain ⟨⟨lease, hlease, hexpiry⟩, hfirst⟩ := hroot
    replace hlease : s.leaseMgr.leases[item.id]? = some lease := hlease
    by_cases hexpired : item.expireAt ≤ now
    · refine Or.inr ⟨item, rfl, hexpired, h.consistent.numbered.ids item.id lease hlease, ?_⟩
      rw [hview, hlease, Option.map_some, hexpiry]
    · refine Or.inl ⟨fun other hother => Option.some.inj hother ▸ not_le.mp hexpired, fun id deadline hid => ?_⟩
      rw [hview, Option.map_eq_some_iff] at hid
      obtain ⟨other, hother, rfl⟩ := hid
      exact (not_le.mp hexpired).trans_le (hfirst id other hother)

/-- A turn revokes the lease it has found. -/
theorem turn {s : Node} (h : Legible s.server.machine) (hopen : s.server.persistenceErr = none) (env : Env)
    {item : LeaseItem} (hid : 0 < item.id) (hlease : s.dictionary.leases[item.id]? = some item.expireAt) (now : Int) :
    let t : Node := {s with server :=
      (s.server.applyLoop ⟨env, Observation.command ⟨item.id, item.expireAt, now⟩, none⟩).server}
    Legible t.server.machine ∧ t.server.persistenceErr = none ∧ t.dictionary = s.dictionary.revoke item.id := by
  intro t
  obtain ⟨hlegible, hstep⟩ := h.nodeStep (.deliver ⟨env, Observation.command ⟨item.id, item.expireAt, now⟩, none⟩)
    s t ⟨nofun, fun hput => absurd hput (by rintro (hput | hput) <;> cases hput)⟩ rfl
  have hrevokes : s.dictionary.revokes (Observation.command ⟨item.id, item.expireAt, now⟩) = true := by
    show (decide (item.id > 0) && (decide (item.expireAt ≤ 0) || s.dictionary.leases[item.id]? == some item.expireAt)) = true
    simp [hid, hlease]
  rcases s.server.applyLoop_cases ⟨env, Observation.command ⟨item.id, item.expireAt, now⟩, none⟩ with
    ⟨hclosed, _⟩ | ⟨_, outcome, _, heq⟩
  · exact absurd ⟨hopen, rfl⟩ hclosed
  · refine ⟨hlegible, ?_, ?_⟩
    · show (s.server.applyLoop _).server.persistenceErr = none
      rw [heq]
    · have hreply : (s.server.applyLoop ⟨env, Observation.command ⟨item.id, item.expireAt, now⟩, none⟩).reply =
          .ok outcome.result := by rw [heq]
      unfold Node.move at hstep
      dsimp only at hstep
      rw [hreply] at hstep
      refine (Dictionary.step_served hstep).trans ?_
      show (if s.dictionary.revokes _ then s.dictionary.revoke item.id else s.dictionary) = _
      rw [if_pos hrevokes]

end Legible

/-! ### The loop -/

/-- What the loop is to leave: the leases that have not expired at `now`, and the keys that are under
one of these or under none. -/
structure Dictionary.Collected (d d' : Dictionary) (now : Int) : Prop where
  leases : ∀ id deadline : Int, d'.leases[id]? = some deadline ↔ d.leases[id]? = some deadline ∧ now < deadline
  pairs : ∀ key, d'.pair key = (d.pair key).filter fun pair => pair.lease.all fun id => (d'.leases[id]?).isSome

namespace Dictionary

/-- Nothing has expired. -/
theorem Collected.refl {d : Dictionary} (h : d.Founded) {now : Int}
    (hlater : ∀ id deadline : Int, d.leases[id]? = some deadline → now < deadline) : d.Collected d now where
  leases id deadline := ⟨fun hid => ⟨hid, hlater id deadline hid⟩, fun hid => hid.1⟩
  pairs key := by
    cases hpair : d.pair key with
    | none => rfl
    | some pair =>
      have hstanding : (pair.lease.all fun id => (d.leases[id]?).isSome) = true := by
        rw [Option.all_eq_true]
        exact h key pair hpair
      rw [Option.filter_some, if_pos hstanding]

/-- One lease has expired, and the rest is collected. -/
theorem Collected.revoke {d d' : Dictionary} {id deadline now : Int} (hid : d.leases[id]? = some deadline)
    (hexpired : deadline ≤ now) (h : (d.revoke id).Collected d' now) : d.Collected d' now where
  leases i other := by
    rw [h.leases, leases_revoke]
    by_cases hi : id = i
    · subst hi
      rw [if_pos rfl, hid]
      constructor
      · rintro ⟨hnone, _⟩
        cases hnone
      · rintro ⟨hsome, hlater⟩
        cases hsome
        omega
    · rw [if_neg hi]
  pairs key := by
    have hgone : d'.leases[id]? = none := by
      rw [Option.eq_none_iff_forall_ne_some]
      intro other hother
      have hold := ((h.leases id other).mp hother).1
      rw [leases_revoke, if_pos rfl] at hold
      cases hold
    rw [h.pairs, pair_revoke, Option.filter_filter]
    congr 1
    funext pair
    cases hlease : pair.lease with
    | none => rfl
    | some other =>
      by_cases hother : other = id
      · rw [hother, Option.all_some, hgone, Option.isSome_none, Bool.and_false]
      · simp [hother]

end Dictionary

/-- The loop ends at once if nothing has expired. -/
theorem Node.cleanup_done (s : Node) (turns : Nat → Turn) (fuel : Nat)
    (h : ∀ item, s.leaseMgr.getExpiringLease = some item → item.expireAt > (turns 0).now) :
    s.cleanupExpiredLeases turns (fuel + 1) = some (s, 0) := by
  unfold cleanupExpiredLeases
  cases hitem : s.leaseMgr.getExpiringLease with
  | none => rfl
  | some item => exact if_pos (h item hitem)

/-- Otherwise it goes on after a turn. -/
theorem Node.cleanup_turn (s : Node) (turns : Nat → Turn) (fuel : Nat) {item : LeaseItem} {env : Env}
    (hitem : s.leaseMgr.getExpiringLease = some item) (hexpired : ¬item.expireAt > (turns 0).now)
    (henv : (turns 0).submitted = some env) :
    s.cleanupExpiredLeases turns (fuel + 1) =
      (cleanupExpiredLeases (fun i => turns (i + 1)) fuel {s with server := (s.server.applyLoop
        ⟨env, Observation.command ⟨item.id, item.expireAt, (turns 0).now⟩, none⟩).server}).map fun result =>
          (result.1, result.2 + 1) := by
  rw [cleanupExpiredLeases, hitem]
  dsimp only
  rw [if_neg hexpired, henv]

/-- By induction on the number of leases, of which a turn takes one. -/
theorem Legible.collects (n : Nat) : ∀ (s : Node) (turns : Nat → Turn), Legible s.server.machine →
    s.server.persistenceErr = none → s.dictionary.leases.size = n → (∀ i, (turns i).submitted.isSome) →
    (∀ i j, i ≤ j → (turns i).now ≤ (turns j).now) →
    ∃ t k, (∀ fuel, n < fuel → s.cleanupExpiredLeases turns fuel = some (t, k)) ∧
      k + t.dictionary.leases.size = n ∧ s.dictionary.Collected t.dictionary (turns k).now := by
  induction n using Nat.strong_induction_on with
  | _ n ih =>
    intro s turns h hopen hsize hsubmits hclock
    rcases h.look (turns 0).now with ⟨hroot, hlater⟩ | ⟨item, hitem, hexpired, hid, hlease⟩
    · refine ⟨s, 0, ?_, by omega, Dictionary.Collected.refl h.founded hlater⟩
      intro fuel hfuel
      obtain ⟨fuel, rfl⟩ := Nat.exists_eq_succ_of_ne_zero (Nat.ne_of_gt (Nat.zero_lt_of_lt hfuel))
      exact Node.cleanup_done s turns fuel hroot
    · obtain ⟨env, henv⟩ := Option.isSome_iff_exists.mp (hsubmits 0)
      obtain ⟨hlegible, hopen', hview⟩ := h.turn hopen env hid hlease (turns 0).now
      have hless : (s.dictionary.revoke item.id).leases.size + 1 = n := hsize ▸ GoMap.size_erase hlease
      obtain ⟨t, k, hloop, hcount, hcollected⟩ := ih (s.dictionary.revoke item.id).leases.size (by omega) _
        (fun i => turns (i + 1)) hlegible hopen' (congrArg (fun d => d.leases.size) hview)
        (fun i => hsubmits (i + 1)) (fun i j hij => hclock (i + 1) (j + 1) (by omega))
      refine ⟨t, k + 1, ?_, by omega, ?_⟩
      · intro fuel hfuel
        obtain ⟨fuel, rfl⟩ := Nat.exists_eq_succ_of_ne_zero (Nat.ne_of_gt (Nat.zero_lt_of_lt hfuel))
        rw [Node.cleanup_turn s turns fuel hitem (not_lt.mpr hexpired) henv, hloop fuel (by omega)]
        rfl
      · rw [hview] at hcollected
        exact hcollected.revoke hlease (hexpired.trans (hclock 0 (k + 1) (Nat.zero_le _)))

/-- **The cleanup loop collects exactly what has expired.** On a node whose apply loop has got through
what it was given and answers the submissions, with a clock that does not go back, the loop ends
after a turn for each lease that is gone then. Those that stay are the ones that have not expired at
its last look; and a key stays if it is under no lease, or under one of these. -/
theorem Node.cleanup_collects (actions : List Node.Action) (s : Node)
    (hrule : Along Node.step (fun action s => Node.Heeds action s ∧ Node.Passes action s) Node.boot actions)
    (hs : run Node.step Node.boot actions = some s) (hopen : s.server.persistenceErr = none)
    (turns : Nat → Turn) (hsubmits : ∀ i, (turns i).submitted.isSome) (hclock : ∀ i j, i ≤ j → (turns i).now ≤ (turns j).now) :
    ∃ t k, (∀ fuel, s.dictionary.leases.size < fuel → s.cleanupExpiredLeases turns fuel = some (t, k)) ∧
      k + t.dictionary.leases.size = s.dictionary.leases.size ∧
      s.dictionary.Collected t.dictionary (turns k).now :=
  Legible.collects _ s turns (run_invariant (P := fun s : Node => Legible s.server.machine)
    (fun action s t h hrule hstep => (Legible.nodeStep action s t h hrule.1 hstep).1) actions Node.boot s
    Legible.fresh hrule hs) hopen rfl hsubmits hclock

/-- Keys under a lease until 5, under one until 9, and under none. -/
def Node.leasing : List Node.Action :=
  [granting 5, granting 9, puttingUnder 1 [97] [1], puttingUnder 2 [98] [2], puttingUnder 0 [99] [3]]

/-- At 7 the first is collected. -/
theorem Node.cleanup_collects_first :
    ∃ s t, run Node.step Node.boot leasing = some s ∧
      s.cleanupExpiredLeases (fun _ => ⟨7, some (Env.at 7)⟩) 3 = some (t, 1) ∧
      s.dictionary.Collected t.dictionary 7 := by
  refine ⟨_, _, rfl, rfl, ?_⟩
  obtain ⟨t, k, hloop, _, hcollected⟩ := cleanup_collects leasing _ (by decide +kernel) rfl rfl
    (fun _ => ⟨7, some (Env.at 7)⟩) (fun _ => rfl) (fun _ _ _ => le_rfl)
  have hends := hloop 3 (by decide +kernel)
  cases hends
  exact hcollected

end Wjetcd
