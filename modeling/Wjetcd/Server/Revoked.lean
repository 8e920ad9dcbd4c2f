import Wjetcd.Server.Exclusion

/-! A lease that is revoked between a checkpoint and a crash.

Recovery reads the same expiry by two decoders. A lease that the snapshot has comes with its
expiry as it was; a grant, a renewal or a revocation that the journal has comes with the
expiry rounded to 53 bits. A revocation that `cleanupExpiredLeases` has proposed names the
expiry it saw, and is carried out only on a lease that still has it. So what the live loop
compared as two numbers, recovery compares as two numbers of which one or both have been
rounded. `Settled` says that the outcome is the same, and as long as it is, recovery ends
with the live machine but for rounded expiries (`Mirrors`). Then a revoked lease does not
come back. A lease that is older than the checkpoint, and is revoked after it by an expiry
that does not fit in 53 bits, does (`revoked_stays_gone`). -/
namespace Wjetcd
open Runs

/-- An expiry as recovery has it: rounded if it was set since the checkpoint. -/
def recalled (since : List Int) (id expireAt : Int) : Int :=
  if id ∈ since then Float64.through expireAt else expireAt

theorem recalled_cons {since : List Int} {id i : Int} (h : id ≠ i) (expireAt : Int) :
    recalled (id :: since) i expireAt = recalled since i expireAt := by
  simp [recalled, Ne.symm h]

theorem recalled_new (since : List Int) (id expireAt : Int) :
    recalled (id :: since) id expireAt = Float64.through expireAt := by simp [recalled]

/-! ### The leases -/

namespace LeaseManager

/-- The same leases, but for the expiries. -/
structure Mirrors (since : List Int) (le le' : LeaseManager) : Prop where
  counter : le'.leaseID = le.leaseID
  leases : ∀ id : Int, le'.leases[id]? =
    (le.leases[id]?).map fun lease => {lease with expireAt := recalled since id lease.expireAt}

namespace Mirrors
variable {since : List Int} {le le' : LeaseManager} (h : Mirrors since le le')
include h

theorem holds {id : Int} {key : Bytes} : le'.Holds id key ↔ le.Holds id key := by
  unfold Holds
  rw [h.leases id]
  cases le.leases[id]? with
  | none => simp
  | some lease => simp

theorem single (hs : le.Single) : le'.Single := fun key i j hi hj =>
  hs key i j (h.holds.mp hi) (h.holds.mp hj)

theorem grantUntil (ttl expireAt : Int) :
    Mirrors ((le.leaseID + 1) :: since) (le.grantUntil ttl expireAt).1
      (le'.grantUntil ttl (Float64.through expireAt)).1 := by
  refine ⟨congrArg (· + 1) h.counter, fun id => ?_⟩
  rw [grantUntil_leases, grantUntil_leases, h.counter, GoMap.get_insert, GoMap.get_insert]
  by_cases hid : le.leaseID + 1 = id
  · subst hid
    rw [if_pos rfl, if_pos rfl, Option.map_some, recalled_new]
  · rw [if_neg hid, if_neg hid, h.leases id]
    simp only [recalled_cons hid]

theorem keepAliveUntil (leaseId ttl expireAt : Int) :
    Mirrors (leaseId :: since) (le.keepAliveUntil leaseId ttl expireAt).1
      (le'.keepAliveUntil leaseId ttl (Float64.through expireAt)).1 := by
  refine ⟨?_, fun id => ?_⟩
  · rw [(le'.fewer_keepAliveUntil _ _ _).counter, (le.fewer_keepAliveUntil _ _ _).counter, h.counter]
  · rw [keepAliveUntil_leases, keepAliveUntil_leases, h.leases id]
    by_cases hid : leaseId = id
    · subst hid
      simp only [if_true, Option.map_map, Function.comp_def, recalled_new]
    · rw [if_neg hid, if_neg hid]
      simp only [recalled_cons hid]

theorem attach (leaseId : Int) (key value : Bytes) :
    Mirrors since (le.attach leaseId key value) (le'.attach leaseId key value) := by
  refine ⟨h.counter, fun id => ?_⟩
  simp only [LeaseManager.attach, GoMap.get_modify]
  split
  · rename_i hid
    subst hid
    rw [h.leases leaseId]
    simp only [Option.map_map, Function.comp_def]
  · exact h.leases id

theorem revoke (hs : le.Single) {order order' : List Int → List Int} (ho : ∀ ids, (order ids).Perm ids)
    (ho' : ∀ ids, (order' ids).Perm ids) (key : Bytes) :
    Mirrors since (le.revoke order key).1 (le'.revoke order' key).1 := by
  refine ⟨?_, fun id => ?_⟩
  · rw [(le'.fewer_revoke _ _).counter, (le.fewer_revoke _ _).counter, h.counter]
  · rw [revoke_leases (h.single hs) ho', revoke_leases hs ho, h.leases id]
    simp only [Option.map_map, Function.comp_def]

theorem revokeLeaseLocked (leaseId : Int) :
    Mirrors since (le.revokeLeaseLocked leaseId).1 (le'.revokeLeaseLocked leaseId).1 ∧
      (le'.revokeLeaseLocked leaseId).2 = (le.revokeLeaseLocked leaseId).2 := by
  refine ⟨⟨?_, fun id => ?_⟩, ?_⟩
  · rw [(le'.fewer_revokeLeaseLocked _).counter, (le.fewer_revokeLeaseLocked _).counter, h.counter]
  · rw [revokeLeaseLocked_leases, revokeLeaseLocked_leases]
    split
    · rfl
    · exact h.leases id
  · unfold LeaseManager.revokeLeaseLocked
    rw [h.leases leaseId]
    cases le.leases[leaseId]? with
    | none => rfl
    | some lease => rfl

/-- The checked removal, if the two comparisons come out the same. -/
theorem revokeLeaseIfMatches {leaseId expected expected' : Int}
    (hsame : ∀ lease, le.leases[leaseId]? = some lease →
      (lease.expireAt = expected ↔ recalled since leaseId lease.expireAt = expected')) :
    Mirrors since (le.revokeLeaseIfMatches leaseId expected).1 (le'.revokeLeaseIfMatches leaseId expected').1 ∧
      (le'.revokeLeaseIfMatches leaseId expected').2 = (le.revokeLeaseIfMatches leaseId expected).2 := by
  unfold LeaseManager.revokeLeaseIfMatches
  rw [h.leases leaseId]
  cases hl : le.leases[leaseId]? with
  | none => exact ⟨h, rfl⟩
  | some lease =>
    simp only [Option.map_some, ne_eq, ← hsame lease hl]
    split
    · exact ⟨h, rfl⟩
    · exact h.revokeLeaseLocked leaseId

end Mirrors
end LeaseManager

/-- The loop over the keys of a prefix. -/
theorem Machine.revokeAll_mirrors {since : List Int} (env env' : Env) (keys : List Bytes) :
    ∀ le le' : LeaseManager, le.Mirrors since le' → le.Single →
      (revokeAll env le keys).Mirrors since (revokeAll env' le' keys) := by
  induction keys with
  | nil =>
    intro le le' h _
    exact h
  | cons key rest ih =>
    intro le le' h hs
    refine ih _ _ (h.revoke hs (env.perm key) (env'.perm key) key) ?_
    exact fun k i j hi hj => hs k i j (LeaseManager.holds_revoke hs (env.perm key) hi).1
      (LeaseManager.holds_revoke hs (env.perm key) hj).1

/-! ### One command -/

/-- A command as the journal gives it back if all but the expiry fits. -/
def Command.rounded (cmd : Command) : Command := {cmd with expireAt := Float64.through cmd.expireAt}

namespace Machine

/-- Recovery's machine next to the live one. -/
structure Mirrors (since : List Int) (m m' : Machine) : Prop where
  store : m'.store = m.store
  revision : m'.currentRev = m.currentRev
  leaseMgr : m.leaseMgr.Mirrors since m'.leaseMgr

/-- The leases whose expiry has been set since the checkpoint. -/
def touched (since : List Int) (m : Machine) (cmd : Command) : List Int :=
  match cmd.type with
  | .leaseGrant => (m.leaseMgr.leaseID + 1) :: since
  | .leaseKeepAlive => cmd.leaseID :: since
  | _ => since

/-- A revocation with an expiry finds, or misses, its lease in recovery as it did live. -/
def Settled (since : List Int) (m : Machine) (cmd : Command) : Prop :=
  cmd.type = .leaseRevoke → 0 < cmd.expireAt →
    ∀ lease, m.leaseMgr.leases[cmd.leaseID]? = some lease →
      (lease.expireAt = cmd.expireAt ↔
        recalled since cmd.leaseID lease.expireAt = Float64.through cmd.expireAt)

/-- An expiry that is there is not lost. -/
def KeepsExpiry (cmd : Command) : Prop := 0 < cmd.expireAt → 0 < Float64.through cmd.expireAt

namespace Mirrors
variable {since : List Int} {m m' : Machine} (h : Mirrors since m m')
include h

theorem consistent (hc : Consistent m) : Consistent m' where
  ahead := by
    rw [h.store, h.revision]
    exact hc.ahead
  counted := by
    rw [h.store]
    exact hc.counted
  positive := by
    rw [h.store]
    exact hc.positive
  numbered := by
    refine ⟨h.leaseMgr.counter ▸ hc.numbered.granted, fun id lease hl => ?_⟩
    rw [h.leaseMgr.leases id] at hl
    obtain ⟨old, hold, _⟩ := Option.map_eq_some_iff.mp hl
    exact hc.numbered.ids id old hold
  bound := by
    intro id key hholds
    rw [h.store]
    exact hc.bound id key (h.leaseMgr.holds.mp hholds)

theorem catchUp : Mirrors since m.catchUp m'.catchUp := by
  unfold Machine.catchUp
  rw [h.store, h.revision]
  split
  · exact ⟨rfl, rfl, h.leaseMgr⟩
  · exact ⟨h.store, h.revision, h.leaseMgr⟩

theorem expireKeys (keys : List Bytes) :
    Mirrors since (m.expireKeys keys).1 (m'.expireKeys keys).1 := by
  induction keys generalizing m m' with
  | nil => exact h
  | cons key rest ih =>
    rw [Machine.expireKeys, Machine.expireKeys]
    refine ih ⟨?_, ?_, h.leaseMgr⟩
    · simp only [h.store, h.revision]
    · simp only [h.revision]

theorem executeDefault (hc : Consistent m) (env : Env) (cmd : Command) :
    Mirrors since (m.executeDefault env cmd).machine (m'.executeDefault env cmd.rounded).machine := by
  have hrevoked : (if cmd.type = .put ∨ cmd.type = .delete then
      (m.leaseMgr.revoke (env.order cmd.key) cmd.key).1 else m.leaseMgr).Mirrors since
      (if cmd.type = .put ∨ cmd.type = .delete then
        (m'.leaseMgr.revoke (env.order cmd.key) cmd.key).1 else m'.leaseMgr) := by
    split
    · exact h.leaseMgr.revoke hc.single (env.perm _) (env.perm _) cmd.key
    · exact h.leaseMgr
  have happly : m'.store.apply cmd.rounded = m.store.apply cmd := by
    rw [h.store]
    rfl
  unfold Machine.executeDefault
  dsimp only
  rw [happly]
  by_cases hput : cmd.leaseID > 0 ∧ cmd.type = .put
  · rw [if_pos hput, if_pos (show cmd.rounded.leaseID > 0 ∧ cmd.rounded.type = .put from hput)]
    exact ⟨rfl, h.revision, hrevoked.attach _ _ _⟩
  · rw [if_neg hput, if_neg (show ¬(cmd.rounded.leaseID > 0 ∧ cmd.rounded.type = .put) from hput)]
    exact ⟨rfl, h.revision, hrevoked⟩

/-- The lease goes on both sides or on neither. -/
theorem revokedBy {cmd : Command} (ht : cmd.type = .leaseRevoke) (hset : Settled since m cmd)
    (hkept : KeepsExpiry cmd) :
    (m.revokedBy cmd).1.Mirrors since (m'.revokedBy cmd.rounded).1 ∧
      (m'.revokedBy cmd.rounded).2 = (m.revokedBy cmd).2 := by
  unfold Machine.revokedBy
  by_cases hpos : cmd.expireAt > 0
  · rw [if_pos hpos, if_pos (show cmd.rounded.expireAt > 0 from hkept hpos)]
    exact h.leaseMgr.revokeLeaseIfMatches (hset ht hpos)
  · have hneg := Float64.through_nonpos (not_lt.mp hpos)
    rw [if_neg hpos, if_neg (show ¬cmd.rounded.expireAt > 0 from not_lt.mpr hneg)]
    exact h.leaseMgr.revokeLeaseLocked cmd.leaseID

/-- **What the live loop does with a command, recovery does with the rounded one.** -/
theorem execute (hc : Consistent m) (env : Env) {cmd : Command} (hset : Settled since m cmd)
    (hkept : KeepsExpiry cmd) :
    Mirrors (touched since m cmd) (m.execute env cmd).machine (m'.execute env cmd.rounded).machine := by
  have htype : cmd.rounded.type = cmd.type := rfl
  cases ht : cmd.type with
  | leaseGrant =>
    simp only [Machine.execute, htype, ht, touched]
    exact ⟨h.store, h.revision, h.leaseMgr.grantUntil _ _⟩
  | leaseKeepAlive =>
    simp only [Machine.execute, htype, ht, touched]
    exact ⟨h.store, h.revision, h.leaseMgr.keepAliveUntil _ _ _⟩
  | leaseRevoke =>
    obtain ⟨hleases, hkeys⟩ := h.revokedBy ht hset hkept
    rw [execute_revoke m env ht, execute_revoke m' env (htype.trans ht), hkeys]
    simp only [touched, ht]
    by_cases hid : cmd.leaseID > 0
    · rw [if_pos hid, if_pos (show cmd.rounded.leaseID > 0 from hid)]
      have hmid : Mirrors since {m with leaseMgr := (m.revokedBy cmd).1}
          {m' with leaseMgr := (m'.revokedBy cmd.rounded).1} := ⟨h.store, h.revision, hleases⟩
      exact hmid.expireKeys _
    · rw [if_neg hid, if_neg (show ¬cmd.rounded.leaseID > 0 from hid)]
      exact h
  | leaseAttach =>
    simp only [Machine.execute, htype, ht, touched]
    by_cases hid : cmd.leaseID > 0
    · rw [if_pos hid, if_pos (show cmd.rounded.leaseID > 0 from hid)]
      refine ⟨?_, h.revision, ?_⟩
      · simp only [h.store]
        rfl
      · exact (h.leaseMgr.revoke hc.single (env.perm _) (env.perm _) cmd.key).attach _ _ _
    · rw [if_neg hid, if_neg (show ¬cmd.rounded.leaseID > 0 from hid)]
      exact h
  | cas =>
    have happly : m'.store.apply cmd.rounded = m.store.apply cmd := by
      rw [h.store]
      rfl
    have hlease : m'.store.getKeyLease cmd.rounded.key = m.store.getKeyLease cmd.key := by
      rw [h.store]
      rfl
    simp only [Machine.execute, htype, ht, touched, happly, hlease]
    split
    · refine ⟨rfl, h.revision, ?_⟩
      dsimp only
      split
      · exact h.leaseMgr.attach _ _ _
      · exact h.leaseMgr
    · exact ⟨rfl, h.revision, h.leaseMgr⟩
  | deletePrefix =>
    have hdeleted : m'.store.deletePrefix cmd.rounded.keyPrefix = m.store.deletePrefix cmd.keyPrefix := by
      rw [h.store]
      rfl
    simp only [Machine.execute, htype, ht, touched, hdeleted]
    exact catchUp ⟨rfl, h.revision, revokeAll_mirrors env env _ _ _ h.leaseMgr hc.single⟩
  | getPrefix | get =>
    simp only [Machine.execute, htype, ht, touched]
    exact h
  | put | delete | other =>
    simp only [Machine.execute, htype, ht, touched]
    exact h.executeDefault hc env cmd

end Mirrors

/-! ### One record -/

/-- All of a record but its expiry comes through JSON, and the expiry is not lost. -/
structure Plain (record : Command) : Prop where
  key : Utf8.valid record.key = true
  value : Utf8.valid record.value = true
  keyPrefix : Utf8.valid record.keyPrefix = true
  leaseID : Float64.Exact record.leaseID
  ttl : Float64.Exact record.ttl
  revision : Float64.Exact record.revision
  expectedRev : Float64.Exact record.expectedRev
  expiry : KeepsExpiry record

theorem Plain.wire {record : Command} (h : Plain record) (hknown : record.type.Known) :
    record.wire = record.rounded := by
  have htype := Command.wire_known hknown
  rw [Command.wire_eq] at htype ⊢
  dsimp only at htype
  rw [htype, (Utf8.coerce_eq_iff _).mpr h.key, (Utf8.coerce_eq_iff _).mpr h.value,
    (Utf8.coerce_eq_iff _).mpr h.keyPrefix, h.leaseID, h.ttl, h.revision, h.expectedRev]
  rfl

theorem Mirrors.renumbered {since : List Int} {m m' : Machine} (h : Mirrors since m m') (cmd : Command) :
    (m.renumbered cmd).1.Mirrors since (m'.renumbered cmd.rounded).1 ∧
      (m'.renumbered cmd.rounded).2 = (m.renumbered cmd).2.rounded := by
  have htype : cmd.rounded.type = cmd.type := rfl
  have hrev : cmd.rounded.revision = cmd.revision := rfl
  unfold Machine.renumbered
  rw [htype, hrev, h.revision]
  split
  · split
    · exact ⟨⟨h.store, rfl, h.leaseMgr⟩, rfl⟩
    · split
      · exact ⟨⟨h.store, rfl, h.leaseMgr⟩, rfl⟩
      · exact ⟨h, rfl⟩
  · exact ⟨h, rfl⟩

theorem fill_revoke (m : Machine) (now : Nat) {cmd : Command} (ht : cmd.type = .leaseRevoke) :
    (m.fill now cmd).2 = cmd := by
  simp [fill, numbered, timed, ht, CommandType.writes]

theorem Settled.fill {since : List Int} {m : Machine} {cmd : Command} (h : Settled since m cmd) (now : Nat) :
    Settled since (m.fill now cmd).1 (m.fill now cmd).2 := by
  intro ht hpos
  rw [fill_type] at ht
  rw [m.fill_revoke now ht] at hpos ⊢
  rw [fill_leaseMgr]
  exact h ht hpos

theorem touched_fill (since : List Int) (m : Machine) (now : Nat) (cmd : Command) :
    touched since (m.fill now cmd).1 (m.fill now cmd).2 = touched since m cmd := by
  unfold touched
  rw [fill_type, fill_leaseMgr, (m.fill_fields now cmd).2.2.1]

theorem Timed.rounded {cmd : Command} (h : Timed cmd) (hkept : KeepsExpiry cmd) : Timed cmd.rounded :=
  fun ht => hkept (h ht)

end Machine

open Machine

/-- A committed command that was journaled, and that recovery can read and does not wait on. -/
structure Delivery.Recorded (d : Delivery) : Prop where
  written : d.writeErr = none
  known : d.cmd.type.Known
  replayable : d.cmd.type ≠ .get
  inTime : d.InTime

namespace Server

section Step
variable {since : List Int} {s : Server} {m' : Machine} (h : s.machine.Mirrors since m')
  (hc : Consistent s.machine) {d : Delivery} (hd : d.Recorded)
  (hplain : Plain (s.machine.fill d.env.now d.cmd).2)
include h hc hd hplain

/-- Recovery executes the rounded record on a machine that mirrors the live one. -/
theorem replay_record (env : Env) :
    ∃ n', (s.machine.fill d.env.now d.cmd).1.Mirrors since n' ∧
      applyRecoveredCommand env m' (s.machine.fill d.env.now d.cmd).2.wire =
        .ok (n'.execute d.env (s.machine.fill d.env.now d.cmd).2.rounded).machine := by
  obtain ⟨hfilled, hrecord⟩ := h.renumbered (s.machine.fill d.env.now d.cmd).2
  rw [renumbered_fill hc] at hfilled hrecord
  have hknown : (s.machine.fill d.env.now d.cmd).2.type.Known := by
    rw [fill_type]
    exact hd.known
  refine ⟨_, hfilled, ?_⟩
  unfold applyRecoveredCommand
  dsimp only
  rw [hplain.wire hknown, hrecord]
  refine recoverSwitch_eq (hfilled.consistent (hc.fill d.env.now d.cmd)) d.env env hknown
    ((timed_fill s.machine hd.inTime).rounded hplain.expiry) fun hw => ?_
  rw [hfilled.revision]
  exact fill_revision hc d.env.now d.cmd hw

theorem applyLoop_mirrors (hs : s.persistenceErr = none) (hset : Settled since s.machine d.cmd) (env : Env) :
    ∃ n', applyRecoveredCommand env m' (s.machine.fill d.env.now d.cmd).2.wire = .ok n' ∧
      (s.applyLoop d).server.machine.Mirrors (touched since s.machine d.cmd) n' := by
  obtain ⟨n', hfilled, heq⟩ := replay_record h hc hd hplain env
  refine ⟨_, heq, ?_⟩
  rw [(applyLoop_open hs hd.written).1, ← touched_fill since s.machine d.env.now]
  exact hfilled.execute (hc.fill d.env.now d.cmd) d.env (hset.fill d.env.now) hplain.expiry

end Step

/-! ### Runs -/

/-- Every revocation of the run comes out the same in recovery. -/
def AllSettled (since : List Int) (s : Server) : List Delivery → Prop
  | [] => True
  | d :: rest => Settled since s.machine d.cmd ∧
      AllSettled (touched since s.machine d.cmd) (s.applyLoop d).server rest

/-- The leases whose expiry a run has set. -/
def touchedBy (since : List Int) (s : Server) : List Delivery → List Int
  | [] => since
  | d :: rest => touchedBy (touched since s.machine d.cmd) (s.applyLoop d).server rest

theorem live_consistent (ds : List Delivery) {s : Server} (hc : Consistent s.machine) :
    Consistent (s.live ds).1.machine := by
  induction ds generalizing s with
  | nil => exact hc
  | cons d rest ih => exact ih (hc.applyLoop d)

/-- No record of such commands holds recovery up. -/
theorem replayEntries_live (ds : List Delivery) {s : Server} (hs : s.persistenceErr = none)
    (hds : ∀ d ∈ ds, d.Recorded) (env : Nat → Env) (m : Machine) :
    m.replayEntries env (((s.live ds).2.map Command.wire).map some) =
      (m.replay env ((s.live ds).2.map Command.wire)).toOption := by
  refine replayEntries_eq (fun journaled hjournaled => ?_) env m
  obtain ⟨record, hrecord, rfl⟩ := List.mem_map.mp hjournaled
  have htypes := (live_journal ds s hs fun d hd => (hds d hd).written).2
  have hmem : record.type ∈ ds.map fun d => d.cmd.type := htypes ▸ List.mem_map_of_mem hrecord
  obtain ⟨d, hd, htype⟩ := List.mem_map.mp hmem
  have hknown : record.type.Known := htype ▸ (hds d hd).known
  rw [Command.wire_known hknown, ← htype]
  exact (hds d hd).replayable

/-- Replaying a settled run gives the machine it ended with, but for rounded expiries. -/
theorem live_mirrors (ds : List Delivery) (env : Nat → Env) {since : List Int} {s : Server} {m' : Machine}
    (h : s.machine.Mirrors since m') (hc : Consistent s.machine) (hs : s.persistenceErr = none)
    (hds : ∀ d ∈ ds, d.Recorded) (hplain : ∀ record ∈ (s.live ds).2, Plain record)
    (hset : s.AllSettled since ds) :
    ∃ n', m'.replay env ((s.live ds).2.map Command.wire) = .ok n' ∧
      (s.live ds).1.machine.Mirrors (s.touchedBy since ds) n' := by
  induction ds generalizing since s m' env with
  | nil => exact ⟨m', rfl, h⟩
  | cons d rest ih =>
    have hd := hds d List.mem_cons_self
    obtain ⟨hserver, hjournaled⟩ := applyLoop_open hs hd.written
    have hrecords : (s.live (d :: rest)).2 =
        (s.machine.fill d.env.now d.cmd).2 :: ((s.applyLoop d).server.live rest).2 := by
      rw [live, hjournaled]
      rfl
    rw [hrecords] at hplain ⊢
    obtain ⟨hfirst, hothers⟩ := List.forall_mem_cons.mp hplain
    obtain ⟨n', hone, hmirror⟩ := applyLoop_mirrors h hc hd hfirst hs hset.1 (env 0)
    rw [List.map_cons, replay, hone]
    exact ih (fun i => env (i + 1)) hmirror (hc.applyLoop d) (by rw [hserver])
      (fun e he => hds e (List.mem_cons_of_mem _ he)) hothers hset.2

end Server

/-- One more record. -/
theorem Machine.replay_concat {env : Nat → Env} (records : List Command) {m n : Machine} (record : Command)
    (h : m.replay env records = .ok n) :
    m.replay env (records ++ [record]) = applyRecoveredCommand (env records.length) n record := by
  induction records generalizing m env with
  | nil =>
    cases h
    rw [List.nil_append, List.length_nil, replay]
    cases applyRecoveredCommand (env 0) n record with
    | error err => rfl
    | ok m' => rfl
  | cons first rest ih =>
    rw [List.cons_append]
    rw [replay] at h ⊢
    cases hone : applyRecoveredCommand (env 0) m first with
    | error err =>
      rw [hone] at h
      cases h
    | ok m' =>
      rw [hone] at h
      exact ih h

/-- What the calls of committed commands keep, a run of deliveries keeps. -/
theorem LeaseManager.Closed.live {P : LeaseManager → Prop} (hP : ∀ cmd, Closed (Op.Served cmd) P)
    (ds : List Delivery) {s : Server} (h : P s.machine.leaseMgr) : P (s.live ds).1.machine.leaseMgr := by
  induction ds generalizing s with
  | nil => exact h
  | cons d rest ih => exact ih ((hP d.cmd).applyLoop h)

/-- No lease comes back in a run. -/
theorem LeaseManager.Ages.live (ds : List Delivery) (s : Server) :
    s.machine.leaseMgr.Ages (s.live ds).1.machine.leaseMgr :=
  Closed.live (P := Ages s.machine.leaseMgr) (fun _ _ _ _ _ h hop => h.trans (ages_step hop)) ds (Ages.refl _)

/-! ### A lease that was revoked -/

/-- The checked removal takes the lease if it has the expected expiry. -/
theorem LeaseManager.revokeLeaseIfMatches_gone {le : LeaseManager} {leaseId : Int} {lease : Lease}
    (hl : le.leases[leaseId]? = some lease) (expected : Int) :
    (le.revokeLeaseIfMatches leaseId expected).1.leases[leaseId]? = none ↔ lease.expireAt = expected := by
  unfold revokeLeaseIfMatches
  rw [hl]
  dsimp only
  by_cases heq : lease.expireAt = expected
  · rw [if_neg (not_not.mpr heq), revokeLeaseLocked_leases, if_pos rfl]
    simp [heq]
  · rw [if_pos heq, hl]
    simp [heq]

/-- A revocation takes its lease if it names no expiry, or the one the lease has. -/
theorem Machine.execute_gone {m : Machine} (hc : Consistent m) (env : Env) {cmd : Command}
    (ht : cmd.type = .leaseRevoke) {lease : Lease} (hl : m.leaseMgr.leases[cmd.leaseID]? = some lease) :
    (m.execute env cmd).machine.leaseMgr.leases[cmd.leaseID]? = none ↔
      cmd.expireAt ≤ 0 ∨ lease.expireAt = cmd.expireAt := by
  have hpos : cmd.leaseID > 0 := by
    have := hc.numbered.ids _ lease hl
    omega
  rw [execute_revoke m env ht, if_pos hpos, expireKeys_leaseMgr]
  dsimp only
  unfold revokedBy
  by_cases hexpiry : cmd.expireAt > 0
  · rw [if_pos hexpiry, LeaseManager.revokeLeaseIfMatches_gone hl]
    exact ⟨Or.inr, fun h => h.resolve_left (not_le.mpr hexpiry)⟩
  · rw [if_neg hexpiry, LeaseManager.revokeLease, LeaseManager.revokeLeaseLocked_leases, if_pos rfl]
    simp [not_lt.mp hexpiry]

/-- **Recovery takes the lease too exactly if** the revocation names no expiry, or the lease
got its expiry after the checkpoint, or the expiry fits in 53 bits. -/
theorem Server.revoked_last {since : List Int} {s : Server} {m' : Machine}
    (h : s.machine.Mirrors since m') (hc : Consistent s.machine) (hs : s.persistenceErr = none)
    {d : Delivery} (hd : d.Recorded) (hplain : Plain (s.machine.fill d.env.now d.cmd).2)
    (ht : d.cmd.type = .leaseRevoke) {lease : Lease}
    (hl : s.machine.leaseMgr.leases[d.cmd.leaseID]? = some lease)
    (hgone : (s.applyLoop d).server.machine.leaseMgr.leases[d.cmd.leaseID]? = none) (env : Env) :
    ∃ n', applyRecoveredCommand env m' (s.machine.fill d.env.now d.cmd).2.wire = .ok n' ∧
      (n'.leaseMgr.leases[d.cmd.leaseID]? = none ↔
        d.cmd.expireAt ≤ 0 ∨ d.cmd.leaseID ∈ since ∨ Float64.Exact d.cmd.expireAt) := by
  obtain ⟨n', hfilled, heq⟩ := replay_record h hc hd hplain env
  refine ⟨_, heq, ?_⟩
  have hcf := hc.fill d.env.now d.cmd
  rw [(applyLoop_open hs hd.written).1] at hgone
  rw [s.machine.fill_revoke d.env.now ht] at hgone hplain ⊢
  have hl' : (s.machine.fill d.env.now d.cmd).1.leaseMgr.leases[d.cmd.leaseID]? = some lease := by
    rw [fill_leaseMgr]
    exact hl
  have hlive := (execute_gone hcf d.env ht hl').mp hgone
  have hrecalled : n'.leaseMgr.leases[d.cmd.rounded.leaseID]? =
      some {lease with expireAt := recalled since d.cmd.leaseID lease.expireAt} := by
    show n'.leaseMgr.leases[d.cmd.leaseID]? = _
    rw [hfilled.leaseMgr.leases, hl']
    rfl
  have hrecovered := execute_gone (hfilled.consistent hcf) d.env
    (show d.cmd.rounded.type = .leaseRevoke from ht) hrecalled
  refine hrecovered.trans ?_
  show Float64.through d.cmd.expireAt ≤ 0 ∨
    recalled since d.cmd.leaseID lease.expireAt = Float64.through d.cmd.expireAt ↔ _
  by_cases hpos : 0 < d.cmd.expireAt
  · have hkept := hplain.expiry hpos
    have hsame : lease.expireAt = d.cmd.expireAt := hlive.resolve_left (not_le.mpr hpos)
    rw [hsame]
    unfold recalled Float64.Exact
    by_cases hsince : d.cmd.leaseID ∈ since
    · simp [hsince]
    · simp only [hsince, if_false, false_or, not_le.mpr hpos, not_le.mpr hkept]
      exact eq_comm
  · have hneg := Float64.through_nonpos (not_lt.mp hpos)
    simp [hneg, not_lt.mp hpos]

/-! ### The keys it held -/

/-- An iteration writes a value under the key. -/
def Server.Writes (s : Server) (d : Delivery) (key : Bytes) : Prop :=
  ∃ entry, (key, entry) ∈ s.appended d ∧ entry.tombstone = false

/-- A run writes a value under the key. -/
def Server.Rewrites (s : Server) (key : Bytes) : List Delivery → Prop
  | [] => False
  | d :: rest => s.Writes d key ∨ (s.applyLoop d).server.Rewrites key rest

theorem Server.tombstoned_live (ds : List Delivery) {s : Server} {key : Bytes} (hc : Consistent s.machine)
    (h : Node.Tombstoned s.machine.store key) (hnot : ¬s.Rewrites key ds) :
    Node.Tombstoned (s.live ds).1.machine.store key := by
  induction ds generalizing s with
  | nil => exact h
  | cons d rest ih =>
    obtain ⟨hwrites, hrest⟩ := not_or.mp hnot
    refine ih (hc.applyLoop d) ?_ hrest
    obtain ⟨entry, hlast, hdead⟩ := h
    have hnew := (Server.applyLoop_appends hc d).last key
    cases hlog : KVStore.latest (s.appended d) key with
    | none =>
      rw [hlog, hlast] at hnew
      exact ⟨entry, hnew, hdead⟩
    | some newer =>
      rw [hlog] at hnew
      refine ⟨newer, hnew, ?_⟩
      by_contra hvalue
      exact hwrites ⟨newer, KVStore.latest_mem hlog, Bool.eq_false_iff.mpr hvalue⟩

/-! ### A checkpoint, a run and a crash -/

/-- The machine of a server is restored to one that mirrors it. -/
theorem Machine.restored_mirrors {actions : List Node.Action} {s : Node}
    (hs : run Node.step Node.boot actions = some s) (htext : s.server.machine.Textual)
    (hexpiry : ∀ (id : Int) (lease : Lease), s.leaseMgr.leases[id]? = some lease → 0 < lease.expireAt)
    {order : List Int → List Int} (hperm : ∀ ids, (order ids).Perm ids) :
    ∃ m, Machine.restored (s.server.machine.saved order) = some m ∧ s.server.machine.Mirrors [] m := by
  obtain ⟨le, hrestored, htable, hcounter, _⟩ := restored_saved hs htext hexpiry hperm
  refine ⟨_, hrestored, rfl, rfl, hcounter, fun id => ?_⟩
  show le.leases[id]? = _
  rw [htable]
  replace htable : s.server.machine.leaseMgr.leases = s.leaseMgr.leases := rfl
  rw [htable]
  cases s.leaseMgr.leases[id]? with
  | none => rfl
  | some lease => rfl

/-- **A lease revoked after a checkpoint.** A server has been saved, has journaled `before` and a
revocation `d` that removed a lease, and crashes. If the revocations of `before` are settled,
recovery succeeds and the lease is gone exactly if the revocation names no expiry, or the
lease got its expiry after the checkpoint, or the expiry fits in 53 bits. If it goes on with
`after`, and all revocations are settled, then the lease is gone after recovery, and every key
that it held has a tombstone unless a value was written to it in `after`. -/
theorem revoked_stays_gone (actions : List Node.Action) (s : Node)
    (hs : run Node.step Node.boot actions = some s) (hopen : s.server.persistenceErr = none)
    (htext : s.server.machine.Textual)
    (hexpiry : ∀ (id : Int) (lease : Lease), s.leaseMgr.leases[id]? = some lease → 0 < lease.expireAt)
    (order : List Int → List Int) (hperm : ∀ ids, (order ids).Perm ids)
    (before : List Delivery) (d : Delivery) (after : List Delivery)
    (hds : ∀ e ∈ before ++ d :: after, e.Recorded)
    (hplain : ∀ record ∈ (s.server.live (before ++ d :: after)).2, Plain record)
    (hsettled : s.server.AllSettled [] before) (ht : d.cmd.type = .leaseRevoke) (lease : Lease)
    (hl : (s.server.live before).1.machine.leaseMgr.leases[d.cmd.leaseID]? = some lease)
    (hgone : (s.server.live (before ++ [d])).1.machine.leaseMgr.leases[d.cmd.leaseID]? = none)
    (env : Nat → Env) :
    ∃ m, Machine.restored (s.server.machine.saved order) = some m ∧
      (∃ n, m.replayEntries env (((s.server.live (before ++ [d])).2.map Command.wire).map some) = some n ∧
        (n.leaseMgr.leases[d.cmd.leaseID]? = none ↔
          d.cmd.expireAt ≤ 0 ∨ d.cmd.leaseID ∈ s.server.touchedBy [] before ∨
            Float64.Exact d.cmd.expireAt)) ∧
      (s.server.AllSettled [] (before ++ d :: after) →
        ∃ n, m.replayEntries env (((s.server.live (before ++ d :: after)).2.map Command.wire).map some) =
            some n ∧
          n.leaseMgr.leases[d.cmd.leaseID]? = none ∧
          ∀ key : Bytes, (lease.keys[key]?).isSome →
            Node.Tombstoned n.store key ∨ (s.server.live (before ++ [d])).1.Rewrites key after) := by
  have hc : Consistent s.server.machine := Reachable.consistent ⟨actions, s, hs, rfl⟩
  have hcb : Consistent (s.server.live before).1.machine := Server.live_consistent before hc
  obtain ⟨m, hm, hmirror⟩ := Machine.restored_mirrors hs htext hexpiry hperm
  obtain ⟨hrecorded, hlater⟩ := List.forall_mem_append.mp hds
  have hd : d.Recorded := (List.forall_mem_cons.mp hlater).1
  have hobefore : (s.server.live before).1.persistenceErr = none :=
    (Server.live_journal before s.server hopen fun e he => (hrecorded e he).written).1
  obtain ⟨_, hjournaled⟩ := Server.applyLoop_open hobefore hd.written
  have hserver : (s.server.live (before ++ [d])).1 = ((s.server.live before).1.applyLoop d).server :=
    Server.live_append before s.server [d]
  have hjournal : (s.server.live (before ++ [d])).2 = (s.server.live before).2 ++
      [((s.server.live before).1.machine.fill d.env.now d.cmd).2] := by
    rw [Server.live_append_journal, Server.live, hjournaled]
    rfl
  have hsplit : before ++ d :: after = (before ++ [d]) ++ after := by simp
  have hplain' : ∀ record ∈ (s.server.live (before ++ [d])).2, Plain record := by
    intro record hrecord
    refine hplain record ?_
    rw [hsplit, Server.live_append_journal]
    exact List.mem_append_left _ hrecord
  rw [hjournal, List.forall_mem_append] at hplain'
  rw [hserver] at hgone
  refine ⟨m, hm, ?_, ?_⟩
  · obtain ⟨n, hreplay, hn⟩ :=
      Server.live_mirrors before env hmirror hc hopen hrecorded hplain'.1 hsettled
    obtain ⟨n', hlast, hiff⟩ := Server.revoked_last hn hcb hobefore hd
      (List.forall_mem_singleton.mp hplain'.2) ht hl hgone (env (s.server.live before).2.length)
    refine ⟨n', ?_, hiff⟩
    rw [Server.replayEntries_live (before ++ [d]) hopen (List.forall_mem_append.mpr ⟨hrecorded, by simpa using hd⟩),
      hjournal, List.map_append, List.map_singleton, Machine.replay_concat _ _ hreplay, List.length_map, hlast]
    rfl
  · intro hall
    obtain ⟨n, hreplay, hn⟩ := Server.live_mirrors _ env hmirror hc hopen hds hplain hall
    have hend : (s.server.live (before ++ d :: after)).1 =
        (((s.server.live before).1.applyLoop d).server.live after).1 := by
      rw [hsplit, Server.live_append, hserver]
    rw [hend] at hn
    refine ⟨n, by rw [Server.replayEntries_live _ hopen hds, hreplay]; rfl, ?_, ?_⟩
    · have hcount : d.cmd.leaseID ≤ (s.server.live before).1.machine.leaseMgr.leaseID :=
        (LeaseManager.Closed.live (fun _ op le le' _ h hop => LeaseManager.Queued.step op le le' h hop) before
          (LeaseManager.Queued.nodeRun hs)).counted _ lease hl
      have hone := LeaseManager.Ages.live [d] (s.server.live before).1
      have hages := LeaseManager.Ages.live after ((s.server.live before).1.applyLoop d).server
      rw [hn.leaseMgr.leases, hages.absent (hcount.trans hone.counter) hgone]
      rfl
    · intro key hkey
      obtain ⟨value, hv⟩ := Option.isSome_iff_exists.mp hkey
      have hdead := Node.revoked_tombstoned hcb ht hl hgone ⟨lease, hl, value, hv⟩
      by_cases hrewrites : (s.server.live (before ++ [d])).1.Rewrites key after
      · exact Or.inr hrewrites
      · rw [hserver] at hrewrites
        left
        rw [hn.store]
        exact Server.tombstoned_live after (hcb.applyLoop d) hdead hrewrites

/-- A time in 2023 with an odd number of nanoseconds. -/
def oddExpiry : Int := 1700000000000000001

/-- The first lease is revoked, with an expiry or without. -/
def revokeFirst (expireAt : Int) : Delivery :=
  ⟨Env.at 0, {Command.ofType .leaseRevoke with leaseID := 1, expireAt := expireAt}, none⟩

theorem revokeFirst_recorded (expireAt : Int) : (revokeFirst expireAt).Recorded :=
  ⟨rfl, trivial, nofun, by rintro (ht | ht) <;> cases ht⟩

/-- A server that has granted one lease until then. -/
def grantedOdd : Machine :=
  {Machine.fresh with
    leaseMgr := ⟨(∅ : GoMap Int _).insert 1 ⟨1, 10, oddExpiry, ∅⟩, 1, [⟨1, oddExpiry⟩]⟩}

theorem grantedOdd_lease {id : Int} {lease : Lease} (h : grantedOdd.leaseMgr.leases[id]? = some lease) :
    lease = ⟨1, 10, oddExpiry, ∅⟩ := by
  simp only [grantedOdd, GoMap.get_insert, Std.ExtTreeMap.getElem?_empty] at h
  split at h
  · exact (Option.some.inj h).symm
  · cases h

theorem grantedOdd_textual : grantedOdd.Textual where
  data := by
    intro key entries h
    replace h : (∅ : GoMap Bytes (List VersionEntry))[key]? = some entries := h
    rw [Std.ExtTreeMap.getElem?_empty] at h
    cases h
  bound := by
    intro key id h
    replace h : (∅ : GoMap Bytes Int)[key]? = some id := h
    rw [Std.ExtTreeMap.getElem?_empty] at h
    cases h
  leases := by
    intro id lease key value h hv
    rw [grantedOdd_lease h, Std.ExtTreeMap.getElem?_empty] at hv
    cases hv

theorem grantedOdd_run :
    ∃ s, run Node.step Node.boot [Node.granting oddExpiry] = some s ∧ s.server = ⟨grantedOdd, none⟩ ∧
      ∀ (id : Int) (lease : Lease), s.leaseMgr.leases[id]? = some lease → 0 < lease.expireAt := by
  have hrun : ∃ s, run Node.step Node.boot [Node.granting oddExpiry] = some s ∧
      s.server = ⟨grantedOdd, none⟩ := ⟨_, rfl, by decide⟩
  obtain ⟨s, hs, hserver⟩ := hrun
  refine ⟨s, hs, hserver, ?_⟩
  intro id lease hl
  replace hl : s.server.machine.leaseMgr.leases[id]? = some lease := hl
  rw [hserver] at hl
  rw [grantedOdd_lease hl]
  decide

theorem revokeFirst_plain {expireAt : Int} (h : 0 < expireAt → 0 < Float64.through expireAt) :
    Plain (revokeFirst expireAt).cmd where
  key := show Utf8.valid [] = true by decide
  value := show Utf8.valid [] = true by decide
  keyPrefix := show Utf8.valid [] = true by decide
  leaseID := show Float64.Exact 1 by decide
  ttl := show Float64.Exact 0 by decide
  revision := show Float64.Exact 0 by decide
  expectedRev := show Float64.Exact 0 by decide
  expiry := h

/-- Revoked without an expiry, the lease is gone after recovery. -/
theorem revoked_stays_gone_unchecked :
    ∃ s m n, run Node.step Node.boot [Node.granting oddExpiry] = some s ∧
      Machine.restored (s.server.machine.saved id) = some m ∧
      m.replayEntries (fun _ => Env.at 0) (((s.server.live [revokeFirst 0]).2.map Command.wire).map some) = some n ∧
      n.leaseMgr.leases[(1 : Int)]? = none := by
  obtain ⟨s, hs, hserver, hexpiry⟩ := grantedOdd_run
  obtain ⟨m, hm, _, hall⟩ := revoked_stays_gone _ s hs (by rw [hserver])
    (by rw [hserver]; exact grantedOdd_textual) hexpiry id (fun ids => List.Perm.refl ids) []
    (revokeFirst 0) [] (List.forall_mem_singleton.mpr (revokeFirst_recorded 0))
    (by rw [hserver]; exact List.forall_mem_singleton.mpr (revokeFirst_plain (by decide)))
    trivial rfl ⟨1, 10, oddExpiry, ∅⟩ (by rw [hserver]; decide) (by rw [hserver]; decide)
    (fun _ => Env.at 0)
  obtain ⟨n, hn, hgone, _⟩ := hall ⟨fun _ hpos => absurd hpos (by decide), trivial⟩
  exact ⟨s, m, n, hs, hm, hn, hgone⟩

/-- Revoked by the expiry it has, it is back. -/
theorem revoked_comes_back :
    ¬∀ (actions : List Node.Action) (s : Node), run Node.step Node.boot actions = some s →
      s.server.persistenceErr = none → s.server.machine.Textual →
      (∀ (id : Int) (lease : Lease), s.leaseMgr.leases[id]? = some lease → 0 < lease.expireAt) →
      ∀ (before : List Delivery) (d : Delivery) (after : List Delivery),
        (∀ e ∈ before ++ d :: after, e.Recorded) →
        (∀ record ∈ (s.server.live (before ++ d :: after)).2, Plain record) →
        d.cmd.type = .leaseRevoke →
        ((s.server.live before).1.machine.leaseMgr.leases[d.cmd.leaseID]?).isSome →
        (s.server.live (before ++ [d])).1.machine.leaseMgr.leases[d.cmd.leaseID]? = none →
        ∀ (env : Nat → Env) (m n : Machine), Machine.restored (s.server.machine.saved id) = some m →
          m.replayEntries env (((s.server.live (before ++ d :: after)).2.map Command.wire).map some) = some n →
          n.leaseMgr.leases[d.cmd.leaseID]? = none := by
  intro h
  obtain ⟨s, hs, hserver, hexpiry⟩ := grantedOdd_run
  have hrecovered : ∃ m n, Machine.restored (s.server.machine.saved id) = some m ∧
      m.replayEntries (fun _ => Env.at 0)
        (((s.server.live [revokeFirst oddExpiry]).2.map Command.wire).map some) = some n ∧
      (n.leaseMgr.leases[(1 : Int)]?).isSome := by
    rw [hserver]
    exact ⟨_, _, rfl, rfl, by decide⟩
  obtain ⟨m, n, hm, hn, hback⟩ := hrecovered
  have hgone := h _ s hs (by rw [hserver]) (by rw [hserver]; exact grantedOdd_textual) hexpiry []
    (revokeFirst oddExpiry) [] (List.forall_mem_singleton.mpr (revokeFirst_recorded oddExpiry))
    (by rw [hserver]; exact List.forall_mem_singleton.mpr (revokeFirst_plain (by decide)))
    rfl (by rw [hserver]; decide) (by rw [hserver]; decide) (fun _ => Env.at 0) m n hm hn
  replace hgone : n.leaseMgr.leases[(1 : Int)]? = none := hgone
  rw [hgone] at hback
  cases hback

end Wjetcd
