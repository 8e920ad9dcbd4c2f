import Wjetcd.Server.Recovery
import Wjetcd.Server.Wire

/-! Do a leader and a follower do the same with a command?

The leader applies the command it was handed, a follower the one that JSON made of
it (`Command.wire`). `Survives` says what has to come through for the two to agree,
type by type: valid UTF-8 where a string names a key or is stored, a number of at
most 53 significant bits where a positive lease id, revision, TTL or expiry is
used. `agreement` says that this is exact: if something that matters does not
survive, there is a reachable state in which the two replicas part.

Expiry times are Unix times in nanoseconds, around 2^60, so they are the usual
victim. -/
namespace Wjetcd.Agreement

/-- The parts of the state that replicas share. -/
def SameState (a b : Machine) : Prop :=
  a.store = b.store ∧ a.leaseMgr.leases = b.leaseMgr.leases ∧ a.currentRev = b.currentRev

/-- The machine after a command, journaled without failure. -/
def applied (s : Server) (env : Env) (cmd : Command) : Machine :=
  (s.applyLoop ⟨env, cmd, none⟩).server.machine

/-- From every reachable state, whatever the clocks and map orders of the two nodes. -/
def Agrees (cmd : Command) : Prop :=
  ∀ s, Reachable s → ∀ env env', SameState (applied s env cmd) (applied s env' cmd.wire)

/-- A grant or renewal has its expiry, and expiry and TTL survive. -/
def TimeSurvives (cmd : Command) : Prop :=
  (cmd.ttl ≤ 0 ∨ Float64.Exact cmd.ttl) ∧ 0 < cmd.expireAt ∧ Float64.Exact cmd.expireAt

def Survives (cmd : Command) : Prop :=
  match cmd.type with
  | .put =>
    Utf8.valid cmd.key ∧ Utf8.valid cmd.value ∧ (cmd.leaseID ≤ 0 ∨ Float64.Exact cmd.leaseID)
  | .delete => Utf8.valid cmd.key
  | .leaseGrant => TimeSurvives cmd
  | .leaseKeepAlive => cmd.leaseID ≤ 0 ∨ (Float64.Exact cmd.leaseID ∧ TimeSurvives cmd)
  | .leaseRevoke =>
    cmd.leaseID ≤ 0 ∨
      (Float64.Exact cmd.leaseID ∧ (cmd.expireAt ≤ 0 ∨ Float64.Exact cmd.expireAt))
  | .leaseAttach =>
    cmd.leaseID ≤ 0 ∨ (Utf8.valid cmd.key ∧ Utf8.valid cmd.value ∧ Float64.Exact cmd.leaseID)
  | .cas =>
    cmd.expectedRev ≤ 0 ∨
      (Utf8.valid cmd.key ∧ Utf8.valid cmd.value ∧ Float64.Exact cmd.expectedRev)
  | .deletePrefix => Utf8.valid cmd.keyPrefix
  | _ => True

/-! ### What survives is applied alike -/

section Alike
variable {m : Machine} (h : Consistent m) (env env' : Env) {c w : Command}

theorem apply_put_alike (kv : KVStore) (hc : c.type = .put) (hw : w.type = .put)
    (hk : w.key = c.key) (hv : w.value = c.value) (hr : w.revision = c.revision)
    (hl : w.leaseID = c.leaseID ∨ (w.leaseID ≤ 0 ∧ c.leaseID ≤ 0)) : kv.apply w = kv.apply c := by
  simp only [KVStore.apply, hc, hw, hk, hv, hr]
  rcases hl with hl | ⟨hl, hl'⟩
  · rw [hl]
  · rw [if_neg (by omega), if_neg (by omega)]

include h in
theorem put_alike (hc : c.type = .put) (hw : w.type = .put) (hk : w.key = c.key)
    (hv : w.value = c.value) (hr : w.revision = c.revision)
    (hl : w.leaseID = c.leaseID ∨ (w.leaseID ≤ 0 ∧ c.leaseID ≤ 0)) :
    (m.execute env c).machine = (m.execute env' w).machine := by
  have happly := apply_put_alike m.store hc hw hk hv hr hl
  have hrevoke := LeaseManager.revoke_order h.single (env.perm c.key) (env'.perm c.key) c.key
  simp only [Machine.execute, hc, hw, Machine.executeDefault, happly, hk, hv, hrevoke, and_true,
    true_or, if_true]
  rcases hl with hl | ⟨hl, hl'⟩
  · rw [hl]
  · rw [if_neg (by omega), if_neg (by omega)]

include h in
theorem delete_alike (hc : c.type = .delete) (hw : w.type = .delete) (hk : w.key = c.key)
    (hr : w.revision = c.revision) :
    (m.execute env c).machine = (m.execute env' w).machine := by
  have happly : m.store.apply w = m.store.apply c := by
    simp only [KVStore.apply, hc, hw, hk, hr]
  have hrevoke := LeaseManager.revoke_order h.single (env.perm c.key) (env'.perm c.key) c.key
  simp only [Machine.execute, hc, hw, Machine.executeDefault, happly, hk, hrevoke, reduceCtorEq,
    and_false, or_true, if_true, if_false]

theorem grant_alike (hc : c.type = .leaseGrant) (hw : w.type = .leaseGrant)
    (ht : Machine.defaultTTL w.ttl = Machine.defaultTTL c.ttl) (he : w.expireAt = c.expireAt) :
    (m.execute env c).machine = (m.execute env' w).machine := by
  simp only [Machine.execute, hc, hw, ht, he]

theorem keepAlive_alike (hc : c.type = .leaseKeepAlive) (hw : w.type = .leaseKeepAlive)
    (hl : w.leaseID = c.leaseID) (ht : Machine.defaultTTL w.ttl = Machine.defaultTTL c.ttl)
    (he : w.expireAt = c.expireAt) :
    (m.execute env c).machine = (m.execute env' w).machine := by
  simp only [Machine.execute, hc, hw, hl, ht, he]

include h in
/-- There is no lease to renew. -/
theorem keepAlive_absent (hc : c.type = .leaseKeepAlive) (hl : c.leaseID ≤ 0) :
    (m.execute env c).machine = m := by
  have hnone : m.leaseMgr.leases[c.leaseID]? = none := by
    cases hlease : m.leaseMgr.leases[c.leaseID]? with
    | none => rfl
    | some lease => exact absurd (h.numbered.ids _ lease hlease) (by omega)
  simp only [Machine.execute, hc, LeaseManager.keepAliveUntil, hnone]

theorem revoke_alike (hc : c.type = .leaseRevoke) (hw : w.type = .leaseRevoke)
    (hl : w.leaseID = c.leaseID) (he : w.expireAt = c.expireAt ∨ (w.expireAt ≤ 0 ∧ c.expireAt ≤ 0)) :
    (m.execute env c).machine = (m.execute env' w).machine := by
  simp only [Machine.execute, hc, hw, hl]
  rcases he with he | ⟨he, he'⟩
  · simp only [he]
  · simp only [gt_iff_lt, not_lt.mpr he, not_lt.mpr he', if_false]

theorem revoke_none (hc : c.type = .leaseRevoke) (hl : c.leaseID ≤ 0) :
    (m.execute env c).machine = m := by
  simp only [Machine.execute, hc, gt_iff_lt, not_lt.mpr hl, if_false]

include h in
theorem attach_alike (hc : c.type = .leaseAttach) (hw : w.type = .leaseAttach) (hk : w.key = c.key)
    (hv : w.value = c.value) (hr : w.revision = c.revision) (hl : w.leaseID = c.leaseID) :
    (m.execute env c).machine = (m.execute env' w).machine := by
  have hrevoke := LeaseManager.revoke_order h.single (env.perm c.key) (env'.perm c.key) c.key
  simp only [Machine.execute, hc, hw, KVStore.apply, hk, hv, hr, hl, hrevoke]

theorem attach_none (hc : c.type = .leaseAttach) (hl : c.leaseID ≤ 0) :
    (m.execute env c).machine = m := by
  simp only [Machine.execute, hc, gt_iff_lt, not_lt.mpr hl, if_false]

theorem cas_alike (hc : c.type = .cas) (hw : w.type = .cas) (hk : w.key = c.key)
    (hv : w.value = c.value) (hr : w.revision = c.revision) (he : w.expectedRev = c.expectedRev) :
    (m.execute env c).machine = (m.execute env' w).machine := by
  have happly : m.store.apply w = m.store.apply c := by
    simp only [KVStore.apply, hc, hw, hk, hv, hr, he]
  simp only [Machine.execute, hc, hw, happly, hk, hv]
  split <;> rfl

include h in
/-- No version has a revision that is not positive. -/
theorem cas_fails (hc : c.type = .cas) (he : c.expectedRev ≤ 0) : (m.execute env c).machine = m := by
  have hmiss : m.store.casMatches c.key c.expectedRev = false := by
    unfold KVStore.casMatches
    split
    · rfl
    · rename_i latest hlast
      have hpos := h.positive.versions (List.mem_of_getLast? hlast)
      have hne : ¬latest.revision = c.expectedRev := by omega
      simp [hne]
  have happly : m.store.apply c = (m.store, .ok (ascii "CAS_FAILED")) := by
    simp only [KVStore.apply, hc, hmiss, Bool.false_eq_true, if_false]
  have hfailed : ¬ascii "CAS_FAILED" = ascii "OK" := by decide
  simp only [Machine.execute, hc, happly, Machine.textOf, hfailed, if_false]

include h in
theorem deletePrefix_alike (hc : c.type = .deletePrefix) (hw : w.type = .deletePrefix)
    (hp : w.keyPrefix = c.keyPrefix) :
    (m.execute env c).machine = (m.execute env' w).machine := by
  simp only [Machine.execute, hc, hw, hp, Machine.revokeAll_order env env' _ m.leaseMgr h.single]

/-- Reads, and types that are no command, change nothing. -/
theorem idle_alike (hc : c.type = .get ∨ c.type = .getPrefix ∨ ¬c.type.Known) :
    (m.execute env c).machine = m := by
  rcases hc with hc | hc | hc
  · simp only [Machine.execute, hc]
  · simp only [Machine.execute, hc]
  · cases ht : c.type with
    | other n hn =>
      have happly : (m.store.apply c).1 = m.store := by simp only [KVStore.apply, ht]
      simp only [Machine.execute, ht, Machine.executeDefault, happly, reduceCtorEq, or_self,
        and_false, if_false]
    | _ =>
      rw [ht] at hc
      exact absurd trivial hc

end Alike

theorem applied_open {s : Server} (hs : s.persistenceErr = none) (env : Env) (cmd : Command) :
    applied s env cmd =
      ((s.machine.fill env.now cmd).1.execute env (s.machine.fill env.now cmd).2).machine := by
  unfold applied
  rw [(Server.applyLoop_open hs rfl).1]

theorem applied_stopped {s : Server} {failure : String} (hs : s.persistenceErr = some failure)
    (env : Env) (cmd : Command) : applied s env cmd = (s.machine.fill env.now cmd).1 := by
  unfold applied Server.applyLoop
  rw [hs]

/-- The revision counter moves alike. -/
theorem fill_wire (m : Machine) (now now' : Nat) (cmd : Command) :
    (m.fill now' cmd.wire).1 = (m.fill now cmd).1 := by
  have hwrites : cmd.wire.type.writes = cmd.type.writes := by
    rcases cmd.wire_type with heq | ⟨hc, hw⟩
    · rw [heq]
    · have hnone : ∀ t : CommandType, ¬t.Known → t.writes = false := by
        intro t ht
        cases t with
        | other n hn => rfl
        | _ => exact absurd trivial ht
      rw [hnone _ hc, hnone _ hw]
  simp only [Machine.fill, Machine.numbered, hwrites]
  split <;> rfl

/-- A TTL that survives, or is defaulted on both sides. -/
theorem ttl_alike {ttl : Int} (h : ttl ≤ 0 ∨ Float64.Exact ttl) :
    Machine.defaultTTL (Float64.through ttl) = Machine.defaultTTL ttl := by
  rcases h with h | h
  · have := Float64.through_nonpos h
    unfold Machine.defaultTTL
    rw [if_pos this, if_pos h]
  · rw [h]

/-! #### The fields of the two filled commands -/

section Filled
variable (m : Machine) (now now' : Nat) {cmd : Command}

theorem fill_type_wire (h : cmd.type.Known) : (m.fill now' cmd.wire).2.type = cmd.type := by
  rw [Machine.fill_type, Command.wire_known h]

theorem fill_key_wire (h : Utf8.valid cmd.key) :
    (m.fill now' cmd.wire).2.key = (m.fill now cmd).2.key := by
  rw [(Machine.fill_fields m now' cmd.wire).1, (Machine.fill_fields m now cmd).1, Command.wire_key,
    (Utf8.coerce_eq_iff _).mpr h]

theorem fill_value_wire (h : Utf8.valid cmd.value) :
    (m.fill now' cmd.wire).2.value = (m.fill now cmd).2.value := by
  rw [(Machine.fill_fields m now' cmd.wire).2.1, (Machine.fill_fields m now cmd).2.1,
    Command.wire_value, (Utf8.coerce_eq_iff _).mpr h]

theorem fill_leaseID (cmd : Command) : (m.fill now cmd).2.leaseID = cmd.leaseID :=
  (Machine.fill_fields m now cmd).2.2.1

theorem fill_leaseID_wire (h : Float64.Exact cmd.leaseID) :
    (m.fill now' cmd.wire).2.leaseID = (m.fill now cmd).2.leaseID := by
  rw [fill_leaseID, fill_leaseID, Command.wire_leaseID, h]

/-- A lease id that names no lease names none after the trip either. -/
theorem fill_leaseID_nonpos (h : cmd.leaseID ≤ 0) : (m.fill now' cmd.wire).2.leaseID ≤ 0 := by
  rw [fill_leaseID, Command.wire_leaseID]
  exact Float64.through_nonpos h

/-- Both replicas number a write from their own, equal, counters. -/
theorem fill_revision_wire (hk : cmd.type.Known) (hw : cmd.type.writes = true) :
    (m.fill now' cmd.wire).2.revision = (m.fill now cmd).2.revision := by
  have hw' : cmd.wire.type.writes = true := by rw [Command.wire_known hk, hw]
  simp [Machine.fill, Machine.numbered, hw, hw']

theorem fill_ttl_wire (h : cmd.ttl ≤ 0 ∨ Float64.Exact cmd.ttl) :
    Machine.defaultTTL (m.fill now' cmd.wire).2.ttl = Machine.defaultTTL (m.fill now cmd).2.ttl := by
  rw [(Machine.fill_fields m now' cmd.wire).2.2.2.1, (Machine.fill_fields m now cmd).2.2.2.1,
    Command.wire_ttl, ttl_alike h]

theorem fill_expireAt_wire (hpos : 0 < cmd.expireAt) (h : Float64.Exact cmd.expireAt) :
    (m.fill now' cmd.wire).2.expireAt = (m.fill now cmd).2.expireAt := by
  have hwire : cmd.wire.expireAt = cmd.expireAt := by rw [Command.wire_expireAt, h]
  rw [m.fill_expireAt now hpos, m.fill_expireAt now' (by rw [hwire]; exact hpos), hwire]

end Filled

/-! #### One command type after the other -/

section Types
variable {m n : Machine} (hn : Consistent n) (env env' : Env) {cmd : Command} (h : Survives cmd)
include h

include hn in
theorem put_agrees (ht : cmd.type = .put) :
    (n.execute env (m.fill env.now cmd).2).machine =
      (n.execute env' (m.fill env'.now cmd.wire).2).machine := by
  have hknown : cmd.type.Known := by rw [ht]; trivial
  simp only [Survives, ht] at h
  obtain ⟨hk, hv, hl⟩ := h
  refine put_alike hn env env' (by rw [Machine.fill_type, ht]) (by rw [fill_type_wire m _ hknown, ht])
    (fill_key_wire m _ _ hk) (fill_value_wire m _ _ hv)
    (fill_revision_wire m _ _ hknown (by rw [ht]; rfl)) ?_
  rcases hl with hl | hl
  · exact Or.inr ⟨fill_leaseID_nonpos m _ hl, by rw [fill_leaseID]; exact hl⟩
  · exact Or.inl (fill_leaseID_wire m _ _ hl)

include hn in
theorem delete_agrees (ht : cmd.type = .delete) :
    (n.execute env (m.fill env.now cmd).2).machine =
      (n.execute env' (m.fill env'.now cmd.wire).2).machine := by
  have hknown : cmd.type.Known := by rw [ht]; trivial
  simp only [Survives, ht] at h
  exact delete_alike hn env env' (by rw [Machine.fill_type, ht])
    (by rw [fill_type_wire m _ hknown, ht]) (fill_key_wire m _ _ h)
    (fill_revision_wire m _ _ hknown (by rw [ht]; rfl))

theorem leaseGrant_agrees (ht : cmd.type = .leaseGrant) :
    (n.execute env (m.fill env.now cmd).2).machine =
      (n.execute env' (m.fill env'.now cmd.wire).2).machine := by
  have hknown : cmd.type.Known := by rw [ht]; trivial
  simp only [Survives, ht] at h
  obtain ⟨httl, hpos, hexact⟩ := h
  exact grant_alike env env' (by rw [Machine.fill_type, ht]) (by rw [fill_type_wire m _ hknown, ht])
    (fill_ttl_wire m _ _ httl) (fill_expireAt_wire m _ _ hpos hexact)

include hn in
theorem leaseKeepAlive_agrees (ht : cmd.type = .leaseKeepAlive) :
    (n.execute env (m.fill env.now cmd).2).machine =
      (n.execute env' (m.fill env'.now cmd.wire).2).machine := by
  have hc := (Machine.fill_type m env.now cmd).trans ht
  have hw := (fill_type_wire m env'.now (by rw [ht]; trivial)).trans ht
  simp only [Survives, ht] at h
  rcases h with hl | ⟨hl, httl, hpos, hexact⟩
  · rw [keepAlive_absent hn env hc (by rw [fill_leaseID]; exact hl),
      keepAlive_absent hn env' hw (fill_leaseID_nonpos m _ hl)]
  · exact keepAlive_alike env env' hc hw (fill_leaseID_wire m _ _ hl) (fill_ttl_wire m _ _ httl)
      (fill_expireAt_wire m _ _ hpos hexact)

theorem leaseRevoke_agrees (ht : cmd.type = .leaseRevoke) :
    (n.execute env (m.fill env.now cmd).2).machine =
      (n.execute env' (m.fill env'.now cmd.wire).2).machine := by
  have hwt : cmd.wire.type = .leaseRevoke := (Command.wire_known (by rw [ht]; trivial)).trans ht
  have hc := (Machine.fill_type m env.now cmd).trans ht
  have hw := (Machine.fill_type m env'.now cmd.wire).trans hwt
  simp only [Survives, ht] at h
  rcases h with hl | ⟨hl, he⟩
  · rw [revoke_none env hc (by rw [fill_leaseID]; exact hl),
      revoke_none env' hw (fill_leaseID_nonpos m _ hl)]
  · refine revoke_alike env env' hc hw (fill_leaseID_wire m _ _ hl) ?_
    -- the apply loop fills in no expiry for a revocation
    have hce : (m.fill env.now cmd).2.expireAt = cmd.expireAt := by
      simp [Machine.fill, Machine.numbered, Machine.timed, ht, CommandType.writes]
    have hwe : (m.fill env'.now cmd.wire).2.expireAt = cmd.wire.expireAt := by
      simp [Machine.fill, Machine.numbered, Machine.timed, hwt, CommandType.writes]
    rw [hce, hwe, Command.wire_expireAt]
    rcases he with he | he
    · exact Or.inr ⟨Float64.through_nonpos he, he⟩
    · exact Or.inl he

include hn in
theorem leaseAttach_agrees (ht : cmd.type = .leaseAttach) :
    (n.execute env (m.fill env.now cmd).2).machine =
      (n.execute env' (m.fill env'.now cmd.wire).2).machine := by
  have hknown : cmd.type.Known := by rw [ht]; trivial
  have hc := (Machine.fill_type m env.now cmd).trans ht
  have hw := (fill_type_wire m env'.now hknown).trans ht
  simp only [Survives, ht] at h
  rcases h with hl | ⟨hk, hv, hl⟩
  · rw [attach_none env hc (by rw [fill_leaseID]; exact hl),
      attach_none env' hw (fill_leaseID_nonpos m _ hl)]
  · exact attach_alike hn env env' hc hw (fill_key_wire m _ _ hk) (fill_value_wire m _ _ hv)
      (fill_revision_wire m _ _ hknown (by rw [ht]; rfl)) (fill_leaseID_wire m _ _ hl)

include hn in
theorem cas_agrees (ht : cmd.type = .cas) :
    (n.execute env (m.fill env.now cmd).2).machine =
      (n.execute env' (m.fill env'.now cmd.wire).2).machine := by
  have hknown : cmd.type.Known := by rw [ht]; trivial
  have hc := (Machine.fill_type m env.now cmd).trans ht
  have hw := (fill_type_wire m env'.now hknown).trans ht
  obtain ⟨-, -, -, -, ce, -⟩ := Machine.fill_fields m env.now cmd
  obtain ⟨-, -, -, -, we, -⟩ := Machine.fill_fields m env'.now cmd.wire
  rw [Command.wire_expectedRev] at we
  simp only [Survives, ht] at h
  rcases h with he | ⟨hk, hv, he⟩
  · rw [cas_fails hn env hc (by rw [ce]; exact he),
      cas_fails hn env' hw (by rw [we]; exact Float64.through_nonpos he)]
  · exact cas_alike env env' hc hw (fill_key_wire m _ _ hk) (fill_value_wire m _ _ hv)
      (fill_revision_wire m _ _ hknown (by rw [ht]; rfl)) (by rw [ce, we, he])

include hn in
theorem deletePrefix_agrees (ht : cmd.type = .deletePrefix) :
    (n.execute env (m.fill env.now cmd).2).machine =
      (n.execute env' (m.fill env'.now cmd.wire).2).machine := by
  obtain ⟨-, -, -, -, -, cp⟩ := Machine.fill_fields m env.now cmd
  obtain ⟨-, -, -, -, -, wp⟩ := Machine.fill_fields m env'.now cmd.wire
  simp only [Survives, ht] at h
  refine deletePrefix_alike hn env env' (by rw [Machine.fill_type, ht])
    (by rw [fill_type_wire m _ (by rw [ht]; trivial), ht]) ?_
  rw [cp, wp, Command.wire_keyPrefix, (Utf8.coerce_eq_iff _).mpr h]

end Types

/-- Reads, and types that are no command, leave both machines as they are. -/
theorem idle_agrees {m n : Machine} (env env' : Env) {cmd : Command}
    (ht : cmd.type = .get ∨ cmd.type = .getPrefix ∨ ¬cmd.type.Known) :
    (n.execute env (m.fill env.now cmd).2).machine =
      (n.execute env' (m.fill env'.now cmd.wire).2).machine := by
  have hwt : cmd.wire.type = .get ∨ cmd.wire.type = .getPrefix ∨ ¬cmd.wire.type.Known := by
    rcases cmd.wire_type with heq | ⟨_, hw⟩
    · rw [heq]
      exact ht
    · exact Or.inr (Or.inr hw)
  rw [idle_alike env (by rw [Machine.fill_type]; exact ht),
    idle_alike env' (by rw [Machine.fill_type]; exact hwt)]

/-- What survives leaves the same machine, clocks, orders and all. -/
theorem applied_wire {cmd : Command} (h : Survives cmd) {s : Server} (hs : Reachable s) (env env' : Env) :
    applied s env cmd = applied s env' cmd.wire := by
  have hmachine := fill_wire s.machine env.now env'.now cmd
  have hfill := hs.consistent.fill env.now cmd
  cases hp : s.persistenceErr with
  | some failure => rw [applied_stopped hp, applied_stopped hp, hmachine]
  | none =>
    rw [applied_open hp, applied_open hp, hmachine]
    cases ht : cmd.type with
    | put => exact put_agrees hfill env env' h ht
    | delete => exact delete_agrees hfill env env' h ht
    | leaseGrant => exact leaseGrant_agrees env env' h ht
    | leaseKeepAlive => exact leaseKeepAlive_agrees hfill env env' h ht
    | leaseRevoke => exact leaseRevoke_agrees env env' h ht
    | leaseAttach => exact leaseAttach_agrees hfill env env' h ht
    | cas => exact cas_agrees hfill env env' h ht
    | deletePrefix => exact deletePrefix_agrees hfill env env' h ht
    | get => exact idle_agrees env env' (Or.inl ht)
    | getPrefix => exact idle_agrees env env' (Or.inr (Or.inl ht))
    | other k hk => exact idle_agrees env env' (Or.inr (Or.inr (by rw [ht]; exact id)))

/-- **If what matters survives, the two replicas do the same.** -/
theorem agrees_of_survives {cmd : Command} (h : Survives cmd) : Agrees cmd := by
  intro s hs env env'
  rw [applied_wire h hs env env']
  exact ⟨rfl, rfl, rfl⟩

/-! ### States that expose what does not survive -/

/-- What a put leaves under each key. -/
theorem applied_put {s : Server} (h : Consistent s.machine) (hs : s.persistenceErr = none) (env : Env)
    {cmd : Command} (ht : cmd.type = .put) (k : Bytes) :
    (applied s env cmd).store.data[k]? =
        (if cmd.key = k then some (s.machine.store.versions cmd.key ++
          [⟨s.machine.currentRev + 1, cmd.value, false⟩]) else s.machine.store.data[k]?) ∧
      (applied s env cmd).store.key2Lease[k]? =
        (if cmd.key = k then (if cmd.leaseID > 0 then some cmd.leaseID else none)
          else s.machine.store.key2Lease[k]?) ∧
      (applied s env cmd).currentRev = s.machine.currentRev + 1 := by
  have ha := h.ahead
  have hc := h.counted
  have hne : s.machine.currentRev + 1 ≠ 0 := by omega
  have hfill : s.machine.fill env.now cmd = ({s.machine with currentRev := s.machine.currentRev + 1},
      {cmd with revision := s.machine.currentRev + 1}) := by
    simp [Machine.fill, Machine.numbered, Machine.timed, ht, CommandType.writes]
  have hwrite := s.machine.store.write_data hne cmd.key cmd.value k false
  rw [applied_open hs, hfill]
  simp only [Machine.execute, ht, Machine.executeDefault, KVStore.apply, and_true]
  by_cases hid : cmd.leaseID > 0
  · simp only [hid, if_true]
    refine ⟨hwrite, ?_, trivial⟩
    simp only [KVStore.setKeyLease, GoMap.get_insert, KVStore.write_key2Lease]
    split <;> simp_all
  · simp only [hid, if_false]
    refine ⟨hwrite, ?_, trivial⟩
    rw [GoMap.get_erase, KVStore.write_key2Lease]

theorem applied_delete {s : Server} (h : Consistent s.machine) (hs : s.persistenceErr = none)
    (env : Env) {cmd : Command} (ht : cmd.type = .delete) (k : Bytes) :
    (applied s env cmd).store.data[k]? =
      if cmd.key = k then some (s.machine.store.versions cmd.key ++
        [⟨s.machine.currentRev + 1, [], true⟩]) else s.machine.store.data[k]? := by
  have ha := h.ahead
  have hc := h.counted
  have hne : s.machine.currentRev + 1 ≠ 0 := by omega
  have hfill : s.machine.fill env.now cmd = ({s.machine with currentRev := s.machine.currentRev + 1},
      {cmd with revision := s.machine.currentRev + 1}) := by
    simp [Machine.fill, Machine.numbered, Machine.timed, ht, CommandType.writes]
  rw [applied_open hs, hfill]
  simp only [Machine.execute, ht, Machine.executeDefault, KVStore.apply, reduceCtorEq, and_false,
    if_false]
  exact s.machine.store.write_data hne cmd.key [] k true

/-- The expiry a grant or renewal gets on a node whose clock shows `now`. -/
def filledExpiry (now : Nat) (cmd : Command) : Int :=
  if cmd.expireAt ≤ 0 then Machine.expiryFrom now (Machine.defaultTTL cmd.ttl) else cmd.expireAt

theorem fill_lease (m : Machine) (now : Nat) {cmd : Command}
    (ht : cmd.type = .leaseGrant ∨ cmd.type = .leaseKeepAlive) :
    m.fill now cmd = (m, {cmd with expireAt := filledExpiry now cmd}) := by
  have hw : cmd.type.writes = false := by
    rcases ht with ht | ht <;> rw [ht] <;> rfl
  unfold Machine.fill Machine.timed Machine.numbered filledExpiry
  rw [hw, if_neg (by decide)]
  dsimp only
  rw [if_pos ht]
  split <;> rfl

theorem applied_grant {s : Server} (hs : s.persistenceErr = none) (env : Env) {cmd : Command}
    (ht : cmd.type = .leaseGrant) :
    (applied s env cmd).leaseMgr = (s.machine.leaseMgr.grantUntil (Machine.defaultTTL cmd.ttl)
      (filledExpiry env.now cmd)).1 := by
  rw [applied_open hs, fill_lease _ _ (Or.inl ht)]
  simp only [Machine.execute, ht]

theorem applied_keepAlive {s : Server} (hs : s.persistenceErr = none) (env : Env) {cmd : Command}
    (ht : cmd.type = .leaseKeepAlive) :
    (applied s env cmd).leaseMgr = (s.machine.leaseMgr.keepAliveUntil cmd.leaseID
      (Machine.defaultTTL cmd.ttl) (filledExpiry env.now cmd)).1 := by
  rw [applied_open hs, fill_lease _ _ (Or.inr ht)]
  simp only [Machine.execute, ht]

/-- A revoke leaves the leases of `RevokeLease` or of its checked form. -/
theorem applied_revoke {s : Server} (hs : s.persistenceErr = none) (env : Env) {cmd : Command}
    (ht : cmd.type = .leaseRevoke) :
    (applied s env cmd).leaseMgr =
      if cmd.leaseID > 0 then
        (if cmd.expireAt > 0 then s.machine.leaseMgr.revokeLeaseIfMatches cmd.leaseID cmd.expireAt
          else s.machine.leaseMgr.revokeLease cmd.leaseID).1
      else s.machine.leaseMgr := by
  have hfill : s.machine.fill env.now cmd = (s.machine, cmd) := by
    simp [Machine.fill, Machine.numbered, Machine.timed, ht, CommandType.writes]
  have hkeys : ∀ (keys : List Bytes) (m : Machine), (Machine.expireKeys m keys).1.leaseMgr = m.leaseMgr := by
    intro keys
    induction keys with
    | nil =>
      intro m
      rfl
    | cons key rest ih =>
      intro m
      exact ih _
  rw [applied_open hs, hfill]
  simp only [Machine.execute, ht]
  split
  · rw [hkeys]
  · rfl

section Revoked
variable {s : Server} (hs : s.persistenceErr = none) (env : Env) {cmd : Command}
  (ht : cmd.type = .leaseRevoke) {id ttl e0 : Int}
include hs ht

/-- The lease is gone if the expiry is the expected one or is not checked. -/
theorem removed_of (hid : cmd.leaseID > 0)
    (hlease : s.machine.leaseMgr.leases[cmd.leaseID]? = some ⟨id, ttl, e0, ∅⟩)
    (he : cmd.expireAt > 0 → e0 = cmd.expireAt) :
    (applied s env cmd).leaseMgr.leases[cmd.leaseID]? = none := by
  rw [applied_revoke hs env ht, if_pos hid]
  have hlocked : (s.machine.leaseMgr.revokeLeaseLocked cmd.leaseID).1.leases[cmd.leaseID]? = none := by
    simp only [LeaseManager.revokeLeaseLocked, hlease, GoMap.get_erase, if_true]
  by_cases hexp : cmd.expireAt > 0
  · rw [if_pos hexp]
    simp only [LeaseManager.revokeLeaseIfMatches, hlease, he hexp, ne_eq, not_true, if_false]
    exact hlocked
  · rw [if_neg hexp]
    exact hlocked

/-- A revoke of another lease leaves it. -/
theorem stays_other {lease : Lease} (hlease : s.machine.leaseMgr.leases[id]? = some lease)
    (hne : cmd.leaseID ≠ id) : (applied s env cmd).leaseMgr.leases[id]? = some lease := by
  have hlocked : (s.machine.leaseMgr.revokeLeaseLocked cmd.leaseID).1.leases[id]? = some lease := by
    unfold LeaseManager.revokeLeaseLocked
    split
    · exact hlease
    · simp only [GoMap.get_erase, if_neg hne, hlease]
  rw [applied_revoke hs env ht]
  split
  · split
    · rcases LeaseManager.revokeLeaseIfMatches_cases s.machine.leaseMgr cmd.leaseID cmd.expireAt
        with heq | heq
      · rw [heq]
        exact hlease
      · rw [heq]
        exact hlocked
    · exact hlocked
  · exact hlease

/-- A checked revoke with another expiry leaves the lease. -/
theorem stays_expiry (hlease : s.machine.leaseMgr.leases[cmd.leaseID]? = some ⟨id, ttl, e0, ∅⟩)
    (hpos : cmd.expireAt > 0) (hne : e0 ≠ cmd.expireAt) :
    (applied s env cmd).leaseMgr.leases[cmd.leaseID]? = some ⟨id, ttl, e0, ∅⟩ := by
  rw [applied_revoke hs env ht, if_pos hpos]
  split
  · simp only [LeaseManager.revokeLeaseIfMatches, hlease, ne_eq, hne, not_false_iff, if_true]
  · exact hlease

end Revoked

theorem applied_attach {s : Server} (h : Consistent s.machine) (hs : s.persistenceErr = none)
    (env : Env) {cmd : Command} (ht : cmd.type = .leaseAttach) (hid : cmd.leaseID > 0) (k : Bytes) :
    (applied s env cmd).store.data[k]? =
        (if cmd.key = k then some (s.machine.store.versions cmd.key ++
          [⟨s.machine.currentRev + 1, cmd.value, false⟩]) else s.machine.store.data[k]?) ∧
      (applied s env cmd).store.key2Lease[k]? =
        (if cmd.key = k then some cmd.leaseID else s.machine.store.key2Lease[k]?) := by
  have ha := h.ahead
  have hc := h.counted
  have hne : s.machine.currentRev + 1 ≠ 0 := by omega
  have hfill : s.machine.fill env.now cmd = ({s.machine with currentRev := s.machine.currentRev + 1},
      {cmd with revision := s.machine.currentRev + 1}) := by
    simp [Machine.fill, Machine.numbered, Machine.timed, ht, CommandType.writes]
  rw [applied_open hs, hfill]
  simp only [Machine.execute, ht, hid, if_true, KVStore.apply]
  refine ⟨(s.machine.store.setKeyLease cmd.key cmd.leaseID).write_data hne cmd.key cmd.value k false, ?_⟩
  simp only [KVStore.setKeyLease, GoMap.get_insert, KVStore.write_key2Lease]
  split <;> rfl

theorem applied_cas {s : Server} (h : Consistent s.machine) (hs : s.persistenceErr = none)
    (env : Env) {cmd : Command} (ht : cmd.type = .cas) (k : Bytes) :
    (applied s env cmd).store.data[k]? =
      if s.machine.store.casMatches cmd.key cmd.expectedRev = true ∧ cmd.key = k then
        some (s.machine.store.versions cmd.key ++ [⟨s.machine.currentRev + 1, cmd.value, false⟩])
      else s.machine.store.data[k]? := by
  have ha := h.ahead
  have hc := h.counted
  have hne : s.machine.currentRev + 1 ≠ 0 := by omega
  have hfill : s.machine.fill env.now cmd = ({s.machine with currentRev := s.machine.currentRev + 1},
      {cmd with revision := s.machine.currentRev + 1}) := by
    simp [Machine.fill, Machine.numbered, Machine.timed, ht, CommandType.writes]
  have hstore : ∀ (m : Machine) (c : Command), c.type = .cas →
      (m.execute env c).machine.store = (m.store.apply c).1 := by
    intro m c hc
    simp only [Machine.execute, hc]
    split <;> rfl
  rw [applied_open hs, hfill]
  dsimp only
  rw [hstore _ _ (by exact ht)]
  simp only [KVStore.apply, ht]
  by_cases hm : s.machine.store.casMatches cmd.key cmd.expectedRev = true
  · simp only [hm, if_true, true_and]
    exact s.machine.store.write_data hne cmd.key cmd.value k false
  · simp only [hm, Bool.false_eq_true, if_false, false_and]

theorem applied_deletePrefix {s : Server} (hs : s.persistenceErr = none) (env : Env) {cmd : Command}
    (ht : cmd.type = .deletePrefix) :
    (applied s env cmd).store = (s.machine.store.deletePrefix cmd.keyPrefix).1 := by
  have hfill : s.machine.fill env.now cmd = ({s.machine with currentRev := s.machine.currentRev + 1},
      {cmd with revision := s.machine.currentRev + 1}) := by
    simp [Machine.fill, Machine.numbered, Machine.timed, ht, CommandType.writes]
  rw [applied_open hs, hfill]
  simp only [Machine.execute, ht, Machine.catchUp]
  split <;> rfl

/-- Expiry and TTL that come out the same whatever the clocks have survived. -/
theorem timeSurvives_of_eq {cmd : Command}
    (httl : Machine.defaultTTL cmd.ttl = Machine.defaultTTL (Float64.through cmd.ttl))
    (hexpiry : ∀ now now', filledExpiry now cmd = filledExpiry now' cmd.wire) : TimeSurvives cmd := by
  -- two readings of a clock would give two expiries
  have hclock : ∀ c : Command, c.expireAt ≤ 0 → filledExpiry 0 c ≠ filledExpiry 1 c := by
    intro c hc heq
    unfold filledExpiry at heq
    rw [if_pos hc, if_pos hc] at heq
    unfold Machine.expiryFrom at heq
    have hmod := (Int.bmod_eq_bmod_iff_bmod_sub_eq_zero).mp heq
    have hdiff : ((0 : Nat) : Int) + Machine.defaultTTL c.ttl * 1000000000 -
        (((1 : Nat) : Int) + Machine.defaultTTL c.ttl * 1000000000) = -1 := by
      push_cast
      ring
    rw [hdiff] at hmod
    exact absurd hmod (by decide)
  have hpos : 0 < cmd.expireAt := by
    by_contra hle
    exact hclock cmd (by omega) ((hexpiry 0 0).trans (hexpiry 1 0).symm)
  have hpos' : 0 < cmd.wire.expireAt := by
    by_contra hle
    exact hclock cmd.wire (by omega) ((hexpiry 0 0).symm.trans (hexpiry 0 1))
  refine ⟨?_, hpos, ?_⟩
  · by_cases hle : cmd.ttl ≤ 0
    · exact Or.inl hle
    · right
      unfold Machine.defaultTTL at httl
      rw [if_neg hle] at httl
      split at httl
      · -- the default took the place of a TTL that is not small
        rename_i hneg
        rw [httl] at hneg
        exact absurd hneg (by decide)
      · exact httl.symm
  · have heq := hexpiry 0 0
    unfold filledExpiry at heq
    rw [if_neg (by omega), if_neg (by omega), Command.wire_expireAt] at heq
    exact heq.symm

/-- One more committed command. -/
theorem reachable_applied {s : Server} (h : Reachable s) (hs : s.persistenceErr = none) (env : Env)
    (cmd : Command) : Reachable ⟨applied s env cmd, none⟩ := by
  have hnext := h.applyLoop ⟨env, cmd, none⟩
  have heq : (s.applyLoop ⟨env, cmd, none⟩).server = ⟨applied s env cmd, none⟩ := by
    unfold applied Server.applyLoop
    rw [hs]
  rwa [heq] at hnext

/-- A server on which the leases 1 to `n` have been granted, all with the same TTL and
expiry. -/
theorem reachable_grants (n : Nat) (ttl expireAt : Int) (httl : 0 < ttl) (hexp : 0 < expireAt) :
    ∃ s, Reachable s ∧ s.persistenceErr = none ∧ s.machine.leaseMgr.leaseID = n ∧
      ∀ i : Int, 1 ≤ i → i ≤ n → s.machine.leaseMgr.leases[i]? = some ⟨i, ttl, expireAt, ∅⟩ := by
  induction n with
  | zero =>
    refine ⟨Server.fresh, Reachable.fresh, rfl, rfl, ?_⟩
    intro i h1 hn
    exact absurd hn (by omega)
  | succ n ih =>
    obtain ⟨s, hr, hs, hid, hall⟩ := ih
    have hmgr := @applied_grant s hs (Env.at 0)
      {Command.ofType .leaseGrant with ttl := ttl, expireAt := expireAt} rfl
    have hfill : filledExpiry 0 {Command.ofType .leaseGrant with ttl := ttl, expireAt := expireAt} =
        expireAt := by
      unfold filledExpiry
      rw [if_neg (by show ¬expireAt ≤ 0; omega)]
    have hdef : Machine.defaultTTL ttl = ttl := by
      unfold Machine.defaultTTL
      rw [if_neg (by omega)]
    refine ⟨_, reachable_applied hr hs (Env.at 0)
      {Command.ofType .leaseGrant with ttl := ttl, expireAt := expireAt}, rfl, ?_, ?_⟩
    · show (applied s (Env.at 0) _).leaseMgr.leaseID = _
      rw [hmgr]
      show s.machine.leaseMgr.leaseID + 1 = _
      rw [hid]
      push_cast
      rfl
    · intro i h1 hn
      show (applied s (Env.at 0) _).leaseMgr.leases[i]? = _
      rw [hmgr, LeaseManager.grantUntil_leases, GoMap.get_insert, hid]
      by_cases hi : (n : Int) + 1 = i
      · subst hi
        rw [if_pos rfl]
        show some (Lease.mk _ (Machine.defaultTTL ttl) (filledExpiry 0 _) _) = _
        rw [hdef, hfill]
      · rw [if_neg hi]
        push_cast at hn
        exact hall i h1 (by omega)

/-- A server on which one key has been put `n` times. -/
theorem reachable_puts (n : Nat) (key : Bytes) :
    ∃ s, Reachable s ∧ s.persistenceErr = none ∧ s.machine.currentRev = n ∧
      (0 < n → (s.machine.store.versions key).getLast? = some ⟨n, [], false⟩) ∧
      ∀ k, k ≠ key → s.machine.store.data[k]? = none := by
  induction n with
  | zero =>
    refine ⟨Server.fresh, Reachable.fresh, rfl, rfl, fun h => absurd h (by decide), ?_⟩
    intro k _
    simp [Server.fresh, Machine.fresh, KVStore.newKVStore]
  | succ n ih =>
    obtain ⟨s, hr, hs, hrev, _, hother⟩ := ih
    have hput := @applied_put s hr.consistent hs (Env.at 0) {Command.ofType .put with key := key} rfl
    refine ⟨_, reachable_applied hr hs (Env.at 0) {Command.ofType .put with key := key}, rfl,
      ?_, ?_, ?_⟩
    · show (applied s (Env.at 0) _).currentRev = _
      rw [(hput key).2.2, hrev]
      push_cast
      rfl
    · intro _
      show (KVStore.versions (applied s (Env.at 0) _).store key).getLast? = _
      unfold KVStore.versions
      rw [(hput key).1, if_pos rfl, hrev]
      simp [Command.ofType]
    · intro k hk
      show (applied s (Env.at 0) _).store.data[k]? = _
      rw [(hput k).1, if_neg (Ne.symm hk)]
      exact hother k hk

/-! ### What does not survive parts the replicas -/

section Parting
variable {cmd : Command} (h : Agrees cmd)
include h

theorem put_parts (ht : cmd.type = .put) : Survives cmd := by
  have hwt := (Command.wire_known (by rw [ht]; trivial)).trans ht
  obtain ⟨hstore, _, _⟩ := h Server.fresh Reachable.fresh (Env.at 0) (Env.at 0)
  obtain ⟨hdata, hlease, _⟩ := applied_put Reachable.fresh.consistent rfl (Env.at 0) ht cmd.key
  obtain ⟨hdata', hlease', _⟩ := applied_put Reachable.fresh.consistent rfl (Env.at 0) hwt cmd.key
  rw [hstore, hdata', if_pos rfl] at hdata
  have hkey : Utf8.coerce cmd.key = cmd.key := by
    by_contra hne
    rw [Command.wire_key, if_neg hne] at hdata
    simp [Server.fresh, Machine.fresh, KVStore.newKVStore] at hdata
  rw [Command.wire_key, if_pos hkey, hkey] at hdata
  have hvalue : Utf8.coerce cmd.value = cmd.value := by
    have := List.append_cancel_left (Option.some.inj hdata)
    simpa [Command.wire_value] using this
  simp only [Survives, ht]
  refine ⟨(Utf8.coerce_eq_iff _).mp hkey, (Utf8.coerce_eq_iff _).mp hvalue, ?_⟩
  by_cases hid : cmd.leaseID ≤ 0
  · exact Or.inl hid
  · right
    have hid' : cmd.leaseID > 0 := by omega
    rw [hstore, hlease', if_pos rfl, Command.wire_key, if_pos hkey, if_pos hid',
      Command.wire_leaseID] at hlease
    split at hlease
    · exact Option.some.inj hlease
    · cases hlease

theorem delete_parts (ht : cmd.type = .delete) : Survives cmd := by
  have hwt := (Command.wire_known (by rw [ht]; trivial)).trans ht
  obtain ⟨hstore, _, _⟩ := h Server.fresh Reachable.fresh (Env.at 0) (Env.at 0)
  have hdata := applied_delete Reachable.fresh.consistent rfl (Env.at 0) ht cmd.key
  have hdata' := applied_delete Reachable.fresh.consistent rfl (Env.at 0) hwt cmd.key
  rw [hstore, hdata', if_pos rfl] at hdata
  simp only [Survives, ht]
  refine (Utf8.coerce_eq_iff _).mp ?_
  by_contra hne
  rw [Command.wire_key, if_neg hne] at hdata
  simp [Server.fresh, Machine.fresh, KVStore.newKVStore] at hdata

theorem grant_parts (ht : cmd.type = .leaseGrant) : Survives cmd := by
  have hwt := (Command.wire_known (by rw [ht]; trivial)).trans ht
  have hlease : ∀ now now', Machine.defaultTTL cmd.ttl = Machine.defaultTTL cmd.wire.ttl ∧
      filledExpiry now cmd = filledExpiry now' cmd.wire := by
    intro now now'
    obtain ⟨_, hleases, _⟩ := h Server.fresh Reachable.fresh (Env.at now) (Env.at now')
    rw [applied_grant rfl (Env.at now) ht, applied_grant rfl (Env.at now') hwt,
      LeaseManager.grantUntil_leases, LeaseManager.grantUntil_leases] at hleases
    have hget := congrArg (fun m => m[Server.fresh.machine.leaseMgr.leaseID + 1]?) hleases
    simp only [GoMap.get_insert, if_true, Option.some.injEq, Lease.mk.injEq, true_and, and_true] at hget
    exact hget
  simp only [Survives, ht]
  refine timeSurvives_of_eq ?_ (fun now now' => (hlease now now').2)
  rw [(hlease 0 0).1, Command.wire_ttl]

theorem keepAlive_parts (ht : cmd.type = .leaseKeepAlive) : Survives cmd := by
  have hwt := (Command.wire_known (by rw [ht]; trivial)).trans ht
  simp only [Survives, ht]
  by_cases hid : cmd.leaseID ≤ 0
  · exact Or.inl hid
  · right
    -- a lease with this id whose TTL the renewal changes
    have hpos := Machine.defaultTTL_pos cmd.ttl
    obtain ⟨s, hr, hs, hcount, hall⟩ := reachable_grants cmd.leaseID.toNat
      (Machine.defaultTTL cmd.ttl + 1) 1 (by omega) (by omega)
    have hold := hall cmd.leaseID (by omega) (by omega)
    have hboth : ∀ now now', cmd.wire.leaseID = cmd.leaseID ∧
        Machine.defaultTTL cmd.ttl = Machine.defaultTTL cmd.wire.ttl ∧
        filledExpiry now cmd = filledExpiry now' cmd.wire := by
      intro now now'
      obtain ⟨_, hleases, _⟩ := h s hr (Env.at now) (Env.at now')
      rw [applied_keepAlive hs (Env.at now) ht, applied_keepAlive hs (Env.at now') hwt] at hleases
      have hget := congrArg (fun m => m[cmd.leaseID]?) hleases
      simp only [LeaseManager.keepAliveUntil, hold] at hget
      rw [GoMap.get_insert, if_pos rfl] at hget
      cases hfound : s.machine.leaseMgr.leases[cmd.wire.leaseID]? with
      | none =>
        rw [hfound, hold] at hget
        simp only [Option.some.injEq, Lease.mk.injEq] at hget
        omega
      | some other =>
        rw [hfound] at hget
        simp only [GoMap.get_insert] at hget
        split at hget
        · rename_i heq
          rw [heq, hold] at hfound
          cases hfound
          simp only [Option.some.injEq, Lease.mk.injEq, true_and, and_true] at hget
          exact ⟨heq, hget⟩
        · rw [hold] at hget
          simp only [Option.some.injEq, Lease.mk.injEq] at hget
          omega
    refine ⟨?_, timeSurvives_of_eq ?_ (fun now now' => (hboth now now').2.2)⟩
    · have := (hboth 0 0).1
      rwa [Command.wire_leaseID] at this
    · rw [(hboth 0 0).2.1, Command.wire_ttl]

/-- A lease that one replica removes and the other keeps. -/
theorem revoke_parts (ht : cmd.type = .leaseRevoke) : Survives cmd := by
  have hwt := (Command.wire_known (by rw [ht]; trivial)).trans ht
  simp only [Survives, ht]
  by_cases hid : cmd.leaseID ≤ 0
  · exact Or.inl hid
  · right
    have hkept : ∀ e0, 0 < e0 → ∃ s, Reachable s ∧ s.persistenceErr = none ∧
        s.machine.leaseMgr.leases[cmd.leaseID]? = some ⟨cmd.leaseID, 1, e0, ∅⟩ := by
      intro e0 he0
      obtain ⟨s, hr, hs, _, hall⟩ := reachable_grants cmd.leaseID.toNat 1 e0 (by omega) he0
      exact ⟨s, hr, hs, hall cmd.leaseID (by omega) (by omega)⟩
    have hexact : Float64.Exact cmd.leaseID := by
      -- a lease the leader removes
      obtain ⟨s, hr, hs, hlease⟩ := hkept (if cmd.expireAt > 0 then cmd.expireAt else 1)
        (by split <;> omega)
      obtain ⟨_, hleases, _⟩ := h s hr (Env.at 0) (Env.at 0)
      by_contra hne
      have hgone := removed_of hs (Env.at 0) ht (by omega) hlease (by
        intro hpos
        rw [if_pos hpos])
      have hstays := stays_other hs (Env.at 0) hwt hlease (by
        intro heq
        apply hne
        rw [Command.wire_leaseID] at heq
        exact heq)
      rw [hleases, hstays] at hgone
      cases hgone
    refine ⟨hexact, ?_⟩
    have hid' : cmd.wire.leaseID = cmd.leaseID := by
      rw [Command.wire_leaseID]
      exact hexact
    by_cases hexp : cmd.expireAt ≤ 0
    · exact Or.inl hexp
    · right
      by_contra hne
      by_cases hback : cmd.wire.expireAt ≤ 0
      · -- the follower does not check the expiry any more
        obtain ⟨s, hr, hs, hlease⟩ := hkept (cmd.expireAt + 1) (by omega)
        obtain ⟨_, hleases, _⟩ := h s hr (Env.at 0) (Env.at 0)
        have hstays := stays_expiry hs (Env.at 0) ht hlease (by omega) (by omega)
        have hgone := removed_of hs (Env.at 0) hwt (by omega) (by rw [hid']; exact hlease)
          (fun hpos => absurd hpos (by omega))
        rw [hid', ← hleases, hstays] at hgone
        cases hgone
      · obtain ⟨s, hr, hs, hlease⟩ := hkept cmd.expireAt (by omega)
        obtain ⟨_, hleases, _⟩ := h s hr (Env.at 0) (Env.at 0)
        have hgone := removed_of hs (Env.at 0) ht (by omega) hlease (fun _ => rfl)
        have hstays := stays_expiry hs (Env.at 0) hwt (by rw [hid']; exact hlease) (by omega) (by
          rw [Command.wire_expireAt]
          exact fun heq => hne heq.symm)
        rw [hid', ← hleases, hgone] at hstays
        cases hstays

theorem attach_parts (ht : cmd.type = .leaseAttach) : Survives cmd := by
  have hwt := (Command.wire_known (by rw [ht]; trivial)).trans ht
  simp only [Survives, ht]
  by_cases hid : cmd.leaseID ≤ 0
  · exact Or.inl hid
  · right
    obtain ⟨hstore, _, _⟩ := h Server.fresh Reachable.fresh (Env.at 0) (Env.at 0)
    obtain ⟨hdata, hlease⟩ := applied_attach Reachable.fresh.consistent rfl (Env.at 0) ht
      (by omega) cmd.key
    by_cases hid' : cmd.wire.leaseID ≤ 0
    · -- the follower writes nothing
      have hnone : (applied Server.fresh (Env.at 0) cmd.wire).store.data[cmd.key]? = none := by
        rw [applied_open rfl, attach_none _ (by rw [Machine.fill_type, hwt])
          (by rw [(Machine.fill_fields _ _ _).2.2.1]; exact hid')]
        simp [Machine.fill, Machine.numbered, hwt, CommandType.writes, Server.fresh, Machine.fresh,
          KVStore.newKVStore]
      rw [hstore, hnone, if_pos rfl] at hdata
      cases hdata
    · obtain ⟨hdata', hlease'⟩ := applied_attach Reachable.fresh.consistent rfl (Env.at 0) hwt
        (by omega) cmd.key
      rw [hstore, hdata', if_pos rfl] at hdata
      have hkey : Utf8.coerce cmd.key = cmd.key := by
        by_contra hne
        rw [Command.wire_key, if_neg hne] at hdata
        simp [Server.fresh, Machine.fresh, KVStore.newKVStore] at hdata
      rw [Command.wire_key, if_pos hkey, hkey] at hdata
      have hvalue : Utf8.coerce cmd.value = cmd.value := by
        have := List.append_cancel_left (Option.some.inj hdata)
        simpa [Command.wire_value] using this
      rw [hstore, hlease', if_pos rfl, Command.wire_key, if_pos hkey, Command.wire_leaseID] at hlease
      exact ⟨(Utf8.coerce_eq_iff _).mp hkey, (Utf8.coerce_eq_iff _).mp hvalue, Option.some.inj hlease⟩

/-- The key has been put as often as the expected revision says, so the leader swaps. -/
theorem cas_parts (ht : cmd.type = .cas) : Survives cmd := by
  have hwt := (Command.wire_known (by rw [ht]; trivial)).trans ht
  simp only [Survives, ht]
  by_cases hrev : cmd.expectedRev ≤ 0
  · exact Or.inl hrev
  · right
    obtain ⟨s, hr, hs, _, hlast, hother⟩ := reachable_puts cmd.expectedRev.toNat cmd.key
    have hlast' := hlast (by omega)
    rw [Int.toNat_of_nonneg (by omega)] at hlast'
    have hmatch : s.machine.store.casMatches cmd.key cmd.expectedRev = true := by
      simp [KVStore.casMatches, hlast']
    have hmatches : ∀ rev, s.machine.store.casMatches cmd.key rev = true → rev = cmd.expectedRev := by
      intro rev hm
      simp only [KVStore.casMatches, hlast', Bool.not_false, Bool.true_and, beq_iff_eq] at hm
      exact hm.symm
    obtain ⟨hstore, _, _⟩ := h s hr (Env.at 0) (Env.at 0)
    have hdata := applied_cas hr.consistent hs (Env.at 0) ht cmd.key
    have hdata' := applied_cas hr.consistent hs (Env.at 0) hwt cmd.key
    rw [if_pos ⟨hmatch, rfl⟩, hstore, hdata'] at hdata
    split at hdata
    · rename_i hswap
      obtain ⟨hm, hkey⟩ := hswap
      rw [hkey] at hdata hm
      have hvalue := List.append_cancel_left (Option.some.inj hdata)
      rw [Command.wire_key] at hkey
      refine ⟨(Utf8.coerce_eq_iff _).mp hkey, (Utf8.coerce_eq_iff _).mp ?_, ?_⟩
      · simpa [Command.wire_value] using hvalue
      · rw [Command.wire_expectedRev] at hm
        exact hmatches _ hm
    · -- the follower did not swap
      have hlen := congrArg (fun o => (o.getD []).length) hdata
      simp [KVStore.versions] at hlen

/-- The prefix itself is a key, which the longer prefix of the follower does not cover. -/
theorem deletePrefix_parts (ht : cmd.type = .deletePrefix) : Survives cmd := by
  have hwt := (Command.wire_known (by rw [ht]; trivial)).trans ht
  simp only [Survives, ht]
  by_contra hinvalid
  obtain ⟨s, hr, hs, _, hlast, hother⟩ := reachable_puts 1 cmd.keyPrefix
  obtain ⟨hstore, _, _⟩ := h s hr (Env.at 0) (Env.at 0)
  rw [applied_deletePrefix hs (Env.at 0) ht, applied_deletePrefix hs (Env.at 0) hwt] at hstore
  have hrev : ∀ p, (s.machine.store.deletePrefix p).1.currentRev =
      s.machine.store.currentRev + (s.machine.store.deletePrefix p).2.length := fun p =>
    (KVStore.deleteKeys_spec (s.machine.store.deletePrefix p).2 s.machine.store
      hr.consistent.counted hr.consistent.positive).1
  have hcovered : cmd.keyPrefix ∈ (s.machine.store.deletePrefix cmd.keyPrefix).2 := by
    refine List.mem_filter.mpr ⟨(GoMap.mem_keys_iff _ _).mpr ?_, by simp [KVStore.hasPrefix]⟩
    cases hdata : s.machine.store.data[cmd.keyPrefix]? with
    | some entries => exact ⟨entries, rfl⟩
    | none =>
      have hsome := hlast (by decide)
      rw [KVStore.versions, hdata] at hsome
      cases hsome
  have hmissed : (s.machine.store.deletePrefix cmd.wire.keyPrefix).2 = [] := by
    refine List.filter_eq_nil_iff.mpr ?_
    intro k hk hprefix
    obtain ⟨entries, hentries⟩ := (GoMap.mem_keys_iff _ _).mp hk
    have hkey : k = cmd.keyPrefix := by
      by_contra hne
      rw [hother k hne] at hentries
      cases hentries
    have hle := (List.isPrefixOf_iff_prefix.mp hprefix).length_le
    have hlt := Utf8.length_lt_coerceFrom cmd.keyPrefix 0 (Bool.eq_false_iff.mpr hinvalid)
    rw [Command.wire_keyPrefix, hkey] at hle
    exact absurd hle (by unfold Utf8.coerce; omega)
  have hpos := List.length_pos_of_mem hcovered
  have hcount := congrArg KVStore.currentRev hstore
  rw [hrev, hrev, hmissed] at hcount
  simp only [List.length_nil] at hcount
  omega

end Parting

/-- The replicas agree on exactly the commands that survive JSON. -/
theorem agreement (cmd : Command) : Agrees cmd ↔ Survives cmd := by
  refine ⟨fun h => ?_, agrees_of_survives⟩
  cases ht : cmd.type with
  | put => exact put_parts h ht
  | delete => exact delete_parts h ht
  | leaseGrant => exact grant_parts h ht
  | leaseKeepAlive => exact keepAlive_parts h ht
  | leaseRevoke => exact revoke_parts h ht
  | leaseAttach => exact attach_parts h ht
  | cas => exact cas_parts h ht
  | deletePrefix => exact deletePrefix_parts h ht
  | get | getPrefix | other => simp only [Survives, ht]

/-- A grant as `Submit` fills it: ten seconds, until a time in 2023 with an odd
number of nanoseconds. -/
def oddGrant : Command :=
  {Command.ofType .leaseGrant with ttl := 10, expireAt := 1700000000000000001}

/-- The follower's lease runs out a nanosecond earlier. -/
theorem replicas_part : ¬∀ cmd, Agrees cmd := by
  intro h
  obtain ⟨_, hleases, _⟩ := h oddGrant Server.fresh Reachable.fresh (Env.at 0) (Env.at 0)
  revert hleases
  decide

end Wjetcd.Agreement
