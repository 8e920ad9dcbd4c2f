import Wjetcd.Server.Life

/-! Recovery mirrors the live loop.

`applyRecoveredCommand` is written out beside `applyLoop`, with its own way of
numbering (take the journaled revision, or the next one), without the guard on
lease ids, and with a final step up to the store's counter. From a consistent
state it does to the machine exactly what the live loop did when it journaled the
command (`applyRecoveredCommand_eq`), whatever its own clock and map orders. So
replaying what a run has journaled, up to any point, gives the machine of that
point (`recovery_mirrors`). -/
namespace Wjetcd
namespace Machine

/-! ### The pieces -/

/-- Recovery reads the number back that the live loop gave. -/
theorem renumbered_fill {m : Machine} (h : Consistent m) (now : Nat) (cmd : Command) :
    m.renumbered (m.fill now cmd).2 = m.fill now cmd := by
  have ha := h.ahead
  have hc := h.counted
  unfold renumbered
  rw [fill_type]
  cases hw : cmd.type.writes
  · have hfst : (m.fill now cmd).1 = m := by simp [fill, numbered, hw]
    rw [if_neg (by decide)]
    exact Prod.ext hfst.symm rfl
  · have hrev : (m.fill now cmd).2.revision = m.currentRev + 1 := by simp [fill, numbered, hw]
    have hfst : (m.fill now cmd).1 = {m with currentRev := m.currentRev + 1} := by
      simp [fill, numbered, hw]
    rw [if_pos rfl, if_neg (by omega), if_pos (by omega)]
    refine Prod.ext ?_ rfl
    rw [hfst, hrev]

theorem recoverKeys_eq (keys : List Bytes) :
    ∀ m : Machine, recoverKeys m keys = .ok (expireKeys m keys).1 := by
  induction keys with
  | nil =>
    intro m
    rfl
  | cons key rest ih =>
    intro m
    have hok : (m.store.apply (deleteCmd key (m.currentRev + 1))).2 = .ok [] := rfl
    rw [recoverKeys, hok]
    exact ih _

/-- The loop over deleted keys does not depend on the order of maps either. -/
theorem revokeAll_order (env env' : Env) (keys : List Bytes) : ∀ le : LeaseManager, le.Single →
    revokeAll env le keys = revokeAll env' le keys := by
  induction keys with
  | nil =>
    intro le _
    rfl
  | cons key rest ih =>
    intro le hs
    have hone := LeaseManager.revoke_order hs (env.perm key) (env'.perm key) key
    have hs' : (le.revoke (env'.order key) key).1.Single := fun k i j hi hj =>
      hs k i j (LeaseManager.holds_revoke hs (env'.perm key) hi).1
        (LeaseManager.holds_revoke hs (env'.perm key) hj).1
    show revokeAll env (le.revoke (env.order key) key).1 rest =
      revokeAll env' (le.revoke (env'.order key) key).1 rest
    rw [hone]
    exact ih _ hs'

/-- A lease id that is not positive belongs to no lease. -/
theorem revokeLease_absent {m : Machine} (h : Consistent m) {id : Int} (hid : ¬id > 0) (expected : Int) :
    m.leaseMgr.revokeLease id = (m.leaseMgr, []) ∧
      m.leaseMgr.revokeLeaseIfMatches id expected = (m.leaseMgr, []) := by
  have hnone : m.leaseMgr.leases[id]? = none := by
    cases hl : m.leaseMgr.leases[id]? with
    | none => rfl
    | some lease => exact absurd (h.numbered.ids id lease hl) (by omega)
  constructor
  · simp only [LeaseManager.revokeLease, LeaseManager.revokeLeaseLocked, hnone]
  · simp only [LeaseManager.revokeLeaseIfMatches, hnone]

/-! ### One command -/

/-- The record has its expiry, or needs none. -/
def Timed (cmd : Command) : Prop :=
  cmd.type = .leaseGrant ∨ cmd.type = .leaseKeepAlive → 0 < cmd.expireAt

theorem recoveredExpiry_timed (env : Env) {cmd : Command} (h : 0 < cmd.expireAt) :
    recoveredExpiry env cmd = cmd.expireAt := by
  unfold recoveredExpiry
  rw [if_neg (by omega)]

theorem recoverDefault_eq {m : Machine} (h : Consistent m) (env env' : Env) {cmd : Command}
    (ht : cmd.type = .put ∨ cmd.type = .delete) :
    recoverDefault env' m cmd = .ok (m.executeDefault env cmd).machine := by
  have hrevoke := LeaseManager.revoke_order h.single (env.perm cmd.key) (env'.perm cmd.key) cmd.key
  have hok : (m.store.apply cmd).2 = .ok [] := by
    rcases ht with ht | ht
    · simp only [KVStore.apply, ht]
    · simp only [KVStore.apply, ht]
  have hswap : (cmd.type = .put ∧ cmd.leaseID > 0) = (cmd.leaseID > 0 ∧ cmd.type = .put) :=
    propext And.comm
  simp only [recoverDefault, executeDefault, hok, hrevoke, hswap]
  split <;> rfl

/-- The recovery switch does what the live one does, up to the final step to the
store's counter. -/
theorem recoverSwitch_eq {m : Machine} (h : Consistent m) (env env' : Env) {cmd : Command}
    (hknown : cmd.type.Known) (htimed : Timed cmd)
    (hrev : cmd.type.writes = true → cmd.revision = m.currentRev ∧ 1 ≤ m.currentRev) :
    (recoverSwitch env' m cmd).map catchUp = .ok (m.execute env cmd).machine := by
  have hafter : (m.execute env cmd).machine.catchUp = (m.execute env cmd).machine :=
    (h.execute env hrev).catchUp
  -- all but the prefix delete give the live machine before that step
  have hdone : recoverSwitch env' m cmd = .ok (m.execute env cmd).machine →
      (recoverSwitch env' m cmd).map catchUp = .ok (m.execute env cmd).machine := by
    intro heq
    rw [heq]
    exact congrArg Except.ok hafter
  cases ht : cmd.type with
  | leaseGrant =>
    apply hdone
    have hexpiry := recoveredExpiry_timed env' (htimed (Or.inl ht))
    simp only [recoverSwitch, execute, ht, hexpiry]
  | leaseKeepAlive =>
    apply hdone
    have hexpiry := recoveredExpiry_timed env' (htimed (Or.inr ht))
    simp only [recoverSwitch, execute, ht, hexpiry]
  | leaseRevoke =>
    apply hdone
    by_cases hid : cmd.leaseID > 0
    · simp only [recoverSwitch, execute, ht, hid, if_true, recoverKeys_eq]
    · obtain ⟨hplain, hchecked⟩ := revokeLease_absent h hid cmd.expireAt
      simp only [recoverSwitch, execute, ht, hid, if_false, hplain, hchecked, ite_self, recoverKeys]
  | leaseAttach =>
    apply hdone
    have hrevoke := LeaseManager.revoke_order h.single (env.perm cmd.key) (env'.perm cmd.key) cmd.key
    by_cases hid : cmd.leaseID > 0
    · simp only [recoverSwitch, execute, ht, hid, if_true, hrevoke]
      rfl
    · simp only [recoverSwitch, execute, ht, hid, if_false]
  | cas =>
    apply hdone
    simp only [recoverSwitch, execute, ht]
    have hok : ∃ text, (m.store.apply cmd).2 = .ok text := by
      simp only [KVStore.apply, ht]
      split <;> exact ⟨_, rfl⟩
    obtain ⟨text, htext⟩ := hok
    simp only [htext, textOf]
    by_cases hwon : text = ascii "OK"
    · simp only [hwon, true_and, if_true]
      split <;> rfl
    · simp only [hwon, false_and, if_false]
  | deletePrefix =>
    simp only [recoverSwitch, execute, ht, Except.map,
      revokeAll_order env' env (m.store.deletePrefix cmd.keyPrefix).2 m.leaseMgr h.single]
  | getPrefix =>
    apply hdone
    simp only [recoverSwitch, execute, ht]
  | get =>
    apply hdone
    have hok : m.store.apply cmd = (m.store, .ok (m.store.getAtRevision cmd.key cmd.revision).1) := by
      simp only [KVStore.apply, ht]
    simp only [recoverSwitch, execute, ht, recoverDefault, hok, reduceCtorEq, or_self, false_and,
      if_false]
  | put =>
    apply hdone
    have heq := recoverDefault_eq h env env' (Or.inl ht)
    simp only [recoverSwitch, execute, ht]
    exact heq
  | delete =>
    apply hdone
    have heq := recoverDefault_eq h env env' (Or.inr ht)
    simp only [recoverSwitch, execute, ht]
    exact heq
  | other n hn =>
    rw [ht] at hknown
    exact absurd hknown id

/-- **Replaying a command as it was journaled does what applying it did.** -/
theorem applyRecoveredCommand_eq {m : Machine} (h : Consistent m) (env env' : Env) {cmd : Command}
    (hknown : cmd.type.Known) (htimed : Timed (m.fill env.now cmd).2) :
    applyRecoveredCommand env' m (m.fill env.now cmd).2 =
      .ok ((m.fill env.now cmd).1.execute env (m.fill env.now cmd).2).machine := by
  unfold applyRecoveredCommand
  rw [renumbered_fill h]
  exact recoverSwitch_eq (h.fill env.now cmd) env env' (by rw [fill_type]; exact hknown) htimed
    (fill_revision h env.now cmd)

/-- What recovery computes from typed records, apart from the store's lock; it has a clock and
map orders of its own at every record. -/
def replay (env : Nat → Env) (m : Machine) : List Command → Except String Machine
  | [] => .ok m
  | cmd :: rest =>
    match applyRecoveredCommand (env 0) m cmd with
    | .error err => .error err
    | .ok m' => replay (fun i => env (i + 1)) m' rest

/-- `replayEntries`, with that lock: on a `CmdGet` recovery waits for itself (`Locking`). It
fails on what is not a command and on an error, and the process does not come up either. -/
def replayEntries (env : Nat → Env) (m : Machine) : List (Option Command) → Option Machine
  | [] => some m
  | none :: _ => none
  | some cmd :: rest =>
    if cmd.type = .get then none
    else
      match applyRecoveredCommand (env 0) m cmd with
      | .error _ => none
      | .ok m' => replayEntries (fun i => env (i + 1)) m' rest

/-- Without a `CmdGet` it gets as far as the commands do. -/
theorem replayEntries_eq {records : List Command} (hget : ∀ record ∈ records, record.type ≠ .get)
    (env : Nat → Env) (m : Machine) :
    m.replayEntries env (records.map some) = (m.replay env records).toOption := by
  induction records generalizing m env with
  | nil => rfl
  | cons record rest ih =>
    rw [List.map_cons, replayEntries, if_neg (hget record List.mem_cons_self), replay]
    cases applyRecoveredCommand (env 0) m record with
    | error err => rfl
    | ok m' => exact ih (fun other hother => hget other (List.mem_cons_of_mem _ hother)) _ m'

end Machine

/-! ### Runs -/

/-- The server after a run of deliveries, and what it has journaled. -/
def Server.live (s : Server) : List Delivery → Server × List Command
  | [] => (s, [])
  | d :: rest =>
    let iteration := s.applyLoop d
    let result := iteration.server.live rest
    (result.1, iteration.journaled.toList ++ result.2)

/-- Where the loop computes `now + ttl*10^9`, it does not leave 64 bits. -/
def Delivery.InTime (d : Delivery) : Prop :=
  d.cmd.type = .leaseGrant ∨ d.cmd.type = .leaseKeepAlive → d.cmd.expireAt ≤ 0 →
    d.env.now + Machine.defaultTTL d.cmd.ttl * 1000000000 < 2 ^ 63

namespace Server

/-- Within 64 bits the loop fills in a positive expiry. -/
theorem timed_fill (m : Machine) {d : Delivery} (h : d.InTime) :
    Machine.Timed (m.fill d.env.now d.cmd).2 := by
  intro ht
  rw [Machine.fill_type] at ht
  rw [m.fill_lease d.env.now ht]
  by_cases hexpire : d.cmd.expireAt ≤ 0
  · have hpos := Machine.defaultTTL_pos d.cmd.ttl
    rw [Machine.timed_unset d.env.now ht hexpire, Machine.expiryFrom_exact hpos (h ht hexpire)]
    dsimp only
    omega
  · rw [Machine.timed_set d.env.now (not_le.mp hexpire)]
    omega

/-- An iteration that fails to journal leaves the store and the leases alone. -/
theorem applyLoop_failed {s : Server} {d : Delivery} (h : (s.applyLoop d).journaled = none) :
    (s.applyLoop d).server.machine.store = s.machine.store ∧
      (s.applyLoop d).server.machine.leaseMgr = s.machine.leaseMgr := by
  rcases s.applyLoop_cases d with ⟨_, failure, heq⟩ | ⟨_, outcome, _, heq⟩
  · rw [heq]
    exact ⟨s.machine.fill_store d.env.now d.cmd, s.machine.fill_leaseMgr d.env.now d.cmd⟩
  · rw [heq] at h
    cases h

/-- Once stopped, the loop journals nothing and stays stopped. -/
theorem applyLoop_stopped {s : Server} (h : s.persistenceErr ≠ none) (d : Delivery) :
    (s.applyLoop d).journaled = none ∧ (s.applyLoop d).server.persistenceErr ≠ none := by
  rcases s.applyLoop_cases d with ⟨_, failure, heq⟩ | ⟨hopen, _⟩
  · rw [heq]
    exact ⟨rfl, by simp⟩
  · exact absurd hopen.1 h

theorem live_stopped (ds : List Delivery) : ∀ s : Server, s.persistenceErr ≠ none →
    (s.live ds).2 = [] ∧ (s.live ds).1.machine.store = s.machine.store ∧
      (s.live ds).1.machine.leaseMgr = s.machine.leaseMgr := by
  induction ds with
  | nil =>
    intro s _
    exact ⟨rfl, rfl, rfl⟩
  | cons d rest ih =>
    intro s h
    obtain ⟨hnone, hstop⟩ := applyLoop_stopped h d
    obtain ⟨hstore, hlease⟩ := applyLoop_failed hnone
    obtain ⟨hj, hstore', hlease'⟩ := ih (s.applyLoop d).server hstop
    refine ⟨?_, hstore'.trans hstore, hlease'.trans hlease⟩
    simp only [live, hnone, hj, Option.toList_none, List.append_nil]

/-- What a journaling iteration did is what replaying its record does. -/
theorem applyLoop_journaled {s : Server} {d : Delivery} {cmd : Command} (h : Consistent s.machine)
    (hknown : d.cmd.type.Known) (htime : d.InTime) (hj : (s.applyLoop d).journaled = some cmd)
    (env : Env) :
    Machine.applyRecoveredCommand env s.machine cmd = .ok (s.applyLoop d).server.machine := by
  have heq := Machine.applyRecoveredCommand_eq h d.env env hknown (timed_fill s.machine htime)
  rcases s.applyLoop_cases d with ⟨_, failure, hfailed⟩ | ⟨_, outcome, rfl, hdone⟩
  · rw [hfailed] at hj
    cases hj
  · rw [hdone] at hj ⊢
    cases hj
    exact heq

/-- Every beginning of the journal is the journal of some beginning of the run, and
replaying it gives that point's machine. -/
theorem replay_live (ds : List Delivery) : ∀ (s : Server) (env : Nat → Env) (records : List Command),
    Consistent s.machine → (∀ d ∈ ds, d.cmd.type.Known) → (∀ d ∈ ds, d.InTime) →
    records <+: (s.live ds).2 →
    ∃ k ≤ ds.length, (s.live (ds.take k)).2 = records ∧
      s.machine.replay env records = .ok (s.live (ds.take k)).1.machine := by
  induction ds with
  | nil =>
    intro s env records _ _ _ hpre
    have hnil : records = [] := List.prefix_nil.mp hpre
    exact ⟨0, le_refl _, hnil.symm, by rw [hnil]; rfl⟩
  | cons d rest ih =>
    intro s env records h hknown htime hpre
    cases records with
    | nil => exact ⟨0, Nat.zero_le _, rfl, rfl⟩
    | cons cmd records =>
      cases hj : (s.applyLoop d).journaled with
      | none =>
        -- the run has stopped, so nothing was journaled after this either
        exfalso
        have hstop : (s.applyLoop d).server.persistenceErr ≠ none := by
          rcases s.applyLoop_cases d with ⟨_, failure, heq⟩ | ⟨_, outcome, _, heq⟩
          · rw [heq]
            simp
          · rw [heq] at hj
            cases hj
        have hempty := (live_stopped rest _ hstop).1
        simp only [live, hj, hempty, Option.toList_none, List.append_nil, List.prefix_nil] at hpre
        cases hpre
      | some written =>
        simp only [live, hj, Option.toList_some, List.singleton_append, List.cons_prefix_cons] at hpre
        obtain ⟨rfl, hpre⟩ := hpre
        have hone := applyLoop_journaled h (hknown d List.mem_cons_self)
          (htime d List.mem_cons_self) hj (env 0)
        obtain ⟨k, hk, hrecords, hreplay⟩ := ih (s.applyLoop d).server (fun i => env (i + 1)) records
          (h.applyLoop d) (fun e he => hknown e (List.mem_cons_of_mem _ he))
          (fun e he => htime e (List.mem_cons_of_mem _ he)) hpre
        refine ⟨k + 1, Nat.succ_le_succ hk, ?_, ?_⟩
        · rw [List.take_succ_cons, live, hj, hrecords]
          rfl
        · rw [Machine.replay, hone, List.take_succ_cons]
          exact hreplay

theorem live_append (ds : List Delivery) : ∀ (s : Server) (rest : List Delivery),
    (s.live (ds ++ rest)).1 = ((s.live ds).1.live rest).1 := by
  induction ds with
  | nil => exact fun _ _ => rfl
  | cons d ds ih => exact fun s rest => ih (s.applyLoop d).server rest

theorem live_append_journal (ds : List Delivery) : ∀ (s : Server) (rest : List Delivery),
    (s.live (ds ++ rest)).2 = (s.live ds).2 ++ ((s.live ds).1.live rest).2 := by
  induction ds with
  | nil => exact fun _ _ => rfl
  | cons d ds ih =>
    intro s rest
    rw [List.cons_append, live, live, ih (s.applyLoop d).server rest, List.append_assoc]

/-- The store and the leases move only with the journal. -/
theorem live_take_stopped {s : Server} {ds : List Delivery} {i j : Nat} (hij : i ≤ j)
    (hstop : (s.live (ds.take i)).1.persistenceErr ≠ none) :
    (s.live (ds.take j)).1.machine.store = (s.live (ds.take i)).1.machine.store ∧
      (s.live (ds.take j)).1.machine.leaseMgr = (s.live (ds.take i)).1.machine.leaseMgr := by
  have hsplit : ds.take j = ds.take i ++ (ds.take j).drop i := by
    conv_lhs => rw [← List.take_append_drop i (ds.take j), List.take_take, Nat.min_eq_left hij]
  rw [hsplit, live_append]
  exact (live_stopped _ _ hstop).2

end Server

/-- **Recovery mirrors the live loop.** From any reachable state and for any run of
commands of the ten types, each beginning of what the loop journaled replays without
error to the machine the loop had when it had journaled just that; and once
journaling has failed, neither the store nor the lease table changes. -/
theorem recovery_mirrors (s : Server) (hs : Reachable s) (ds : List Delivery)
    (hknown : ∀ d ∈ ds, d.cmd.type.Known) (htime : ∀ d ∈ ds, d.InTime) (env : Nat → Env) :
    (∀ records, records <+: (s.live ds).2 → ∃ k ≤ ds.length,
      (s.live (ds.take k)).2 = records ∧
        s.machine.replay env records = .ok (s.live (ds.take k)).1.machine) ∧
      ∀ i j, i ≤ j → (s.live (ds.take i)).1.persistenceErr ≠ none →
        (s.live (ds.take j)).1.machine.store = (s.live (ds.take i)).1.machine.store ∧
          (s.live (ds.take j)).1.machine.leaseMgr = (s.live (ds.take i)).1.machine.leaseMgr :=
  ⟨fun records hpre => Server.replay_live ds s env records hs.consistent hknown htime hpre,
    fun _ _ hij hstop => Server.live_take_stopped hij hstop⟩

/-- A lease granted for three seconds, a key put under it, and a write that fails. -/
def leaseThenPut : List Delivery :=
  [⟨Env.at 5, {Command.ofType .leaseGrant with ttl := 3}, none⟩,
    ⟨Env.at 6, {Command.ofType .put with key := ascii "k", value := ascii "v", leaseID := 1}, none⟩,
    ⟨Env.at 7, {Command.ofType .delete with key := ascii "k"}, some "disk full"⟩]

theorem recovery_mirrors_lease :
    (Server.fresh.live leaseThenPut).2.length = 2 ∧
      ∀ records, records <+: (Server.fresh.live leaseThenPut).2 → ∃ k ≤ 3,
        (Server.fresh.live (leaseThenPut.take k)).2 = records ∧
          Server.fresh.machine.replay (fun _ => Env.at 99) records =
            .ok (Server.fresh.live (leaseThenPut.take k)).1.machine :=
  ⟨by decide, (recovery_mirrors Server.fresh Reachable.fresh leaseThenPut
    (by simp [leaseThenPut, Command.ofType, CommandType.Known])
    (by simp [leaseThenPut, Delivery.InTime, Command.ofType, Env.at, Machine.defaultTTL])
    (fun _ => Env.at 99)).1⟩

end Wjetcd
