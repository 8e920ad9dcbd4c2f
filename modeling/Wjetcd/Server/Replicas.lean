import Wjetcd.Server.Restart

/-! Two nodes with the same committed log.

A lease that a committed command grants gets the next number of the node's own counter,
and so does the lease of a lock, which is acquired on one node without the log. Later
commands name leases by the number the leader returned. `grants_agree` says when the
nodes agree on these numbers: exactly if every grant of the log found as many locks
acquired before it on the one as on the other. A node that never acquires a lock is a
function of the log, whatever else is asked of its lock manager (`server_of_log`). -/
namespace Wjetcd
open Runs

/-! ### What a node's clock and map orders can change -/

namespace Machine

theorem execute_env {m : Machine} (h : m.leaseMgr.Single) (env env' : Env) (cmd : Command) :
    (m.execute env cmd).machine = (m.execute env' cmd).machine := by
  have hrevoke := LeaseManager.revoke_order h (env.perm cmd.key) (env'.perm cmd.key) cmd.key
  have hall := revokeAll_order env env' (m.store.deletePrefix cmd.keyPrefix).2 m.leaseMgr h
  cases ht : cmd.type with
  | put | delete | other => simp only [execute, executeDefault, ht, hrevoke]
  | leaseAttach => simp only [execute, ht, hrevoke]
  | deletePrefix => simp only [execute, ht, hall]
  | get | getPrefix | cas | leaseGrant | leaseRevoke | leaseKeepAlive => simp only [execute, ht]

theorem fill_timed (m : Machine) (now now' : Nat) {cmd : Command} (h : Timed cmd) :
    m.fill now cmd = m.fill now' cmd := by
  have htimed : ∀ now, timed now (m.numbered cmd).2 = (m.numbered cmd).2 := by
    intro now
    unfold timed numbered
    cases ht : cmd.type with
    | leaseGrant =>
      have hpos := h (Or.inl ht)
      simp [ht, CommandType.writes, Int.not_le.mpr hpos]
    | leaseKeepAlive =>
      have hpos := h (Or.inr ht)
      simp [ht, CommandType.writes, Int.not_le.mpr hpos]
    | _ => simp [ht, CommandType.writes]
  unfold fill
  rw [htimed now, htimed now']

end Machine

/-- A command that has its expiry does the same on any node that can journal it. -/
theorem Server.applyLoop_env {s : Server} (h : Consistent s.machine) (hs : s.persistenceErr = none)
    {d e : Delivery} (hd : d.writeErr = none) (he : e.writeErr = none) (hcmd : e.cmd = d.cmd)
    (htimed : Machine.Timed d.cmd) : (s.applyLoop e).server = (s.applyLoop d).server := by
  rw [(applyLoop_open hs hd).1, (applyLoop_open hs he).1, hcmd,
    s.machine.fill_timed e.env.now d.env.now htimed,
    Machine.execute_env (h.fill d.env.now d.cmd).single e.env d.env]

/-- What a log makes of an empty server. -/
def Server.ofLog (log : List Command) : Server :=
  log.foldl (fun s cmd => (s.applyLoop ⟨Env.at 0, cmd, none⟩).server) Server.fresh

/-! ### A node and its lock manager -/

/-- A node of a cluster. `log` has the commands it applied, `acquired` counts the locks it
granted, and `granted` has for every grant of the log how many locks there had been and
the id the lease got. -/
structure Peer where
  node : Node
  /-- The leases of `KeepAlive` calls that have passed their check. -/
  checked : List Int
  log : List Command
  acquired : Nat
  granted : List (Nat × Int)

namespace Peer

def boot : Peer := ⟨Node.boot, [], [], 0, []⟩

/-- `KeepAlive` renews the lease after it has given up the lock manager's mutex. -/
inductive Action where
  | deliver (d : Delivery)
  | acquire (now : Nat) (key : Bytes) (ttl : Int) (ownerID : Bytes)
  | release (key : Bytes) (leaseID : Int) (ownerID : Bytes)
  | check (key : Bytes) (leaseID : Int) (ownerID : Bytes)
  | renew (now : Nat) (leaseID ttl : Int)
  | getLockStatus (key : Bytes)

/-- The id of a grant is what the counter shows after it. -/
def deliver (p : Peer) (d : Delivery) : Peer :=
  let server := (p.node.server.applyLoop d).server
  {p with
    node := {p.node with server := server}
    log := p.log ++ [d.cmd]
    granted :=
      if d.cmd.type = .leaseGrant then p.granted ++ [(p.acquired, server.machine.leaseMgr.leaseID)]
      else p.granted}

def acquire (p : Peer) (now : Nat) (key : Bytes) (ttl : Int) (ownerID : Bytes) : Peer :=
  match p.node.lockMgr.acquire now key ttl ownerID with
  | (_, .error _) => p
  | (lm, .ok _) => {p with node := p.node.withLocks lm, acquired := p.acquired + 1}

def step (action : Action) (p : Peer) : Option Peer :=
  match action with
  | .deliver d => some (p.deliver d)
  | .acquire now key ttl ownerID => some (p.acquire now key ttl ownerID)
  | .release key leaseID ownerID =>
    some {p with node := p.node.withLocks (p.node.lockMgr.release key leaseID ownerID).1}
  | .check key leaseID ownerID =>
    match p.node.lockMgr.owns key leaseID ownerID with
    | .error _ => some p
    | .ok _ => some {p with checked := leaseID :: p.checked}
  | .renew now leaseID ttl =>
    if leaseID ∈ p.checked then
      some {p with
        node := p.node.withLocks (p.node.lockMgr.renew now leaseID ttl).1
        checked := p.checked.erase leaseID}
    else none
  | .getLockStatus key => some {p with node := p.node.withLocks (p.node.lockMgr.getLockStatus key).1}

/-- The ids of the log's grants. -/
def ids (p : Peer) : List Int := p.granted.map Prod.snd

/-- How many locks each of them found acquired. -/
def before (p : Peer) : List Nat := p.granted.map Prod.fst

def leases (p : Peer) : GoMap Int Lease := p.node.server.machine.leaseMgr.leases

/-- The node can journal what it is handed, and `Submit` has filled in the expiry. -/
def Action.Applied : Action → Prop
  | .deliver d => d.writeErr = none ∧ Machine.Timed d.cmd
  | _ => True

theorem acquire_cases (p : Peer) (now : Nat) (key : Bytes) (ttl : Int) (ownerID : Bytes) :
    p.acquire now key ttl ownerID = p ∨
      ∃ locks, p.acquire now key ttl ownerID =
        {p with
          node := p.node.withLocks ⟨locks, (p.node.lockMgr.leaseMgr.grant now (Machine.defaultTTL ttl)).1⟩
          acquired := p.acquired + 1} := by
  unfold acquire
  rcases p.node.lockMgr.acquire_cases key ownerID now ttl with ⟨_, heq⟩ | ⟨_, heq⟩
  · rw [heq]
    exact Or.inl rfl
  · rw [heq]
    exact Or.inr ⟨_, rfl⟩

/-! ### The counter -/

/-- The counter has counted the locks and the grants, so each grant got the number of
both before it and one more. -/
structure Counted (p : Peer) : Prop where
  journaling : p.node.server.persistenceErr = none
  counter : p.node.server.machine.leaseMgr.leaseID = p.acquired + p.granted.length
  ids : p.ids = p.before.mapIdx fun (i n : Nat) => ((n + i + 1 : Nat) : Int)
  each : p.granted.length = p.log.countP fun cmd => cmd.type = .leaseGrant
  earlier : ∀ n ∈ p.before, n ≤ p.acquired

theorem Counted.boot : Counted boot := ⟨rfl, rfl, rfl, rfl, nofun⟩

/-- A lock call that takes no lease number. -/
theorem Counted.withLocks {p : Peer} (h : Counted p) {lm : LockManager} (checked : List Int)
    (hcounter : lm.leaseMgr.leaseID = p.node.lockMgr.leaseMgr.leaseID) :
    Counted {p with node := p.node.withLocks lm, checked := checked} :=
  ⟨h.journaling, hcounter.trans h.counter, h.ids, h.each, h.earlier⟩

theorem Counted.deliver {p : Peer} (h : Counted p) {d : Delivery} (hd : d.writeErr = none) :
    Counted (p.deliver d) := by
  obtain ⟨_, hcounter, _⟩ := Server.applyLoop_counters h.journaling hd
  have hopen : (p.node.server.applyLoop d).server.persistenceErr = none := by
    rw [(Server.applyLoop_open h.journaling hd).1]
  by_cases hgrant : d.cmd.type = .leaseGrant
  · rw [if_pos hgrant, h.counter] at hcounter
    refine ⟨hopen, ?_, ?_, ?_, ?_⟩
    · simp only [Peer.deliver, if_pos hgrant, List.length_append, List.length_singleton]
      rw [hcounter]
      push_cast
      omega
    · have hids := h.ids
      simp only [Peer.ids, Peer.before, Peer.deliver, if_pos hgrant, List.map_append, List.map_cons,
        List.map_nil, List.mapIdx_concat, List.length_map] at hids ⊢
      rw [hids, hcounter]
      push_cast
      rfl
    · simp [Peer.deliver, hgrant, h.each, List.countP_append]
    · intro n hn
      simp only [Peer.before, Peer.deliver, if_pos hgrant, List.map_append, List.mem_append, List.map_cons,
        List.map_nil, List.mem_singleton] at hn
      rcases hn with hn | rfl
      · exact h.earlier n hn
      · exact le_refl _
  · rw [if_neg hgrant, Int.add_zero] at hcounter
    refine ⟨hopen, ?_, ?_, ?_, ?_⟩
    · simp only [Peer.deliver, if_neg hgrant]
      exact hcounter.trans h.counter
    · simp only [Peer.ids, Peer.before, Peer.deliver, if_neg hgrant]
      exact h.ids
    · simp [Peer.deliver, hgrant, h.each, List.countP_append]
    · simp only [Peer.before, Peer.deliver, if_neg hgrant]
      exact h.earlier

theorem Counted.step (action : Action) (p q : Peer) (h : Counted p) (ha : action.Applied)
    (hs : step action p = some q) : Counted q := by
  cases action with
  | deliver d =>
    cases hs
    exact h.deliver ha.1
  | acquire now key ttl ownerID =>
    cases hs
    rcases p.acquire_cases now key ttl ownerID with heq | ⟨locks, heq⟩
    · rw [heq]
      exact h
    · rw [heq]
      refine ⟨h.journaling, ?_, h.ids, h.each, fun n hn => Nat.le_succ_of_le (h.earlier n hn)⟩
      show p.node.server.machine.leaseMgr.leaseID + 1 = _
      rw [h.counter]
      push_cast
      omega
  | release key leaseID ownerID =>
    cases hs
    apply h.withLocks
    rcases p.node.lockMgr.release_leaseMgr key ownerID leaseID with heq | heq
    · rw [heq]
    · rw [heq]
      exact (p.node.lockMgr.leaseMgr.fewer_revokeLeaseLocked leaseID).counter
  | check key leaseID ownerID =>
    unfold Peer.step at hs
    dsimp only at hs
    split at hs
    · cases hs
      exact h
    · cases hs
      exact ⟨h.journaling, h.counter, h.ids, h.each, h.earlier⟩
  | renew now leaseID ttl =>
    unfold Peer.step at hs
    dsimp only at hs
    split at hs
    · cases hs
      exact h.withLocks _ (p.node.lockMgr.leaseMgr.fewer_keepAliveUntil leaseID _ _).counter
    · cases hs
  | getLockStatus key =>
    cases hs
    apply h.withLocks
    rw [LockManager.getLockStatus_leaseMgr]

/-- Without a lock every grant came after none. -/
theorem Counted.before_zero {p : Peer} (h : Counted p) (hp : p.acquired = 0) :
    p.before = List.replicate (p.log.countP fun cmd => cmd.type = .leaseGrant) 0 := by
  rw [List.eq_replicate_iff]
  refine ⟨?_, fun n hn => ?_⟩
  · rw [before, List.length_map, h.each]
  · have := h.earlier n hn
    omega

/-! ### A node without locks -/

/-- As long as no lock is acquired, the node is what the log makes of an empty server. -/
structure Solo (p : Peer) : Prop where
  locks : p.node.locks = ∅
  checked : p.checked = []
  server : p.node.server = Server.ofLog p.log
  consistent : Consistent p.node.server.machine

theorem Solo.deliver {p : Peer} (h : Solo p) (hc : Counted p) {d : Delivery}
    (ha : (Action.deliver d).Applied) : Solo (p.deliver d) := by
  refine ⟨h.locks, h.checked, ?_, h.consistent.applyLoop d⟩
  show (p.node.server.applyLoop d).server = Server.ofLog (p.log ++ [d.cmd])
  rw [Server.ofLog, List.foldl_append, ← Server.ofLog, ← h.server]
  exact Server.applyLoop_env h.consistent hc.journaling rfl ha.1 rfl ha.2

theorem Solo.unlocked {p : Peer} (h : Solo p) (key : Bytes) : p.node.lockMgr.locks[key]? = none := by
  show p.node.locks[key]? = none
  rw [h.locks]
  rfl

/-- Without a lock in the table, nothing but an acquisition and the log has an effect. -/
theorem Solo.step (action : Action) (p q : Peer) (hc : Counted p) (h : p.acquired = 0 → Solo p)
    (ha : action.Applied) (hs : step action p = some q) : q.acquired = 0 → Solo q := by
  intro hq
  cases action with
  | deliver d =>
    cases hs
    exact (h hq).deliver hc ha
  | acquire now key ttl ownerID =>
    cases hs
    rcases p.acquire_cases now key ttl ownerID with heq | ⟨locks, heq⟩
    · rw [heq] at hq ⊢
      exact h hq
    · rw [heq] at hq
      exact absurd hq (Nat.succ_ne_zero _)
  | release key leaseID ownerID =>
    cases hs
    have hsolo := h hq
    rw [LockManager.release, hsolo.unlocked key]
    exact hsolo
  | check key leaseID ownerID =>
    have hp : p.acquired = 0 := by
      unfold Peer.step at hs
      dsimp only at hs
      split at hs <;> cases hs <;> exact hq
    rw [Peer.step, LockManager.owns, (h hp).unlocked key] at hs
    cases hs
    exact h hq
  | renew now leaseID ttl =>
    unfold Peer.step at hs
    dsimp only at hs
    split at hs
    · rename_i hmem
      cases hs
      rw [(h hq).checked] at hmem
      cases hmem
    · cases hs
  | getLockStatus key =>
    cases hs
    have hsolo := h hq
    rw [LockManager.getLockStatus, hsolo.unlocked key]
    exact hsolo

/-! ### Runs -/

theorem run_counted {actions : List Action} (ha : ∀ a ∈ actions, a.Applied) {p : Peer}
    (h : run step boot actions = some p) : Counted p ∧ (p.acquired = 0 → Solo p) := by
  have halong : Along step (fun a _ => a.Applied) boot actions := along_of_forall ha
  exact run_invariant (P := fun p : Peer => Counted p ∧ (p.acquired = 0 → Solo p))
    (fun a p q hp ha hs => ⟨hp.1.step a p q ha hs, Solo.step a p q hp.1 hp.2 ha hs⟩) actions boot p
    ⟨Counted.boot, fun _ => ⟨rfl, rfl, rfl, Consistent.fresh⟩⟩ halong h

/-- **A node that never acquires a lock is a function of the log.** -/
theorem server_of_log {actions : List Action} (ha : ∀ a ∈ actions, a.Applied) {p : Peer}
    (h : run step boot actions = some p) (hp : p.acquired = 0) : p.node.server = Server.ofLog p.log :=
  ((run_counted ha h).2 hp).server

theorem mapIdx_before {l l' : List Nat}
    (h : (l.mapIdx fun (i n : Nat) => ((n + i + 1 : Nat) : Int)) =
      l'.mapIdx fun (i n : Nat) => ((n + i + 1 : Nat) : Int)) : l = l' := by
  apply List.ext_getElem?
  intro i
  have hi := congrArg (fun ids : List Int => ids[i]?) h
  simp only [List.getElem?_mapIdx] at hi
  cases hl : l[i]? with
  | none =>
    cases hl' : l'[i]? with
    | none => rfl
    | some b => simp [hl, hl'] at hi
  | some a =>
    cases hl' : l'[i]? with
    | none => simp [hl, hl'] at hi
    | some b =>
      simp only [hl, hl', Option.map_some, Option.some.injEq] at hi
      rw [show a = b by omega]

/-- **Two nodes that applied the same log gave its leases the same ids exactly if** every
grant came after as many acquired locks on the one as on the other; and if neither ever
acquired a lock, their lease tables are the same. -/
theorem grants_agree (p q : Peer) (as bs : List Action) (hp : run step boot as = some p)
    (hq : run step boot bs = some q) (has : ∀ a ∈ as, a.Applied) (hbs : ∀ b ∈ bs, b.Applied)
    (hlog : p.log = q.log) :
    (p.ids = q.ids ↔ p.before = q.before) ∧
      (p.acquired = 0 → q.acquired = 0 → p.ids = q.ids ∧ p.leases = q.leases) := by
  have hpc := (run_counted has hp).1
  have hqc := (run_counted hbs hq).1
  have hids : p.ids = q.ids ↔ p.before = q.before := by
    rw [hpc.ids, hqc.ids]
    exact ⟨mapIdx_before, fun h => by rw [h]⟩
  refine ⟨hids, fun hp0 hq0 => ⟨?_, ?_⟩⟩
  · rw [hids, hpc.before_zero hp0, hqc.before_zero hq0, hlog]
  · unfold leases
    rw [server_of_log has hp hp0, server_of_log hbs hq hq0, hlog]

/-- A lease granted for five seconds, with its expiry. -/
def timedGrant (now : Nat) : Delivery :=
  ⟨Env.at now, {Command.ofType .leaseGrant with ttl := 5, expireAt := 5000000000}, none⟩

theorem timedGrant_applied (now : Nat) : (Action.deliver (timedGrant now)).Applied :=
  ⟨rfl, fun _ => show (0 : Int) < 5000000000 by decide⟩

/-- A release of a lock that is not held leaves no trace. -/
theorem grants_agree_unlocked :
    ∃ p q, run step boot [.release (ascii "l") 1 (ascii "o"), .deliver (timedGrant 3)] = some p ∧
      run step boot [.deliver (timedGrant 7)] = some q ∧ p.ids = [1] ∧ p.ids = q.ids ∧
      p.leases = q.leases := by
  refine ⟨_, _, rfl, rfl, rfl, ?_⟩
  exact (grants_agree _ _ [.release (ascii "l") 1 (ascii "o"), .deliver (timedGrant 3)]
    [.deliver (timedGrant 7)] rfl rfl
    (List.forall_mem_cons.mpr ⟨trivial, List.forall_mem_singleton.mpr (timedGrant_applied 3)⟩)
    (List.forall_mem_singleton.mpr (timedGrant_applied 7)) rfl).2 rfl rfl

/-- A lock acquired on one of the nodes shifts the ids of all later grants there. -/
theorem lock_shifts_ids :
    ¬∀ (p q : Peer) (as bs : List Action), run step boot as = some p → run step boot bs = some q →
      (∀ a ∈ as, a.Applied) → (∀ b ∈ bs, b.Applied) → p.log = q.log → p.ids = q.ids := by
  intro h
  have hsame := h _ _ [.acquire 1 (ascii "l") 5 (ascii "o"), .deliver (timedGrant 3)]
    [.deliver (timedGrant 7)] rfl rfl
    (List.forall_mem_cons.mpr ⟨trivial, List.forall_mem_singleton.mpr (timedGrant_applied 3)⟩)
    (List.forall_mem_singleton.mpr (timedGrant_applied 7)) rfl
  exact absurd hsame (by decide)

end Peer
end Wjetcd
