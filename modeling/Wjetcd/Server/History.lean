import Wjetcd.Lib.Versions
import Wjetcd.Server.Life
import Wjetcd.Server.Process

/-! The history a server keeps: versions of keys, and the events about them.

Revisions come from two counters, the server's and the store's. Most commands are numbered
by the server's; `DeletePrefix` numbers its tombstones by the store's, which a failed
compare-and-swap or an attach without a lease leaves behind.

The store's own numbers always go up, so that a revision names one version and reading
at it gives the same answer for ever (`time_travel`). The server's do not: a prefix delete
may use numbers that the server has already handed out (`revisions_above_iff`). And the
events that watchers replay are the versions of the store for most commands only
(`events_mirror_iff`). -/
namespace Wjetcd
open Runs

/-! ### What a command appends -/

namespace KVStore

/-- One store has grown into another by the versions of a log, numbered between the
two counters. -/
def Appends (kv kv' : KVStore) (log : List (Bytes × VersionEntry)) : Prop :=
  Versions.Extends VersionEntry.revision kv.versions kv'.versions kv.currentRev kv'.currentRev log

theorem Appends.refl (kv : KVStore) : kv.Appends kv [] := Versions.Extends.refl _ _ _

theorem Appends.trans {kv mid kv' : KVStore} {log log' : List (Bytes × VersionEntry)}
    (h : kv.Appends mid log) (h' : mid.Appends kv' log') : kv.Appends kv' (log ++ log') :=
  Versions.Extends.trans h h'

theorem record_versions (kv : KVStore) (key : Bytes) (entry : VersionEntry) (k : Bytes) :
    (kv.record key entry).versions k = if key = k then kv.versions k ++ [entry] else kv.versions k := by
  unfold versions record
  rw [GoMap.get_insert]
  by_cases hk : key = k
  · simp [hk, versions]
  · simp [hk]

/-- A write with a revision above the counter. -/
theorem write_appends {kv : KVStore} {revision : Int} (h : kv.currentRev < revision)
    (hne : revision ≠ 0) (key value : Bytes) (tombstone : Bool) :
    kv.Appends (kv.write key revision value tombstone) [(key, ⟨revision, value, tombstone⟩)] := by
  unfold write stamp
  rw [if_neg hne, if_pos h]
  exact Versions.Extends.single key _ (record_versions {kv with currentRev := revision} key _) h le_rfl

theorem deleteKey_appends (kv : KVStore) (key : Bytes) :
    kv.Appends (kv.deleteKey key) [(key, ⟨kv.currentRev + 1, [], true⟩)] := by
  refine Versions.Extends.single key _
    (record_versions {kv with currentRev := kv.currentRev + 1} key _) ?_ le_rfl
  show kv.currentRev < kv.currentRev + 1
  omega

/-- Tombstones on a list of keys, numbered from the one after `rev`. -/
def tombstones (rev : Int) : List Bytes → List (Bytes × VersionEntry)
  | [] => []
  | key :: rest => (key, ⟨rev + 1, [], true⟩) :: tombstones (rev + 1) rest

/-- The loop of `DeletePrefix`. -/
theorem deleteKeys_appends (keys : List Bytes) : ∀ kv : KVStore,
    kv.Appends (keys.foldl deleteKey kv) (tombstones kv.currentRev keys) := by
  induction keys with
  | nil => exact Appends.refl
  | cons key rest ih =>
    intro kv
    exact (kv.deleteKey_appends key).trans (ih (kv.deleteKey key))

section Apply
variable (kv : KVStore) {cmd : Command}

theorem apply_put_appends (ht : cmd.type = .put) (h : kv.currentRev < cmd.revision)
    (hne : cmd.revision ≠ 0) :
    kv.Appends (kv.apply cmd).1 [(cmd.key, ⟨cmd.revision, cmd.value, false⟩)] := by
  have hwrite := write_appends h hne cmd.key cmd.value false
  simp only [apply, ht]
  split <;> exact hwrite

theorem apply_delete_appends (ht : cmd.type = .delete) (h : kv.currentRev < cmd.revision)
    (hne : cmd.revision ≠ 0) :
    kv.Appends (kv.apply cmd).1 [(cmd.key, ⟨cmd.revision, [], true⟩)] := by
  have hwrite := write_appends h hne cmd.key [] true
  simp only [apply, ht]
  exact hwrite

theorem apply_cas_appends (ht : cmd.type = .cas) (h : kv.currentRev < cmd.revision)
    (hne : cmd.revision ≠ 0) :
    kv.Appends (kv.apply cmd).1 (if kv.casMatches cmd.key cmd.expectedRev then
      [(cmd.key, ⟨cmd.revision, cmd.value, false⟩)] else []) := by
  simp only [apply, ht]
  split
  · exact write_appends h hne cmd.key cmd.value false
  · exact Appends.refl kv

end Apply

end KVStore

namespace Machine
open KVStore

/-- The versions that executing a command appends, in the order in which it does. -/
def appended (m : Machine) (cmd : Command) : List (Bytes × VersionEntry) :=
  match cmd.type with
  | .put => [(cmd.key, ⟨cmd.revision, cmd.value, false⟩)]
  | .delete => [(cmd.key, ⟨cmd.revision, [], true⟩)]
  | .cas =>
    if m.store.casMatches cmd.key cmd.expectedRev then [(cmd.key, ⟨cmd.revision, cmd.value, false⟩)]
    else []
  | .leaseAttach =>
    if cmd.leaseID > 0 then [(cmd.key, ⟨cmd.revision, cmd.value, false⟩)] else []
  | .leaseRevoke => if cmd.leaseID > 0 then tombstones m.currentRev (m.revokedBy cmd).2 else []
  | .deletePrefix => tombstones m.store.currentRev (m.store.deletePrefix cmd.keyPrefix).2
  | _ => []

/-- The loop of `LeaseRevoke`, numbered by the server's counter. -/
theorem expireKeys_appends (keys : List Bytes) : ∀ m : Machine, 0 ≤ m.currentRev →
    m.store.currentRev ≤ m.currentRev →
    m.store.Appends (expireKeys m keys).1.store (tombstones m.currentRev keys) := by
  induction keys with
  | nil =>
    intro m _ _
    exact Appends.refl m.store
  | cons key rest ih =>
    intro m hc ha
    have hone : m.store.Appends (m.store.apply (deleteCmd key (m.currentRev + 1))).1
        [(key, ⟨m.currentRev + 1, [], true⟩)] :=
      apply_delete_appends m.store (show (deleteCmd key (m.currentRev + 1)).type = .delete from rfl)
        (show m.store.currentRev < m.currentRev + 1 by omega) (show m.currentRev + 1 ≠ 0 by omega)
    have hrev : (m.store.apply (deleteCmd key (m.currentRev + 1))).1.currentRev = m.currentRev + 1 := by
      show (m.store.write key (m.currentRev + 1) [] true).currentRev = m.currentRev + 1
      rw [m.store.write_currentRev (by omega)]
      omega
    exact hone.trans (ih {m with currentRev := m.currentRev + 1,
                                 store := (m.store.apply (deleteCmd key (m.currentRev + 1))).1}
      (show 0 ≤ m.currentRev + 1 by omega) hrev.le)

/-- A compare-and-swap answers "OK" where it writes. -/
theorem casMatches_iff (m : Machine) {cmd : Command} (ht : cmd.type = .cas) :
    textOf (m.store.apply cmd).2 = ascii "OK" ↔ m.store.casMatches cmd.key cmd.expectedRev = true := by
  simp only [KVStore.apply, ht]
  split
  · rename_i hmatch
    simp [hmatch, textOf]
  · rename_i hmatch
    simp only [hmatch, textOf]
    decide

/-- What the switch of the apply loop does to the store. -/
theorem execute_appends {m : Machine} (h : Consistent m) (env : Env) {cmd : Command}
    (hrev : cmd.type.writes = true → cmd.revision = m.currentRev ∧ m.store.currentRev < m.currentRev) :
    m.store.Appends (m.execute env cmd).machine.store (m.appended cmd) := by
  have ha := h.ahead
  have hc := h.counted
  have hnew : cmd.type.writes = true → m.store.currentRev < cmd.revision ∧ cmd.revision ≠ 0 := by
    intro hw
    have := hrev hw
    omega
  cases ht : cmd.type with
  | put =>
    obtain ⟨hlt, hne⟩ := hnew (by rw [ht]; rfl)
    have happly := apply_put_appends m.store ht hlt hne
    simp only [execute, executeDefault, appended, ht]
    split <;> exact happly
  | delete =>
    obtain ⟨hlt, hne⟩ := hnew (by rw [ht]; rfl)
    have happly := apply_delete_appends m.store ht hlt hne
    simp only [execute, executeDefault, appended, ht]
    split <;> exact happly
  | cas =>
    obtain ⟨hlt, hne⟩ := hnew (by rw [ht]; rfl)
    have happly := apply_cas_appends m.store ht hlt hne
    simp only [execute, appended, ht]
    split <;> exact happly
  | leaseAttach =>
    obtain ⟨hlt, hne⟩ := hnew (by rw [ht]; rfl)
    simp only [execute, appended, ht]
    split
    · exact apply_put_appends (m.store.setKeyLease cmd.key cmd.leaseID)
        (show {cmd with type := CommandType.put}.type = .put from rfl) hlt hne
    · exact Appends.refl _
  | leaseRevoke =>
    simp only [execute, appended, ht]
    split
    · exact expireKeys_appends _ {m with leaseMgr := (m.revokedBy cmd).1} (hc.trans ha) ha
    · exact Appends.refl _
  | deletePrefix =>
    have hkeys := deleteKeys_appends (m.store.deletePrefix cmd.keyPrefix).2 m.store
    simp only [execute, appended, ht, catchUp]
    split <;> exact hkeys
  | other n hn =>
    have happly : (m.store.apply cmd).1 = m.store := by simp only [KVStore.apply, ht]
    simp only [execute, executeDefault, appended, ht, happly]
    split <;> exact Appends.refl _
  | _ =>
    simp only [execute, appended, ht]
    exact Appends.refl _

end Machine

/-! ### Whole runs -/

namespace Server
open KVStore

/-- The versions an iteration of the loop appends. -/
def appended (s : Server) (d : Delivery) : List (Bytes × VersionEntry) :=
  if s.persistenceErr = none ∧ d.writeErr = none then
    (s.machine.fill d.env.now d.cmd).1.appended (s.machine.fill d.env.now d.cmd).2
  else []

/-- A command that writes is numbered above everything the store has. -/
theorem fill_above {m : Machine} (h : Consistent m) (now : Nat) {cmd : Command}
    (hw : (m.fill now cmd).2.type.writes = true) :
    (m.fill now cmd).2.revision = (m.fill now cmd).1.currentRev ∧
      (m.fill now cmd).1.store.currentRev < (m.fill now cmd).1.currentRev := by
  have ha := h.ahead
  refine ⟨(Machine.fill_revision h now cmd hw).1, ?_⟩
  rw [Machine.fill_type] at hw
  rw [Machine.fill_store, Machine.fill, Machine.numbered, if_pos hw]
  show m.store.currentRev < m.currentRev + 1
  omega

theorem applyLoop_appends {s : Server} (h : Consistent s.machine) (d : Delivery) :
    s.machine.store.Appends (s.applyLoop d).server.machine.store (s.appended d) := by
  unfold appended
  rcases s.applyLoop_cases d with ⟨hfailed, failure, heq⟩ | ⟨hopen, outcome, rfl, heq⟩
  · rw [heq, if_neg hfailed]
    show s.machine.store.Appends (s.machine.fill d.env.now d.cmd).1.store []
    rw [Machine.fill_store]
    exact Appends.refl _
  · have hexecute := Machine.execute_appends (h.fill d.env.now d.cmd) d.env (fill_above h d.env.now)
    rw [Machine.fill_store] at hexecute
    rw [heq, if_pos hopen]
    exact hexecute

end Server

namespace Node
open KVStore

def store (s : Node) : KVStore := s.server.machine.store

theorem step_appends {action : Action} {s t : Node} (h : Consistent s.server.machine)
    (hs : step action s = some t) : ∃ log, s.store.Appends t.store log := by
  cases action with
  | deliver d =>
    cases hs
    exact ⟨_, Server.applyLoop_appends h d⟩
  | _ =>
    -- the lock manager does not touch the store
    cases hs
    exact ⟨[], Appends.refl _⟩

theorem run_appends {actions : List Action} {s t : Node} (h : Consistent s.server.machine)
    (hs : run step s actions = some t) : ∃ log, s.store.Appends t.store log := by
  have hstep : ∀ action mid next, (Consistent mid.server.machine ∧ ∃ log, s.store.Appends mid.store log) →
      step action mid = some next →
      Consistent next.server.machine ∧ ∃ log, s.store.Appends next.store log := by
    intro action mid next hmid hstep
    obtain ⟨hc, log, hlog⟩ := hmid
    obtain ⟨log', hlog'⟩ := step_appends hc hstep
    exact ⟨step_consistent action mid next hc hstep, _, hlog.trans hlog'⟩
  exact (run_invariant_all hstep actions s t ⟨h, [], Appends.refl _⟩ hs).2

end Node

theorem newKVStore_versions : KVStore.newKVStore.versions = fun _ => [] := by
  funext key
  simp [KVStore.versions, KVStore.newKVStore]

/-- All that is in the store was appended since the start. -/
theorem history {actions : List Node.Action} {s : Node} (hs : run Node.step Node.boot actions = some s) :
    ∃ log, Versions.Extends VersionEntry.revision (fun _ => []) s.store.versions 0 s.store.currentRev log := by
  obtain ⟨log, hlog⟩ := Node.run_appends (s := Node.boot) Consistent.fresh hs
  have hextends : Versions.Extends VersionEntry.revision KVStore.newKVStore.versions s.store.versions 0
      s.store.currentRev log := hlog
  rw [newKVStore_versions] at hextends
  exact ⟨log, hextends⟩

/-! ### Reading the past -/

/-- What a reader is told of a version. -/
def shown : Option VersionEntry → Bytes × Int
  | none => ([], 0)
  | some entry => if entry.tombstone then ([], entry.revision) else (entry.value, entry.revision)

theorem getAtRevision_eq (kv : KVStore) (key : Bytes) (rev : Int) :
    kv.getAtRevision key rev = shown (Versions.asOf VersionEntry.revision (kv.versions key)
      (if rev = 0 then KVStore.maxInt64 else rev)) := by
  unfold KVStore.getAtRevision Versions.asOf shown
  rfl

/-- **Reading at a revision gives the same answer for ever**, and at the revision of
a moment what was there at the moment. No two versions have one revision. -/
theorem time_travel (past future : List Node.Action) (a b : Node)
    (ha : run Node.step Node.boot past = some a) (hb : run Node.step a future = some b) :
    (∀ key r, 1 ≤ r → r ≤ a.store.currentRev → b.store.getAtRevision key r = a.store.getAtRevision key r) ∧
      (1 ≤ a.store.currentRev → a.store.currentRev ≤ KVStore.maxInt64 →
        ∀ key, (b.store.getAtRevision key a.store.currentRev).1 = a.store.get key) ∧
      (∀ key, (b.store.versions key).Pairwise fun v w => v.revision < w.revision) ∧
      ∀ (key key' : Bytes) (i j : Nat) (v w : VersionEntry), (b.store.versions key)[i]? = some v →
        (b.store.versions key')[j]? = some w → v.revision = w.revision → key = key' ∧ i = j := by
  have hc : Consistent a.server.machine := Reachable.consistent ⟨past, a, ha, rfl⟩
  obtain ⟨log, hlog⟩ := Node.run_appends hc hb
  obtain ⟨before, hbefore⟩ := history ha
  have hwhole := hbefore.trans hlog
  have hpast : ∀ key r, 1 ≤ r → r ≤ a.store.currentRev →
      b.store.getAtRevision key r = a.store.getAtRevision key r := by
    intro key r hr hle
    rw [getAtRevision_eq, getAtRevision_eq, if_neg (by omega), hlog.asOf_eq key hle]
  refine ⟨hpast, ?_, hwhole.increasing, fun key key' i j v w => hwhole.distinct⟩
  intro hr hmax key
  have hlast : ∀ r, a.store.currentRev ≤ r → Versions.asOf VersionEntry.revision (a.store.versions key) r =
      (a.store.versions key).getLast? := by
    intro r hle
    exact Versions.asOf_all _ fun v hv => (hbefore.le_hi hv).trans hle
  rw [hpast key _ hr le_rfl, KVStore.get, getAtRevision_eq, getAtRevision_eq, if_neg (by omega),
    if_pos rfl, hlast _ le_rfl, hlast _ hmax]

/-- A put, journaled and executed. -/
def putting (key value : Bytes) : Node.Action :=
  .deliver ⟨Env.at 0, {Command.ofType .put with key := key, value := value}, none⟩

/-- The first value of a key, read after the second was put. -/
theorem time_travel_two :
    ∃ a b : Node, run Node.step Node.boot [putting [97] [1]] = some a ∧
      run Node.step a [putting [97] [2]] = some b ∧ a.store.currentRev = 1 ∧
      b.store.getAtRevision [97] 1 = a.store.getAtRevision [97] 1 := by
  obtain ⟨h, _⟩ := time_travel [putting [97] [1]] [putting [97] [2]] _ _ rfl rfl
  exact ⟨_, _, rfl, rfl, by decide, h [97] 1 (by decide) (by decide)⟩

/-! ### Numbers handed out twice -/

namespace Server
open KVStore

/-- The versions of a key that an iteration adds. -/
def added (s : Server) (d : Delivery) (key : Bytes) : List VersionEntry :=
  ((s.applyLoop d).server.machine.store.versions key).drop (s.machine.store.versions key).length

/-- A prefix delete that finds a key, with the store's counter behind the server's. -/
def Overlaps (s : Server) (d : Delivery) : Prop :=
  s.persistenceErr = none ∧ d.writeErr = none ∧ d.cmd.type = .deletePrefix ∧
    (s.machine.store.deletePrefix d.cmd.keyPrefix).2 ≠ [] ∧
    s.machine.store.currentRev < s.machine.currentRev

theorem mem_added {s : Server} (h : Consistent s.machine) {d : Delivery} {key : Bytes}
    {entry : VersionEntry} : entry ∈ s.added d key ↔ (key, entry) ∈ s.appended d := by
  rw [added, (applyLoop_appends h d).grown, List.drop_left, Versions.mem_ofKey]

theorem tombstones_above (keys : List Bytes) : ∀ rev : Int, ∀ p ∈ tombstones rev keys,
    rev < p.2.revision := by
  induction keys with
  | nil =>
    intro rev p hp
    cases hp
  | cons key rest ih =>
    intro rev p hp
    rcases List.mem_cons.mp hp with rfl | hp
    · show rev < rev + 1
      omega
    · have := ih (rev + 1) p hp
      omega

/-- Tombstones are above a number, if there are any, exactly if it is not above the
number they are counted from. -/
theorem tombstones_above_iff (keys : List Bytes) (rev c : Int) :
    (∀ p ∈ tombstones rev keys, c < p.2.revision) ↔ ¬(keys ≠ [] ∧ rev < c) := by
  cases keys with
  | nil => simp [tombstones]
  | cons key rest =>
    constructor
    · intro h hlt
      have hfirst : c < rev + 1 := h (key, ⟨rev + 1, [], true⟩) List.mem_cons_self
      have := hlt.2
      omega
    · intro h p hp
      have habove := tombstones_above _ rev p hp
      have hle : ¬rev < c := fun hlt => h ⟨by simp, hlt⟩
      omega

/-- Versions of other commands have the command's number, or one counted on from the
server's counter. -/
theorem appended_revision {m : Machine} {cmd : Command} (ht : cmd.type ≠ .deletePrefix)
    {p : Bytes × VersionEntry} (hp : p ∈ m.appended cmd) :
    (cmd.type.writes = true ∧ p.2.revision = cmd.revision) ∨ m.currentRev < p.2.revision := by
  have hone : ∀ value tombstone, cmd.type.writes = true →
      p ∈ [(cmd.key, (⟨cmd.revision, value, tombstone⟩ : VersionEntry))] →
      (cmd.type.writes = true ∧ p.2.revision = cmd.revision) ∨ m.currentRev < p.2.revision := by
    intro value tombstone hw hmem
    rw [List.mem_singleton.mp hmem]
    exact Or.inl ⟨hw, rfl⟩
  rw [Machine.appended] at hp
  cases hcase : cmd.type with
  | deletePrefix => exact absurd hcase ht
  | put =>
    rw [hcase] at hp hone
    exact hone _ _ rfl hp
  | delete =>
    rw [hcase] at hp hone
    exact hone _ _ rfl hp
  | cas =>
    rw [hcase] at hp hone
    dsimp only at hp
    split at hp
    · exact hone _ _ rfl hp
    · cases hp
  | leaseAttach =>
    rw [hcase] at hp hone
    dsimp only at hp
    split at hp
    · exact hone _ _ rfl hp
    · cases hp
  | leaseRevoke =>
    rw [hcase] at hp
    dsimp only at hp
    split at hp
    · exact Or.inr (tombstones_above _ _ p hp)
    · cases hp
  | _ =>
    rw [hcase] at hp
    cases hp

theorem appended_above (s : Server) {d : Delivery} (ht : d.cmd.type ≠ .deletePrefix) :
    ∀ p ∈ s.appended d, s.machine.currentRev < p.2.revision := by
  intro p hp
  have htype := Machine.fill_type s.machine d.env.now d.cmd
  unfold appended at hp
  split at hp
  · rcases appended_revision (by rw [htype]; exact ht) hp with ⟨hw, hrev⟩ | habove
    · rw [htype] at hw
      rw [hrev, Machine.fill, Machine.timed_revision, Machine.numbered, if_pos hw]
      show s.machine.currentRev < s.machine.currentRev + 1
      omega
    · refine lt_of_le_of_lt ?_ habove
      unfold Machine.fill Machine.numbered
      dsimp only
      split
      · show s.machine.currentRev ≤ s.machine.currentRev + 1
        omega
      · exact le_rfl
  · cases hp

/-- **A command's versions are numbered above the server's counter, but for a prefix delete
that finds a key while the store's counter is behind.** The counter always ends up at or above
every number in the store. -/
theorem revisions_above_iff (s : Server) (hs : Reachable s) (d : Delivery) :
    ((∀ key, ∀ entry ∈ s.added d key, s.machine.currentRev < entry.revision) ↔ ¬s.Overlaps d) ∧
      ∀ key, ∀ entry ∈ (s.applyLoop d).server.machine.store.versions key,
        entry.revision ≤ (s.applyLoop d).server.machine.currentRev := by
  have h := hs.consistent
  refine ⟨?_, ?_⟩
  · have hadded : (∀ key, ∀ entry ∈ s.added d key, s.machine.currentRev < entry.revision) ↔
        ∀ p ∈ s.appended d, s.machine.currentRev < p.2.revision := by
      constructor
      · intro hall p hp
        exact hall p.1 p.2 ((mem_added h).mpr hp)
      · intro hall key entry hentry
        exact hall (key, entry) ((mem_added h).mp hentry)
    rw [hadded]
    by_cases ht : d.cmd.type = .deletePrefix
    · unfold appended
      by_cases hopen : s.persistenceErr = none ∧ d.writeErr = none
      · have hfields := Machine.fill_fields s.machine d.env.now d.cmd
        have htype := (Machine.fill_type s.machine d.env.now d.cmd).trans ht
        rw [if_pos hopen]
        simp only [Machine.appended, htype, Machine.fill_store, hfields.2.2.2.2.2]
        rw [tombstones_above_iff]
        simp only [Overlaps, hopen.1, hopen.2, ht, true_and]
      · rw [if_neg hopen]
        simp only [List.not_mem_nil, false_implies, implies_true, true_iff]
        exact fun hover => hopen ⟨hover.1, hover.2.1⟩
    · constructor
      · intro _ hover
        exact ht hover.2.2.1
      · intro _
        exact appended_above s ht
  · intro key entry hentry
    obtain ⟨actions, node, hrun, heq⟩ := hs.applyLoop d
    obtain ⟨log, hlog⟩ := history hrun
    have hahead := (hs.applyLoop d).consistent.ahead
    rw [← heq] at hentry hahead ⊢
    exact (hlog.le_hi hentry).trans hahead

/-- A put in a fresh server gets the first number. -/
theorem revisions_above_first :
    Server.fresh.added ⟨Env.at 0, {Command.ofType .put with key := [97]}, none⟩ [97] = [⟨1, [], false⟩] ∧
      ∀ key, ∀ entry ∈ Server.fresh.added ⟨Env.at 0, {Command.ofType .put with key := [97]}, none⟩ key,
        0 < entry.revision := by
  refine ⟨by decide, (revisions_above_iff Server.fresh Reachable.fresh
    ⟨Env.at 0, {Command.ofType .put with key := [97]}, none⟩).1.mpr ?_⟩
  intro hover
  cases hover.2.2.1

/-- A put, and a compare-and-swap that fails. -/
def failedSwap : Server :=
  ((Server.fresh.applyLoop ⟨Env.at 0, {Command.ofType .put with key := [97]}, none⟩).server.applyLoop
    ⟨Env.at 0, {Command.ofType .cas with key := [97], expectedRev := 5}, none⟩).server

/-- The swap was given number 2, and the tombstone of the prefix delete after it has number 2. -/
theorem revision_reused :
    ¬∀ (s : Server), Reachable s → ∀ (d : Delivery),
      (∀ key, ∀ entry ∈ s.added d key, s.machine.currentRev < entry.revision) ∧
        ∀ key, ∀ entry ∈ (s.applyLoop d).server.machine.store.versions key,
          entry.revision ≤ (s.applyLoop d).server.machine.currentRev := by
  intro h
  have habove := (h failedSwap ((Reachable.fresh.applyLoop _).applyLoop _)
    ⟨Env.at 0, Command.ofType .deletePrefix, none⟩).1 [97] ⟨2, [], true⟩ (by decide)
  exact absurd habove (by decide)

/-! ### Events -/

/-- The event that tells of a version. -/
def eventOf (p : Bytes × VersionEntry) : WatchEvent :=
  ⟨p.1, p.2.value, if p.2.tombstone then .delete else .put, p.2.revision⟩

/-- What an iteration appends to the event log. -/
def events (s : Server) (d : Delivery) : List WatchEvent := (s.applyLoop d).notified.filterMap watchEvent

/-- The events are those of the versions by which the store has grown, in order. -/
def Mirrors (s : Server) (d : Delivery) : Prop :=
  ∃ log, (∀ key, (s.applyLoop d).server.machine.store.versions key =
      s.machine.store.versions key ++ Versions.ofKey log key) ∧
    Versions.Ordered VersionEntry.revision log ∧ s.events d = log.map eventOf

/-- When the events of a command are right: a delete must come without a value, an attach
must have no effect, and a prefix delete must find no key, or one with the
counters together. -/
def Tells (m : Machine) (cmd : Command) : Prop :=
  match cmd.type with
  | .delete => cmd.value = []
  | .leaseAttach => cmd.leaseID ≤ 0
  | .deletePrefix =>
    match (m.store.deletePrefix cmd.keyPrefix).2 with
    | [] => True
    | [_] => m.store.currentRev = m.currentRev
    | _ => False
  | _ => True

theorem mirrors_appended {s : Server} (h : Consistent s.machine) (d : Delivery) :
    s.Mirrors d ↔ s.events d = (s.appended d).map eventOf := by
  have happends := applyLoop_appends h d
  constructor
  · intro hmirrors
    obtain ⟨log, hgrown, hordered, hevents⟩ := hmirrors
    rw [hevents, happends.log_unique hordered hgrown]
  · intro hevents
    exact ⟨_, happends.grown, happends.ordered, hevents⟩

/-- The loop of `LeaseRevoke` tells of each key it deletes. -/
theorem expireKeys_events (keys : List Bytes) : ∀ m : Machine,
    (Machine.expireKeys m keys).2.filterMap watchEvent = (tombstones m.currentRev keys).map eventOf := by
  induction keys with
  | nil =>
    intro m
    rfl
  | cons key rest ih =>
    intro m
    rw [Machine.expireKeys, List.filterMap_cons, ih]
    rfl

/-- `DeletePrefix` tells of each key with the number it ends at. -/
theorem deletePrefix_events (keys : List Bytes) (rev final : Int) :
    (keys.map fun key => Machine.deleteCmd key final).filterMap watchEvent =
        (tombstones rev keys).map eventOf ↔
      match keys with
      | [] => True
      | [_] => final = rev + 1
      | _ => False := by
  match keys with
  | [] => simp [tombstones]
  | [key] => simp [tombstones, watchEvent, Machine.deleteCmd, eventOf, Command.ofType]
  | first :: second :: rest =>
    simp only [List.map_cons, List.filterMap_cons, watchEvent, Machine.deleteCmd, Command.ofType,
      tombstones, eventOf, List.cons.injEq, WatchEvent.mk.injEq, iff_false]
    intro h
    omega

/-- The counter after a prefix delete that found one key. -/
theorem catchUp_one {m : Machine} (h : Consistent m) (now : Nat) {cmd : Command}
    (ht : cmd.type = .deletePrefix) {store : KVStore} {le : LeaseManager}
    (hstore : store.currentRev = m.store.currentRev + 1) :
    (Machine.catchUp {(m.fill now cmd).1 with store := store, leaseMgr := le}).currentRev =
        m.store.currentRev + 1 ↔ m.store.currentRev = m.currentRev := by
  have ha := h.ahead
  have hrev : (m.fill now cmd).1.currentRev = m.currentRev + 1 := by
    simp [Machine.fill, Machine.numbered, ht, CommandType.writes]
  unfold Machine.catchUp
  dsimp only
  rw [hstore, hrev]
  split <;> dsimp only <;> omega

theorem deletePrefix_tells {m : Machine} (h : Consistent m) (env : Env) {cmd : Command}
    (ht : cmd.type = .deletePrefix) :
    ((m.fill env.now cmd).1.execute env (m.fill env.now cmd).2).notified.filterMap watchEvent =
        ((m.fill env.now cmd).1.appended (m.fill env.now cmd).2).map eventOf ↔ Tells m cmd := by
  have htype := (Machine.fill_type m env.now cmd).trans ht
  have hprefix := (Machine.fill_fields m env.now cmd).2.2.2.2.2
  simp only [Machine.execute, Machine.appended, htype, Machine.fill_store, hprefix, Tells, ht]
  rw [deletePrefix_events]
  split
  · exact Iff.rfl
  · rename_i key hkeys
    have hone : (m.store.deletePrefix cmd.keyPrefix).1 = m.store.deleteKey key := by
      show (m.store.deletePrefix cmd.keyPrefix).2.foldl KVStore.deleteKey m.store = _
      rw [hkeys]
      rfl
    rw [hone]
    exact catchUp_one h env.now ht rfl
  · exact Iff.rfl

theorem execute_tells {m : Machine} (h : Consistent m) (env : Env) (cmd : Command) :
    ((m.fill env.now cmd).1.execute env (m.fill env.now cmd).2).notified.filterMap watchEvent =
        ((m.fill env.now cmd).1.appended (m.fill env.now cmd).2).map eventOf ↔ Tells m cmd := by
  have htype := Machine.fill_type m env.now cmd
  obtain ⟨_, hvalue, hlease, _⟩ := Machine.fill_fields m env.now cmd
  cases ht : cmd.type with
  | deletePrefix => exact deletePrefix_tells h env ht
  | put =>
    simp [Machine.execute, Machine.executeDefault, Machine.appended, Tells, ht, watchEvent, eventOf]
  | delete =>
    simp [Machine.execute, Machine.executeDefault, Machine.appended, Tells, ht, watchEvent, eventOf, hvalue]
  | other n hn =>
    simp [Machine.execute, Machine.executeDefault, Machine.appended, Tells, ht, watchEvent]
  | cas =>
    rw [ht] at htype
    have hmatch := Machine.casMatches_iff (m.fill env.now cmd).1 htype
    simp only [Machine.execute, Machine.appended, htype, Tells, ht, iff_true]
    split
    · rename_i hok
      rw [if_pos (hmatch.mp hok)]
      rfl
    · rename_i hfailed
      rw [if_neg fun hm => hfailed (hmatch.mpr hm)]
      rfl
  | leaseAttach =>
    rw [ht] at htype
    simp only [Machine.execute, Machine.appended, htype, Tells, ht, hlease]
    split
    · rename_i hpos
      simp only [List.filterMap_nil, List.map_cons, List.map_nil, List.ne_cons_self, false_iff]
      omega
    · rename_i hnone
      simp only [List.filterMap_nil, List.map_nil, true_iff]
      omega
  | leaseRevoke =>
    rw [ht] at htype
    simp only [Machine.execute, Machine.appended, htype, Tells, ht, iff_true]
    split
    · exact expireKeys_events _ _
    · rfl
  | _ => simp [Machine.execute, Machine.appended, Tells, ht]

/-- **The events of an iteration mirror its versions, exactly if the command is one that
tells, or nothing is executed.** -/
theorem events_mirror_iff (s : Server) (hs : Reachable s) (d : Delivery) :
    s.Mirrors d ↔ (s.persistenceErr = none → d.writeErr = none → Tells s.machine d.cmd) := by
  have h := hs.consistent
  rw [mirrors_appended h]
  unfold events appended
  rcases s.applyLoop_cases d with ⟨hfailed, failure, heq⟩ | ⟨hopen, outcome, rfl, heq⟩
  · have hvacuous : s.persistenceErr = none → d.writeErr = none → Tells s.machine d.cmd :=
      fun hs hd => absurd ⟨hs, hd⟩ hfailed
    rw [heq, if_neg hfailed]
    exact iff_of_true rfl hvacuous
  · rw [heq, if_pos hopen, execute_tells h d.env d.cmd]
    exact ⟨fun htells _ _ => htells, fun htells => htells hopen.1 hopen.2⟩

/-- A put is told of. -/
theorem events_mirror_put :
    Server.fresh.Mirrors ⟨Env.at 0, {Command.ofType .put with key := [97]}, none⟩ :=
  (events_mirror_iff Server.fresh Reachable.fresh _).mpr fun _ _ => trivial

/-- A lease that is attached to a key writes it, and no watcher is told. -/
theorem attach_untold :
    ¬∀ (s : Server), Reachable s → ∀ (d : Delivery), s.Mirrors d := by
  intro h
  have hmirrors := h Server.fresh Reachable.fresh
    ⟨Env.at 0, {Command.ofType .leaseAttach with key := [97], leaseID := 1}, none⟩
  have hevents := (mirrors_appended Consistent.fresh _).mp hmirrors
  exact absurd hevents (by decide)

end Server

end Wjetcd
