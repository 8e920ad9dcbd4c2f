import Wjetcd.Server.Revoked

/-! A machine that goes on where another one stopped.

A process that has been restarted has executed some commands as they came, has replayed
others from the journal, and has the rest from a snapshot. Next to a server that has
executed all of them as they came it has the same store, the same counters and the
same leases, with some expiries rounded to 53 bits (`Resumes`). This is kept by the next
command, by writing a snapshot and reading it back, and by replaying records, if no
revocation is decided by the rounding (`Crisp`). -/
namespace Wjetcd
open Runs Machine

/-! ### Revocations -/

/-- A checked revocation that meets an expiry up to rounding meets it exactly. -/
def Machine.Crisp (m : Machine) (cmd : Command) : Prop :=
  cmd.type = .leaseRevoke → 0 < cmd.expireAt →
    ∀ lease, m.leaseMgr.leases[cmd.leaseID]? = some lease →
      Float64.through lease.expireAt = Float64.through cmd.expireAt →
        lease.expireAt = cmd.expireAt ∧ Float64.Exact cmd.expireAt

/-- So it comes out the same with the rounded expiries, on either side or on both. -/
theorem recalled_crisp {since : List Int} {id e c : Int}
    (h : Float64.through e = Float64.through c → e = c ∧ Float64.Exact c) :
    (e = c ↔ recalled since id e = c) ∧ (e = c ↔ recalled since id e = Float64.through c) := by
  have hexact : e = c → Float64.through c = c := fun heq => (h (by rw [heq])).2
  unfold recalled
  split
  · refine ⟨⟨fun heq => ?_, fun heq => ?_⟩, fun heq => by rw [heq], fun heq => (h heq).1⟩
    · rw [heq]
      exact hexact heq
    · refine (h ?_).1
      rw [← heq, Float64.through_through]
  · refine ⟨Iff.rfl, fun heq => ?_, fun heq => ?_⟩
    · rw [hexact heq]
      exact heq
    · refine (h ?_).1
      rw [heq, Float64.through_through]

theorem Machine.Crisp.settled {m : Machine} {cmd : Command} (h : m.Crisp cmd) (since : List Int) :
    Settled since m cmd :=
  fun ht hpos lease hl => (recalled_crisp (h ht hpos lease hl)).2

/-- Every revocation of a run is crisp. -/
def Server.Crisp (s : Server) : List Delivery → Prop
  | [] => True
  | d :: rest => s.machine.Crisp d.cmd ∧ (s.applyLoop d).server.Crisp rest

namespace Server.Crisp

theorem settled {s : Server} {ds : List Delivery} (h : s.Crisp ds) (since : List Int) :
    s.AllSettled since ds := by
  induction ds generalizing s since with
  | nil => trivial
  | cons d rest ih => exact ⟨h.1.settled since, ih h.2 _⟩

theorem append {s : Server} {ds later : List Delivery} :
    s.Crisp (ds ++ later) ↔ s.Crisp ds ∧ (s.live ds).1.Crisp later := by
  induction ds generalizing s with
  | nil => simp [Server.Crisp, Server.live]
  | cons d rest ih =>
    rw [List.cons_append, Server.Crisp, Server.Crisp, ih, and_assoc]
    rfl

end Server.Crisp

/-! ### The same command on both sides -/

/-- A lease that gets the same expiry on both sides is not rounded any more. -/
theorem recalled_filter {since : List Int} {id i : Int} (h : id ≠ i) (expireAt : Int) :
    recalled (since.filter (· ≠ id)) i expireAt = recalled since i expireAt := by
  simp [recalled, Ne.symm h]

theorem recalled_same (since : List Int) (id expireAt : Int) :
    recalled (since.filter (· ≠ id)) id expireAt = expireAt := by
  simp [recalled]

namespace LeaseManager.Mirrors
variable {since : List Int} {le le' : LeaseManager} (h : Mirrors since le le')
include h

theorem grantUntil_same (ttl expireAt : Int) :
    Mirrors (since.filter (· ≠ le.leaseID + 1)) (le.grantUntil ttl expireAt).1
      (le'.grantUntil ttl expireAt).1 := by
  refine ⟨congrArg (· + 1) h.counter, fun id => ?_⟩
  rw [grantUntil_leases, grantUntil_leases, h.counter, GoMap.get_insert, GoMap.get_insert]
  by_cases hid : le.leaseID + 1 = id
  · subst hid
    rw [if_pos rfl, if_pos rfl, Option.map_some, recalled_same]
  · rw [if_neg hid, if_neg hid, h.leases id]
    simp only [recalled_filter hid]

theorem keepAliveUntil_same (leaseId ttl expireAt : Int) :
    Mirrors (since.filter (· ≠ leaseId)) (le.keepAliveUntil leaseId ttl expireAt).1
      (le'.keepAliveUntil leaseId ttl expireAt).1 := by
  refine ⟨?_, fun id => ?_⟩
  · rw [(le'.fewer_keepAliveUntil _ _ _).counter, (le.fewer_keepAliveUntil _ _ _).counter, h.counter]
  · rw [keepAliveUntil_leases, keepAliveUntil_leases, h.leases id]
    by_cases hid : leaseId = id
    · subst hid
      simp only [if_true, Option.map_map, Function.comp_def, recalled_same]
    · rw [if_neg hid, if_neg hid]
      simp only [recalled_filter hid]

end LeaseManager.Mirrors

namespace Machine.Mirrors
variable {since : List Int} {m m' : Machine} (h : Mirrors since m m')
include h

theorem fill (now : Nat) (cmd : Command) :
    (m.fill now cmd).1.Mirrors since (m'.fill now cmd).1 ∧ (m'.fill now cmd).2 = (m.fill now cmd).2 := by
  unfold Machine.fill numbered
  rw [h.revision]
  split
  · exact ⟨⟨h.store, rfl, h.leaseMgr⟩, rfl⟩
  · exact ⟨h, rfl⟩

theorem revokedBy_same {cmd : Command} (ht : cmd.type = .leaseRevoke) (hcrisp : m.Crisp cmd) :
    (m.revokedBy cmd).1.Mirrors since (m'.revokedBy cmd).1 ∧ (m'.revokedBy cmd).2 = (m.revokedBy cmd).2 := by
  unfold Machine.revokedBy
  split
  · rename_i hpos
    exact h.leaseMgr.revokeLeaseIfMatches fun lease hl => (recalled_crisp (hcrisp ht hpos lease hl)).1
  · exact h.leaseMgr.revokeLeaseLocked cmd.leaseID

/-- What one machine does with a command, the other one does with the same command. -/
theorem execute_same (hc : Consistent m) (env : Env) {cmd : Command} (hcrisp : m.Crisp cmd)
    (hkept : KeepsExpiry cmd) :
    ∃ since', (m.execute env cmd).machine.Mirrors since' (m'.execute env cmd).machine := by
  have hexpiry : (m'.execute env cmd.rounded).machine = (m'.execute env cmd).machine →
      ∃ since', (m.execute env cmd).machine.Mirrors since' (m'.execute env cmd).machine :=
    fun heq => ⟨_, heq ▸ h.execute hc env (hcrisp.settled since) hkept⟩
  have htype : cmd.rounded.type = cmd.type := rfl
  cases ht : cmd.type with
  | leaseGrant =>
    simp only [Machine.execute, ht]
    exact ⟨_, h.store, h.revision, h.leaseMgr.grantUntil_same _ _⟩
  | leaseKeepAlive =>
    simp only [Machine.execute, ht]
    exact ⟨_, h.store, h.revision, h.leaseMgr.keepAliveUntil_same _ _ _⟩
  | leaseRevoke =>
    obtain ⟨hleases, hkeys⟩ := h.revokedBy_same ht hcrisp
    rw [execute_revoke m env ht, execute_revoke m' env ht, hkeys]
    split
    · have hmid : Mirrors since {m with leaseMgr := (m.revokedBy cmd).1}
          {m' with leaseMgr := (m'.revokedBy cmd).1} := ⟨h.store, h.revision, hleases⟩
      exact ⟨since, hmid.expireKeys _⟩
    · exact ⟨since, h⟩
  -- the other types do not look at the expiry
  | cas =>
    have happly : m'.store.apply cmd.rounded = m'.store.apply cmd := rfl
    refine hexpiry ?_
    simp only [Machine.execute, htype, ht, happly]
    split <;> rfl
  | getPrefix | get =>
    refine hexpiry ?_
    simp only [Machine.execute, htype, ht]
  | leaseAttach | deletePrefix | put | delete | other =>
    refine hexpiry ?_
    simp only [Machine.execute, htype, ht]
    rfl

end Machine.Mirrors

/-! ### Strings -/

namespace KVStore

/-- All keys and values of the store are UTF-8. -/
def Worded (kv : KVStore) : Prop :=
  ∀ (key : Bytes) (entries : List VersionEntry), kv.data[key]? = some entries →
    Utf8.valid key = true ∧ ∀ entry ∈ entries, Utf8.valid entry.value = true

namespace Worded
variable {kv : KVStore} (h : kv.Worded)
include h

theorem versions {key : Bytes} {entry : VersionEntry} (hentry : entry ∈ kv.versions key) :
    Utf8.valid key = true ∧ Utf8.valid entry.value = true := by
  unfold KVStore.versions at hentry
  cases hdata : kv.data[key]? with
  | none =>
    rw [hdata] at hentry
    cases hentry
  | some entries =>
    rw [hdata] at hentry
    exact ⟨(h key entries hdata).1, (h key entries hdata).2 entry hentry⟩

theorem current {key value : Bytes} (hcurrent : kv.current key = some value) :
    Utf8.valid key = true ∧ Utf8.valid value = true := by
  obtain ⟨entry, hlast, _, rfl⟩ := current_eq_some.mp hcurrent
  exact h.versions (List.mem_of_getLast? hlast)

theorem record {key : Bytes} (hkey : Utf8.valid key = true) {entry : VersionEntry}
    (hvalue : Utf8.valid entry.value = true) : (kv.record key entry).Worded := by
  intro k entries hentries
  unfold KVStore.record at hentries
  rw [GoMap.get_insert] at hentries
  split at hentries
  · rename_i hk
    cases hentries
    refine ⟨hk ▸ hkey, fun e he => ?_⟩
    rcases List.mem_append.mp he with hold | hnew
    · exact (h.versions hold).2
    · rw [List.mem_singleton.mp hnew]
      exact hvalue
  · exact h k entries hentries

theorem write {key value : Bytes} (hkey : Utf8.valid key = true) (hvalue : Utf8.valid value = true)
    (revision : Int) (tombstone : Bool) : (kv.write key revision value tombstone).Worded := by
  have hstamped : (kv.stamp revision).1.Worded := by
    unfold stamp
    split
    · exact h
    split
    · exact h
    · exact h
  exact hstamped.record hkey hvalue

theorem apply {cmd : Command} (hkey : Utf8.valid cmd.key = true) (hvalue : Utf8.valid cmd.value = true) :
    (kv.apply cmd).1.Worded := by
  unfold KVStore.apply
  split
  · dsimp only
    split
    · exact h.write hkey hvalue _ _
    · exact h.write hkey hvalue _ _
  · exact h
  · exact h.write hkey rfl _ _
  · split
    · exact h.write hkey hvalue _ _
    · exact h
  · split
    · have hbound : (kv.setKeyLease cmd.key cmd.leaseID).Worded := h
      exact hbound.write hkey hvalue _ _
    · exact h
  · exact h

theorem deleteKeys {keys : List Bytes} (hkeys : ∀ key ∈ keys, Utf8.valid key = true) :
    (keys.foldl deleteKey kv).Worded := by
  induction keys generalizing kv with
  | nil => exact h
  | cons key rest ih =>
    refine ih ?_ fun k hk => hkeys k (List.mem_cons_of_mem _ hk)
    have hcounted : Worded {kv with currentRev := kv.currentRev + 1} := h
    exact @record _ hcounted key (hkeys key List.mem_cons_self) ⟨kv.currentRev + 1, [], true⟩ rfl

end Worded
end KVStore

theorem Machine.expireKeys_worded {keys : List Bytes} (hkeys : ∀ key ∈ keys, Utf8.valid key = true)
    {m : Machine} (h : m.store.Worded) : (m.expireKeys keys).1.store.Worded := by
  induction keys generalizing m with
  | nil => exact h
  | cons key rest ih =>
    rw [expireKeys]
    exact ih (fun k hk => hkeys k (List.mem_cons_of_mem _ hk)) (h.apply (hkeys key List.mem_cons_self) rfl)

/-- A command with valid strings writes valid strings. -/
theorem Machine.execute_worded {m : Machine} (h : m.store.Worded) (hb : Bound m) (env : Env)
    {cmd : Command} (hkey : Utf8.valid cmd.key = true) (hvalue : Utf8.valid cmd.value = true) :
    (m.execute env cmd).machine.store.Worded := by
  have hdefault : (m.executeDefault env cmd).machine.store.Worded := by
    unfold executeDefault
    dsimp only
    split
    · have happly := h.apply hkey hvalue
      exact happly
    · exact h.apply hkey hvalue
  cases ht : cmd.type with
  | leaseRevoke =>
    rw [execute_revoke m env ht]
    split
    · refine expireKeys_worded (fun key hmem => ?_) h
      -- a key of the lease has a value in the store
      have hholds : m.leaseMgr.Holds cmd.leaseID key := by
        rcases m.revokedBy_cases cmd with hnone | hgone
        · rw [hnone] at hmem
          cases hmem
        · rw [hgone] at hmem
          exact (LeaseManager.revokeLeaseLocked_keys _ _ _).mp hmem
      obtain ⟨value, hcarries⟩ := LeaseManager.holds_iff.mp hholds
      exact (h.current (hb.carried _ _ _ hcarries)).1
    · exact h
  | leaseAttach =>
    simp only [Machine.execute, ht]
    split
    · have hbound : (m.store.setKeyLease cmd.key cmd.leaseID).Worded := h
      exact @KVStore.Worded.apply _ hbound {cmd with type := .put} hkey hvalue
    · exact h
  | cas =>
    simp only [Machine.execute, ht]
    split
    · exact h.apply hkey hvalue
    · exact h.apply hkey hvalue
  | deletePrefix =>
    simp only [Machine.execute, ht, catchUp_store]
    refine h.deleteKeys fun key hmem => ?_
    obtain ⟨entries, hentries⟩ := (GoMap.mem_keys_iff _ _).mp (List.mem_of_mem_filter hmem)
    exact (h key entries hentries).1
  | leaseGrant | leaseKeepAlive | getPrefix | get =>
    simp only [Machine.execute, ht]
    exact h
  | put | delete | other =>
    simp only [Machine.execute, ht]
    exact hdefault

/-- What the leases note of keys and values is in the store as well. -/
theorem KVStore.Worded.textual {m : Machine} (h : m.store.Worded) (hb : Bound m) : m.Textual where
  data := h
  bound := by
    intro key id hid
    obtain ⟨value, hvalue⟩ := Option.isSome_iff_exists.mp (hb.live key id hid)
    exact (h.current hvalue).1
  leases := fun id lease _ _ hl hv => h.current (hb.carried id _ _ ⟨lease, hl, hv⟩)

/-! ### Expiries -/

/-- Every lease has an expiry, and keeps one when it is rounded. -/
def LeaseManager.Dated (le : LeaseManager) : Prop :=
  ∀ (id : Int) (lease : Lease), le.leases[id]? = some lease →
    0 < lease.expireAt ∧ 0 < Float64.through lease.expireAt

/-- Only a grant and a renewal set an expiry. -/
theorem LeaseManager.closed_dated {cmd : Command}
    (h : ¬(cmd.type = .leaseGrant ∨ cmd.type = .leaseKeepAlive)) : Closed (Op.Served cmd) Dated := by
  intro op le le' hop hdated hs i lease hi
  rcases step_leases hs with ⟨ttl, expireAt, rfl⟩ | ⟨_, hsame | ⟨id, _, hall⟩ | ⟨id, f, hf, hall⟩⟩
  · exact absurd (Or.inl hop.1) h
  · rw [hsame] at hi
    exact hdated i lease hi
  · rw [hall] at hi
    split at hi
    · cases hi
    · exact hdated i lease hi
  · rw [hall] at hi
    split at hi
    · obtain ⟨old, hold, rfl⟩ := Option.map_eq_some_iff.mp hi
      rcases hf with hf | ⟨ttl, expireAt, rfl, _⟩
      · rw [(hf old).2]
        exact hdated i old hold
      · exact absurd (Or.inr hop.1) h
    · exact hdated i lease hi

theorem Machine.execute_dated {m : Machine} (h : m.leaseMgr.Dated) (env : Env) {cmd : Command}
    (htimed : Timed cmd) (hkept : KeepsExpiry cmd) : (m.execute env cmd).machine.leaseMgr.Dated := by
  by_cases ht : cmd.type = .leaseGrant ∨ cmd.type = .leaseKeepAlive
  · have hnew : 0 < cmd.expireAt ∧ 0 < Float64.through cmd.expireAt := ⟨htimed ht, hkept (htimed ht)⟩
    rcases ht with ht | ht
    · simp only [Machine.execute, ht]
      intro id lease hl
      rw [LeaseManager.grantUntil_leases, GoMap.get_insert] at hl
      split at hl
      · cases hl
        exact hnew
      · exact h id lease hl
    · simp only [Machine.execute, ht]
      intro id lease hl
      rw [LeaseManager.keepAliveUntil_leases] at hl
      split at hl
      · obtain ⟨old, _, rfl⟩ := Option.map_eq_some_iff.mp hl
        exact hnew
      · exact h id lease hl
  · exact (LeaseManager.closed_dated ht).execute env h

/-! ### A snapshot in between -/

/-- What `Restore` asks of a machine that has been saved. -/
structure Machine.Savable (m : Machine) : Prop where
  consistent : Consistent m
  textual : m.Textual
  dated : m.leaseMgr.Dated
  lasting : m.leaseMgr.Lasting
  valid : m.store.snapshot.valid = true

/-- The machine `m'` goes on for `m`. -/
structure Machine.Resumes (m m' : Machine) : Prop where
  mirrors : ∃ since, m.Mirrors since m'
  queued : m'.leaseMgr.Queued

namespace Machine.Mirrors
variable {since : List Int} {m m' : Machine} (h : Mirrors since m m')
include h

theorem lease {id : Int} {lease : Lease} (hl : m'.leaseMgr.leases[id]? = some lease) :
    ∃ old, m.leaseMgr.leases[id]? = some old ∧
      lease = {old with expireAt := recalled since id old.expireAt} := by
  rw [h.leaseMgr.leases id] at hl
  obtain ⟨old, hold, heq⟩ := Option.map_eq_some_iff.mp hl
  exact ⟨old, hold, heq.symm⟩

theorem savable (hm : m.Savable) : m'.Savable where
  consistent := h.consistent hm.consistent
  textual := by
    refine ⟨?_, ?_, ?_⟩
    · rw [h.store]
      exact hm.textual.data
    · rw [h.store]
      exact hm.textual.bound
    · intro id lease key value hl hv
      obtain ⟨old, hold, rfl⟩ := h.lease hl
      exact hm.textual.leases id old key value hold hv
  dated := by
    intro id lease hl
    obtain ⟨old, hold, rfl⟩ := h.lease hl
    obtain ⟨hpos, hrounded⟩ := hm.dated id old hold
    show 0 < recalled since id old.expireAt ∧ 0 < Float64.through (recalled since id old.expireAt)
    unfold recalled
    split
    · rw [Float64.through_through]
      exact ⟨hrounded, hrounded⟩
    · exact ⟨hpos, hrounded⟩
  lasting := by
    intro id lease hl
    obtain ⟨old, hold, rfl⟩ := h.lease hl
    exact hm.lasting id old hold
  valid := by
    rw [h.store]
    exact hm.valid

end Machine.Mirrors

/-- What is saved and restored is the machine, with a heap built anew. -/
theorem Machine.Savable.restored {m : Machine} (h : m.Savable) (hqueued : m.leaseMgr.Queued)
    {order : List Int → List Int} (hperm : ∀ ids, (order ids).Perm ids) :
    ∃ le, Machine.restored (m.saved order) = some ⟨m.store, le, m.currentRev⟩ ∧
      le.leases = m.leaseMgr.leases ∧ le.leaseID = m.leaseMgr.leaseID ∧ le.Queued := by
  have hc := h.consistent
  obtain ⟨le, hle, htable, hcounter⟩ := LeaseManager.restore_snapshot hqueued hperm
    (fun id lease hl => ⟨hc.numbered.ids id lease hl, h.lasting id lease hl, (h.dated id lease hl).1⟩)
    hc.numbered.granted
  have hstore : KVStore.restore m.store.snapshot = some m.store := if_pos h.valid
  refine ⟨le, ?_, htable, hcounter, LeaseManager.Queued.restore hle⟩
  unfold Machine.restored Machine.saved
  dsimp only
  rw [StoreSnapshot.decoded_eq h.textual, LeaseManager.snapshot_decoded h.textual, hstore, Option.bind_some,
    hle, Option.map_some, hc.catchUp, Machine.catchUp, if_neg (not_lt.mpr hc.ahead)]

namespace Machine.Resumes

theorem restored {m m' : Machine} (h : m.Resumes m') (hm : m.Savable) {order : List Int → List Int}
    (hperm : ∀ ids, (order ids).Perm ids) :
    ∃ m'', Machine.restored (m'.saved order) = some m'' ∧ m.Resumes m'' := by
  obtain ⟨since, hmirror⟩ := h.mirrors
  obtain ⟨le, hrestored, htable, hcounter, hqueued⟩ := (hmirror.savable hm).restored h.queued hperm
  refine ⟨_, hrestored, ⟨since, hmirror.store, hmirror.revision, ?_, ?_⟩, hqueued⟩
  · exact hcounter.trans hmirror.leaseMgr.counter
  · intro id
    show le.leases[id]? = _
    rw [htable]
    exact hmirror.leaseMgr.leases id

/-- A command that both execute as it comes. -/
theorem deliver {s s' : Server} (h : s.machine.Resumes s'.machine) (hc : Consistent s.machine)
    (hs : s.persistenceErr = none) (hs' : s'.persistenceErr = none) {d : Delivery} (hd : d.writeErr = none)
    (hcrisp : s.machine.Crisp d.cmd) (hkept : KeepsExpiry (s.machine.fill d.env.now d.cmd).2) :
    (s.applyLoop d).server.machine.Resumes (s'.applyLoop d).server.machine := by
  obtain ⟨since, hmirror⟩ := h.mirrors
  obtain ⟨hfilled, hrecord⟩ := hmirror.fill d.env.now d.cmd
  have hcrisp' : (s.machine.fill d.env.now d.cmd).1.Crisp (s.machine.fill d.env.now d.cmd).2 := by
    intro ht hpos
    rw [fill_type] at ht
    rw [s.machine.fill_revoke d.env.now ht] at hpos ⊢
    rw [fill_leaseMgr]
    exact hcrisp ht hpos
  refine ⟨?_, LeaseManager.Closed.applyLoop
    (fun op le le' _ hqueued hop => LeaseManager.Queued.step op le le' hqueued hop) h.queued⟩
  rw [(Server.applyLoop_open hs hd).1, (Server.applyLoop_open hs' hd).1, hrecord]
  exact hfilled.execute_same (hc.fill d.env.now d.cmd) d.env hcrisp' hkept

end Machine.Resumes

/-! ### Replaying records -/

section Keeps
variable {P : LeaseManager → Prop} (hP : ∀ op le le', P le → LeaseManager.step op le = some le' → P le')
include hP

/-- What every call of the lease manager keeps, the recovery switch keeps. -/
theorem Machine.recoverSwitch_keeps {env : Env} {m m' : Machine} {cmd : Command}
    (h : recoverSwitch env m cmd = .ok m') (hm : P m.leaseMgr) : P m'.leaseMgr := by
  have hrevoke : P (m.leaseMgr.revoke (env.order cmd.key) cmd.key).1 := hP (.revoke _ _) _ _ hm rfl
  have hattach : ∀ (le : LeaseManager) id key value, P le → P (le.attach id key value) :=
    fun le id key value hle => hP (.attach id key value) le _ hle rfl
  unfold recoverSwitch at h
  split at h
  · cases h
    exact hP (.grantUntil _ _) _ _ hm rfl
  · dsimp only at h
    rw [recoverKeys_eq] at h
    cases h
    rw [expireKeys_leaseMgr]
    dsimp only
    split
    · exact hP (.revokeLeaseIfMatches _ _) _ _ hm rfl
    · exact hP (.revokeLease _) _ _ hm rfl
  · cases h
    exact hP (.keepAliveUntil _ _ _) _ _ hm rfl
  · split at h
    · dsimp only at h
      split at h
      · cases h
      · cases h
        exact hattach _ _ _ _ hrevoke
    · cases h
      exact hm
  · cases h
    have hclosed : LeaseManager.Closed (LeaseManager.Op.Served cmd) P := fun op le le' _ => hP op le le'
    exact hclosed.revokeAll env _ _ hm
  · cases h
    exact hm
  · dsimp only at h
    split at h
    · cases h
    · split at h
      · cases h
        exact hattach _ _ _ _ hm
      · cases h
        exact hm
  · unfold recoverDefault at h
    have hle : P (if cmd.type = .put ∨ cmd.type = .delete then
        (m.leaseMgr.revoke (env.order cmd.key) cmd.key).1 else m.leaseMgr) := by
      split
      · exact hrevoke
      · exact hm
    dsimp only at h
    split at h
    · cases h
    · split at h
      · cases h
        exact hattach _ _ _ _ hle
      · cases h
        exact hle

theorem Machine.recovered_keeps {env : Env} {m m' : Machine} {cmd : Command}
    (h : applyRecoveredCommand env m cmd = .ok m') (hm : P m.leaseMgr) : P m'.leaseMgr := by
  have hnumbered : P (m.renumbered cmd).1.leaseMgr := by
    unfold renumbered
    split
    · split
      · exact hm
      split <;> exact hm
    · exact hm
  unfold applyRecoveredCommand at h
  dsimp only at h
  cases hrecovered : recoverSwitch env (m.renumbered cmd).1 (m.renumbered cmd).2 with
  | error err =>
    rw [hrecovered] at h
    cases h
  | ok n =>
    rw [hrecovered] at h
    cases h
    rw [catchUp_leaseMgr]
    exact recoverSwitch_keeps hP hrecovered hnumbered

theorem Machine.replay_keeps {records : List Command} {env : Nat → Env} {m m' : Machine}
    (h : m.replay env records = .ok m') (hm : P m.leaseMgr) : P m'.leaseMgr := by
  induction records generalizing m env with
  | nil =>
    cases h
    exact hm
  | cons record rest ih =>
    rw [replay] at h
    cases hone : applyRecoveredCommand (env 0) m record with
    | error err =>
      rw [hone] at h
      cases h
    | ok n =>
      rw [hone] at h
      exact ih h (recovered_keeps hP hone hm)

end Keeps

/-! ### Histories -/

/-- Commands all of which recovery reads back and gets through. -/
structure Recoverable (history : List Delivery) : Prop where
  recorded : ∀ d ∈ history, d.Recorded
  plain : ∀ record ∈ (Server.fresh.live history).2, Plain record
  crisp : Server.fresh.Crisp history

/-- The machine of a server that has executed a history without a stop. -/
def Machine.after (history : List Delivery) : Machine := (Server.fresh.live history).1.machine

/-- What that server has journaled. -/
def recordsOf (history : List Delivery) : List Command := (Server.fresh.live history).2

theorem Server.live_reachable (ds : List Delivery) {s : Server} (h : Reachable s) : Reachable (s.live ds).1 := by
  induction ds generalizing s with
  | nil => exact h
  | cons d rest ih => exact ih (h.applyLoop d)

namespace Recoverable
variable {history later : List Delivery}

theorem front (h : Recoverable (history ++ later)) : Recoverable history where
  recorded := fun d hd => h.recorded d (List.mem_append_left _ hd)
  plain := by
    intro record hrecord
    refine h.plain record ?_
    rw [Server.live_append_journal]
    exact List.mem_append_left _ hrecord
  crisp := (Server.Crisp.append.mp h.crisp).1

theorem running (h : Recoverable history) : (Server.fresh.live history).1.persistenceErr = none :=
  (Server.live_journal history Server.fresh rfl fun d hd => (h.recorded d hd).written).1

/-- The server after one more command. -/
theorem concat {d : Delivery} (h : Recoverable (history ++ [d])) :
    Machine.after (history ++ [d]) =
        (((Machine.after history).fill d.env.now d.cmd).1.execute d.env
          ((Machine.after history).fill d.env.now d.cmd).2).machine ∧
      recordsOf (history ++ [d]) = recordsOf history ++ [((Machine.after history).fill d.env.now d.cmd).2] := by
  have hd : d.Recorded := h.recorded d (by simp)
  obtain ⟨hserver, hjournaled⟩ := Server.applyLoop_open h.front.running hd.written
  constructor
  · unfold Machine.after
    rw [Server.live_append, Server.live, Server.live, hserver]
  · unfold recordsOf Machine.after
    rw [Server.live_append_journal, Server.live, hjournaled]
    rfl

theorem plain_last {d : Delivery} (h : Recoverable (history ++ [d])) :
    Plain ((Machine.after history).fill d.env.now d.cmd).2 := by
  refine h.plain _ ?_
  show _ ∈ recordsOf (history ++ [d])
  rw [h.concat.2]
  exact List.mem_append_right _ List.mem_cons_self

theorem bound : Bound (Machine.after history) := by
  obtain ⟨actions, node, hrun, hserver⟩ := Server.live_reachable history Reachable.fresh
  have hbound := Bound.nodeRun hrun
  rw [hserver] at hbound
  exact hbound

theorem consistent : Consistent (Machine.after history) := Server.live_consistent history Consistent.fresh

theorem worded (h : Recoverable history) : (Machine.after history).store.Worded := by
  induction history using List.reverseRecOn with
  | nil =>
    intro key entries hentries
    simp [Machine.after, Server.live, Server.fresh, Machine.fresh, KVStore.newKVStore] at hentries
  | append_singleton front d ih =>
    have hplain := h.plain_last
    have hbound : Bound ((Machine.after front).fill d.env.now d.cmd).1 := by
      refine ⟨?_, ?_⟩
      · rw [fill_leaseMgr, fill_store]
        exact bound.carried
      · rw [fill_store]
        exact bound.live
    rw [h.concat.1]
    refine execute_worded ?_ hbound d.env hplain.key hplain.value
    rw [fill_store]
    exact ih h.front

theorem dated (h : Recoverable history) : (Machine.after history).leaseMgr.Dated := by
  induction history using List.reverseRecOn with
  | nil =>
    intro id lease hl
    simp [Machine.after, Server.live, Server.fresh, Machine.fresh, LeaseManager.newLeaseManager] at hl
  | append_singleton front d ih =>
    have hd : d.Recorded := h.recorded d (by simp)
    rw [h.concat.1]
    refine execute_dated ?_ d.env (Server.timed_fill _ hd.inTime) h.plain_last.expiry
    rw [fill_leaseMgr]
    exact ih h.front

theorem savable (h : Recoverable history) : (Machine.after history).Savable := by
  obtain ⟨actions, node, hrun, hserver⟩ := Server.live_reachable history Reachable.fresh
  have hlasting : node.server.machine.leaseMgr.Lasting := LeaseManager.Closed.nodeRun LeaseManager.closed_lasting
    (by simp [LeaseManager.Lasting, LeaseManager.newLeaseManager]) hrun
  have hvalid : node.server.machine.store.snapshot.valid = true := KVStore.snapshot_valid hrun
  rw [hserver] at hlasting hvalid
  exact ⟨consistent, h.worded.textual bound, h.dated, hlasting, hvalid⟩

end Recoverable

namespace Machine.Resumes
variable {history later : List Delivery}

theorem fresh : (Machine.after []).Resumes Machine.fresh :=
  ⟨⟨[], rfl, rfl, rfl, fun id => by simp [Machine.after, Server.live, Server.fresh, Machine.fresh,
    LeaseManager.newLeaseManager]⟩, LeaseManager.Queued.newLeaseManager⟩

/-- The process numbers a command as the server without a stop does. -/
theorem record {m m' : Machine} (h : m.Resumes m') (now : Nat) (cmd : Command) :
    (m'.fill now cmd).2 = (m.fill now cmd).2 := by
  obtain ⟨since, hmirror⟩ := h.mirrors
  exact (hmirror.fill now cmd).2

/-- The process executes one more command as it comes. -/
theorem next {d : Delivery} {s : Server} (hh : Recoverable (history ++ [d]))
    (h : (Machine.after history).Resumes s.machine) (hs : s.persistenceErr = none) :
    (Machine.after (history ++ [d])).Resumes (s.applyLoop d).server.machine := by
  have hstep := @deliver (Server.fresh.live history).1 s h Recoverable.consistent hh.front.running hs d
    (hh.recorded d (by simp)).written (Server.Crisp.append.mp hh.crisp).2.1 hh.plain_last.expiry
  have hserver : (Server.fresh.live (history ++ [d])).1 = ((Server.fresh.live history).1.applyLoop d).server :=
    Server.live_append history Server.fresh [d]
  unfold Machine.after
  rw [hserver]
  exact hstep

/-- The process replays the records of more commands. -/
theorem replayed {m' : Machine} (hh : Recoverable (history ++ later)) (h : (Machine.after history).Resumes m')
    (env : Nat → Env) :
    ∃ n', m'.replay env (((Server.fresh.live history).1.live later).2.map Command.wire) = .ok n' ∧
      (Machine.after (history ++ later)).Resumes n' := by
  obtain ⟨since, hmirror⟩ := h.mirrors
  obtain ⟨n', hreplay, hn'⟩ := Server.live_mirrors later env hmirror Recoverable.consistent hh.front.running
    (fun d hd => hh.recorded d (List.mem_append_right _ hd))
    (fun record hrecord => hh.plain record (by
      rw [Server.live_append_journal]
      exact List.mem_append_right _ hrecord))
    ((Server.Crisp.append.mp hh.crisp).2.settled since)
  have hafter : Machine.after (history ++ later) = ((Server.fresh.live history).1.live later).1.machine := by
    unfold Machine.after
    rw [Server.live_append]
  rw [hafter]
  exact ⟨n', hreplay, ⟨_, hn'⟩, replay_keeps (fun op le le' hqueued hop =>
    LeaseManager.Queued.step op le le' hqueued hop) hreplay h.queued⟩

end Machine.Resumes

end Wjetcd
