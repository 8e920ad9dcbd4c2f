import Wjetcd.Server.Binding
import Wjetcd.Server.Persist
import Wjetcd.Server.Process
import Wjetcd.Server.Recovery

/-! A node that restarts and is sent the log again.

A server has two ways to get back what it had: the snapshot and the journal, and the
Raft log. `NewServer` uses the first and then makes a Raft node with an empty
persister, so `LastApplied` starts before index 0 and the leader's log is handed to
the apply loop from its beginning, over a machine that already has those commands.
`exactly_once` says for which commands this does no harm: those that do nothing to a
machine without leases.

A log of one entry is not handed over at all, since the commit index starts at 0 and only
a message that raises it wakes the delivery loop. A command that the apply loop answers
under its own lock stops either node (`Locking`), so such a log has no second pass. -/
namespace Wjetcd

/-! ### One life -/

/-- The leader's whole log, all of it committed. -/
def wholeLog (term leader : Nat) (log : List (Entry Payload)) : RequestAppendEntriesArgs Payload :=
  ⟨term, leader, -1, 0, log, log.length - 1⟩

namespace Process

/-- The apply loop takes one message after the other and can journal each. -/
def hand (p : Process) (env : Nat → Env) : List (ApplyMsg Payload) → Process
  | [] => p
  | msg :: rest => (p.iterate (env 0) none (.raft msg)).hand (fun i => env (i + 1)) rest

/-- A message on which the loop waits for itself. -/
def blocks (msg : ApplyMsg Payload) : Bool :=
  (Message.raft msg).decode.any fun decoded => answersLocked decoded.2.type

/-- The same with the server's lock. -/
def serve (p : Process) (env : Nat → Env) : List (ApplyMsg Payload) → Option Process
  | [] => some p
  | msg :: rest =>
    if blocks msg then none else (p.iterate (env 0) none (.raft msg)).serve (fun i => env (i + 1)) rest

end Process

/-- `rf.applyCond.Broadcast()`, at the end of an accepted message that raises the commit index. -/
def Raft.wakes {C : Type} (rf : Raft C) (args : RequestAppendEntriesArgs C) : Bool :=
  (rf.handleAppendEntriesRPC args).2.any (fun reply => reply.success) && decide (args.leaderCommit > rf.commitIndex)

/-- A node that has been handed nothing takes a message of the leader. If that wakes the
delivery loop, it hands over what has been committed, and the apply loop takes it. -/
def Process.follow (p : Process) (env : Nat → Env) (args : RequestAppendEntriesArgs Payload) : Option Process :=
  let rf := (p.rf.handleAppendEntriesRPC args).1
  if p.rf.wakes args then
    (rf.sendMsgToTester args.entries.length).bind fun rf => {p with rf := rf}.serve env rf.applyHelper.q
  else some {p with rf := rf}

/-! ### The restart -/

/-- How a process ends: by `Shutdown`, which iterates over the leases in some order,
or by a crash. -/
inductive Stop where
  | shutdown (order : List Int → List Int) (perm : ∀ ids, (order ids).Perm ids)
  | crash

/-- `NewServer` after the process has ended. A shutdown has left a snapshot and an
empty journal, a crash the journal, whose records come back from JSON. -/
def Process.restart (p : Process) (stop : Stop) (env : Nat → Env) (peers : List String) (id : Int) :
    Option Process :=
  match stop with
  | .shutdown order _ =>
    (Machine.restored (p.server.machine.saved order)).map fun m =>
      {fresh peers id with server := ⟨m, none⟩}
  | .crash =>
    (Machine.fresh.replayEntries env ((p.journal.map Command.wire).map some)).map fun m =>
      {fresh peers id with server := ⟨m, none⟩, journal := p.journal}

/-- A cluster seen from one of its nodes, and the clocks and map orders of its two
lives and of the recovery between them. -/
structure Setting where
  peers : List String
  id : Int
  term : Nat
  leader : Nat
  first : Nat → Env
  recovery : Nat → Env
  second : Nat → Env

/-- The entries from an index on, as messages. -/
def messages : Nat → List (Entry Payload) → List (ApplyMsg Payload)
  | _, [] => []
  | i, entry :: rest => .command i entry.command :: messages (i + 1) rest

/-- The node applies `head`, stops and restarts, and is sent the whole log. -/
def restarted (w : Setting) (stop : Stop) (head tail : List (Entry Payload)) : Option Process :=
  ((Process.fresh w.peers w.id).serve w.first (messages 0 head)).bind fun p =>
    (p.restart stop w.recovery w.peers w.id).bind fun p =>
      p.follow w.second (wholeLog w.term w.leader (head ++ tail))

/-- The node applies the whole log once. -/
def uninterrupted (w : Setting) (log : List (Entry Payload)) : Option Process :=
  (Process.fresh w.peers w.id).serve w.second (messages 0 log)

/-- The same store and the same leases. -/
def Process.Same (p q : Process) : Prop :=
  p.server.machine.store = q.server.machine.store ∧
    p.server.machine.leaseMgr.leases = q.server.machine.leaseMgr.leases

/-- The node comes up again, and ends as if it had not stopped. -/
def ExactlyOnce (w : Setting) (stop : Stop) (head tail : List (Entry Payload)) : Prop :=
  ∃ p q, restarted w stop head tail = some p ∧ uninterrupted w (head ++ tail) = some q ∧ p.Same q

/-! ### What the Raft node hands over -/

/-- Entries that follow the end of the log are appended. -/
theorem Log.Indexed.overwriteFrom_end {C : Type} (entries : List (Entry C)) :
    ∀ {log : Log C}, log.Indexed →
      ((log.overwriteFrom log.lastLogIndex entries).2 = true ∧
        (log.overwriteFrom log.lastLogIndex entries).1.Indexed ∧
          (log.overwriteFrom log.lastLogIndex entries).1.entries = log.entries ++ entries) := by
  induction entries with
  | nil =>
    intro log h
    exact ⟨rfl, h, (List.append_nil _).symm⟩
  | cons entry rest ih =>
    intro log h
    have happend : log.overwrite (log.lastLogIndex + 1) entry =
        some {log with entries := log.entries ++ [entry], lastLogIndex := log.lastLogIndex + 1} := by
      rw [← h.overwrite_end entry]
      congr 1
      have hlast := h.last
      omega
    have hindexed : Log.Indexed
        {log with entries := log.entries ++ [entry], lastLogIndex := log.lastLogIndex + 1} := by
      refine ⟨h.first, ?_⟩
      have hlast := h.last
      simp only [List.length_append, List.length_singleton]
      omega
    obtain ⟨hdone, hshape, hentries⟩ := ih hindexed
    rw [Log.overwriteFrom, Width.wrap_unbounded, happend]
    refine ⟨hdone, hshape, hentries.trans ?_⟩
    simp

/-- From an index on, everything committed is queued. -/
theorem Raft.sendMsgToTester_messages (rest : List (Entry Payload)) :
    ∀ (rf : Raft Payload) (i : Nat), rf.log.Indexed → rf.log.entries.drop i = rest →
      rf.lastApplied = i - 1 → rf.applyHelper.lastItemIndex = i - 1 →
      (rf.log.entries.length : Int) - 1 ≤ rf.commitIndex →
      ∃ rf', rf.sendMsgToTester rest.length = some rf' ∧
        rf'.applyHelper.q = rf.applyHelper.q ++ messages i rest := by
  induction rest with
  | nil =>
    intro rf i _ _ _ _ _
    exact ⟨rf, rfl, (List.append_nil _).symm⟩
  | cons entry rest ih =>
    intro rf i hlog hdrop happlied hitem hcommit
    have hentry : rf.log.entries[i]? = some entry := by
      rw [← List.head?_drop, hdrop]
      rfl
    have hi : i < rf.log.entries.length := (List.getElem?_eq_some_iff.mp hentry).1
    have hlast := hlog.last
    have hfirst := hlog.first
    have hnext : rf.hasNext = true := by
      unfold Raft.hasNext
      simp only [Width.wrap_unbounded, Bool.and_eq_true, decide_eq_true_eq]
      omega
    have happly : rf.applyNext = some {rf with
        lastApplied := i
        applyHelper := ⟨i, rf.applyHelper.q ++ [.command i entry.command]⟩} := by
      have hindex : rf.lastApplied + 1 = (i : Int) := by omega
      have hitem' : rf.applyHelper.lastItemIndex + 1 = (i : Int) := by omega
      unfold Raft.applyNext
      simp only [Width.wrap_unbounded]
      rw [hindex, if_neg (by omega), hlog.getOneEntry_nat, hentry]
      simp only [ApplyHelper.tryApply, Width.wrap_unbounded]
      rw [if_neg (by omega), if_pos hitem'.symm, hitem']
      rfl
    have htail : rf.log.entries.drop (i + 1) = rest := by
      rw [← List.drop_drop, hdrop]
      rfl
    obtain ⟨rf', hsend, hq⟩ := ih _ (i + 1)
      (show Log.Indexed ({rf with
        lastApplied := (i : Int)
        applyHelper := ⟨i, rf.applyHelper.q ++ [.command i entry.command]⟩} : Raft Payload).log from hlog)
      htail (by push_cast; omega) (by push_cast; omega) hcommit
    refine ⟨rf', ?_, ?_⟩
    · rw [List.length_cons, Raft.sendMsgToTester, if_pos hnext, happly]
      exact hsend
    · rw [hq, List.append_assoc]
      rfl

/-- A message that is accepted: the answer, the new log, and what of it is committed. -/
theorem Raft.handleAppendEntriesRPC_accepted {C : Type} {rf : Raft C}
    {args : RequestAppendEntriesArgs C} {written : Log C} (hdead : rf.dead = false)
    (hterm : ¬args.leaderTerm < rf.currentTerm) (hmatch : rf.matchesPrev args = some true)
    (hloop : rf.log.overwriteFrom args.prevLogIndex args.entries = (written, true)) :
    (rf.handleAppendEntriesRPC args).2.any (fun reply => reply.success) = true ∧
      (rf.handleAppendEntriesRPC args).1.log = written ∧
      (rf.handleAppendEntriesRPC args).1.lastApplied = rf.lastApplied ∧
        (rf.handleAppendEntriesRPC args).1.applyHelper = rf.applyHelper ∧
          min args.leaderCommit written.lastLogIndex ≤ (rf.handleAppendEntriesRPC args).1.commitIndex := by
  obtain ⟨hlog, hcommit, happlied, hhelper⟩ := rf.observeLeader_kept args.leaderTerm
  have hmatch' : (rf.observeLeader args.leaderTerm).matchesPrev args = some true :=
    (rf.matchesPrev_observeLeader args.leaderTerm args).trans hmatch
  have hresult : rf.handleAppendEntriesRPC args =
      (({rf.observeLeader args.leaderTerm with log := written} : Raft C).followCommit args.leaderCommit,
        some ⟨(rf.observeLeader args.leaderTerm).currentTerm, true, 0, 0⟩) := by
    simp only [handleAppendEntriesRPC, hdead, Bool.false_eq_true, if_false, hterm, hmatch', hlog, hloop,
      if_true]
  rw [hresult]
  unfold followCommit
  split
  · exact ⟨rfl, rfl, happlied, hhelper, le_refl _⟩
  · refine ⟨rfl, rfl, happlied, hhelper, ?_⟩
    rename_i hle
    exact (min_le_left _ _).trans (not_lt.mp hle)

/-- A node made on an empty persister accepts the whole log; its delivery loop is woken unless
there is only one entry, and would hand over the log from index 0. -/
theorem Raft.make_sends (peers : List String) (id : Int) (term leader : Nat)
    (log : List (Entry Payload)) :
    (make peers id makePersister).wakes (wholeLog term leader log) = decide (2 ≤ log.length) ∧
    ∃ rf, (((make peers id makePersister).handleAppendEntriesRPC
        (wholeLog term leader log)).1.sendMsgToTester log.length = some rf) ∧
      rf.applyHelper.q = messages 0 log := by
  obtain ⟨hdone, hindexed, hentries⟩ := Log.Indexed.overwriteFrom_end log (@Log.newLog_indexed Payload)
  rcases hloop : (Log.newLog : Log Payload).overwriteFrom (Log.newLog : Log Payload).lastLogIndex log with
    ⟨written, done⟩
  rw [hloop] at hdone hindexed hentries
  have hflag : done = true := hdone
  rw [hflag] at hloop
  have hterm : ¬(wholeLog term leader log).leaderTerm <
      (make peers id (makePersister : Persister Payload)).currentTerm := by
    show ¬(term : Int) < 0
    omega
  obtain ⟨hsuccess, hlog, happlied, hhelper, hcommit⟩ :=
    @handleAppendEntriesRPC_accepted Payload (make peers id makePersister) _ _ rfl hterm rfl hloop
  refine ⟨?_, ?_⟩
  · unfold wakes
    rw [hsuccess, Bool.true_and, decide_eq_decide]
    show (log.length : Int) - 1 > 0 ↔ _
    omega
  generalize ((make peers id makePersister).handleAppendEntriesRPC (wholeLog term leader log)).1 = rf
    at hlog happlied hhelper hcommit
  have hlast : written.lastLogIndex = (written.entries.length : Int) - 1 := hindexed.last
  have hlength : written.entries.length = log.length := congrArg List.length hentries
  obtain ⟨rf', hsend, hq⟩ := sendMsgToTester_messages log rf 0 (by rw [hlog]; exact hindexed)
    (by rw [hlog]; exact hentries) happlied (by rw [hhelper]; rfl) (by
      have hmin : min ((log.length : Int) - 1) written.lastLogIndex ≤ rf.commitIndex := hcommit
      rw [hlog]
      omega)
  refine ⟨rf', hsend, ?_⟩
  rw [hq, hhelper]
  rfl

/-! ### What the loop makes of it -/

/-- The commands that the apply loop finds in the entries. -/
def commands (log : List (Entry Payload)) : List Command := log.filterMap fun entry => entry.command.decode

theorem commands_cons (entry : Entry Payload) (rest : List (Entry Payload)) :
    commands (entry :: rest) = entry.command.decode.toList ++ commands rest := by
  unfold commands
  rw [List.filterMap_cons]
  cases entry.command.decode with
  | none => rfl
  | some cmd => rfl

/-- No command that the loop answers under its own lock. -/
def Unlocked (log : List (Entry Payload)) : Prop :=
  ∀ cmd ∈ commands log, Process.answersLocked cmd.type = false

instance (log : List (Entry Payload)) : Decidable (Unlocked log) :=
  inferInstanceAs (Decidable (∀ cmd ∈ commands log, _))

theorem unlocked_cons {entry : Entry Payload} {rest : List (Entry Payload)} :
    Unlocked (entry :: rest) ↔
      (entry.command.decode.any fun cmd => Process.answersLocked cmd.type) = false ∧ Unlocked rest := by
  unfold Unlocked
  rw [commands_cons, List.forall_mem_append]
  cases entry.command.decode with
  | none => simp
  | some cmd => simp

/-- The commands among the entries, for the apply loop. -/
def deliveries (env : Nat → Env) : List (Entry Payload) → List Delivery
  | [] => []
  | entry :: rest =>
    (entry.command.decode.map fun cmd => ⟨env 0, cmd, none⟩).toList ++ deliveries (fun i => env (i + 1)) rest

namespace Process

theorem notifyReply_kept (p : Process) (index : Int) (reply : Except String Bytes) :
    (p.notifyReply index reply).server = p.server ∧ (p.notifyReply index reply).journal = p.journal := by
  unfold notifyReply
  split <;> exact ⟨rfl, rfl⟩

theorem markApplied_kept (p : Process) (index : Int) :
    (p.markApplied index).server = p.server ∧ (p.markApplied index).journal = p.journal := by
  unfold markApplied
  split <;> exact ⟨rfl, rfl⟩

/-- Answering is not an effect on the server or its journal. -/
theorem conclude_kept (p : Process) (index : Int) (type : CommandType) (iteration : Iteration) :
    (p.conclude index type iteration).server = p.server ∧
      (p.conclude index type iteration).journal = p.journal := by
  unfold conclude
  split
  · unfold answer
    split
    · obtain ⟨hserver, hjournal⟩ := p.notifyReply_kept index iteration.reply
      obtain ⟨hserver', hjournal'⟩ := (p.notifyReply index iteration.reply).markApplied_kept index
      exact ⟨hserver'.trans hserver, hjournal'.trans hjournal⟩
    · exact p.markApplied_kept index
  · exact p.notifyReply_kept index iteration.reply

theorem hand_messages (log : List (Entry Payload)) : ∀ (p : Process) (env : Nat → Env) (i : Nat),
    (p.hand env (messages i log)).server = (p.server.live (deliveries env log)).1 ∧
      (p.hand env (messages i log)).journal = p.journal ++ (p.server.live (deliveries env log)).2 := by
  induction log with
  | nil =>
    intro p env i
    exact ⟨rfl, (List.append_nil _).symm⟩
  | cons entry rest ih =>
    intro p env i
    rw [messages, hand, deliveries]
    obtain ⟨hserver, hjournal⟩ :=
      ih (p.iterate (env 0) none (.raft (.command i entry.command))) (fun i => env (i + 1)) (i + 1)
    rw [hserver, hjournal]
    cases hdecode : entry.command.decode with
    | none =>
      have hskip : p.iterate (env 0) none (.raft (.command i entry.command)) = p := by
        simp [iterate, Message.decode, hdecode]
      rw [hskip]
      exact ⟨rfl, rfl⟩
    | some cmd =>
      have hdeliver : p.iterate (env 0) none (.raft (.command i entry.command)) =
          p.deliver (env 0) none i cmd := by
        simp [iterate, Message.decode, hdecode]
      obtain ⟨hserver', hjournal'⟩ := conclude_kept (p.perform (p.server.applyLoop ⟨env 0, cmd, none⟩)) i
        cmd.type (p.server.applyLoop ⟨env 0, cmd, none⟩)
      rw [hdeliver, deliver, hserver', hjournal']
      refine ⟨rfl, ?_⟩
      show p.journal ++ _ ++ _ = p.journal ++ _
      rw [List.append_assoc]
      rfl

/-- The loop gets to the end exactly if no command holds it up. -/
theorem serve_messages (log : List (Entry Payload)) : ∀ (p : Process) (env : Nat → Env) (i : Nat),
    p.serve env (messages i log) =
      if Unlocked log then some (p.hand env (messages i log)) else none := by
  induction log with
  | nil =>
    intro p env i
    rw [if_pos nofun]
    rfl
  | cons entry rest ih =>
    intro p env i
    have hblocks : blocks (.command i entry.command) =
        entry.command.decode.any fun cmd => answersLocked cmd.type := by
      simp only [blocks, Message.decode]
      cases entry.command.decode with
      | none => rfl
      | some cmd => rfl
    rw [messages, serve, hand, ih, hblocks]
    simp only [unlocked_cons]
    cases (entry.command.decode.any fun cmd => answersLocked cmd.type) with
    | false => simp
    | true => simp

/-- What it leaves at that end. -/
theorem serve_server {p q : Process} {env : Nat → Env} {log : List (Entry Payload)}
    (h : p.serve env (messages 0 log) = some q) :
    q.server = (p.server.live (deliveries env log)).1 ∧
      q.journal = p.journal ++ (p.server.live (deliveries env log)).2 := by
  rw [serve_messages] at h
  split at h
  · cases h
    exact hand_messages log p env 0
  · cases h

/-- A node whose Raft node is new applies the whole log if it has two entries, whatever its
machine has. -/
theorem follow_whole {p : Process} {peers : List String} {id : Int}
    (hrf : p.rf = Raft.make peers id makePersister) (env : Nat → Env) (term leader : Nat)
    {log : List (Entry Payload)} (hlength : 2 ≤ log.length) :
    ∃ rf, p.follow env (wholeLog term leader log) = {p with rf := rf}.serve env (messages 0 log) := by
  obtain ⟨hwakes, rf, hsend, hq⟩ := Raft.make_sends peers id term leader log
  refine ⟨rf, ?_⟩
  unfold follow
  rw [hrf, hwakes, if_pos (by simpa using hlength), show (wholeLog term leader log).entries = log from rfl, hsend, ← hq]
  rfl

/-- One entry is not applied. -/
theorem follow_single {p : Process} {peers : List String} {id : Int}
    (hrf : p.rf = Raft.make peers id makePersister) (env : Nat → Env) (term leader : Nat)
    {log : List (Entry Payload)} (hlength : ¬2 ≤ log.length) :
    ∃ q, p.follow env (wholeLog term leader log) = some q ∧ q.server = p.server := by
  obtain ⟨hwakes, _⟩ := Raft.make_sends peers id term leader log
  unfold follow
  rw [hrf, hwakes, if_neg (by simpa using hlength)]
  exact ⟨_, rfl, rfl⟩

end Process

/-! ### Commands that do nothing at first -/

/-- What needs a lease that exists. -/
def CommandType.harmless : CommandType → Bool
  | .leaseRevoke | .leaseKeepAlive => true
  | _ => false

/-- A run in which every command is journaled. -/
def Journaling (ds : List Delivery) : Prop := ∀ d ∈ ds, d.writeErr = none

theorem deliveries_journaling (log : List (Entry Payload)) :
    ∀ env : Nat → Env, Journaling (deliveries env log) := by
  induction log with
  | nil =>
    intro env d hd
    cases hd
  | cons entry rest ih =>
    intro env d hd
    rcases List.mem_append.mp hd with hd | hd
    · cases hdecode : entry.command.decode with
      | none =>
        rw [hdecode] at hd
        cases hd
      | some cmd =>
        rw [hdecode] at hd
        rw [List.mem_singleton.mp hd]
    · exact ih _ d hd

/-- The commands delivered are those of the entries. -/
theorem deliveries_cmds (log : List (Entry Payload)) : ∀ env : Nat → Env,
    (deliveries env log).map Delivery.cmd = commands log := by
  induction log with
  | nil => exact fun _ => rfl
  | cons entry rest ih =>
    intro env
    rw [deliveries, List.map_append, ih]
    cases hdecode : entry.command.decode with
    | none => simp [commands_cons, hdecode]
    | some cmd => simp [commands_cons, hdecode]

theorem deliveries_append (head : List (Entry Payload)) : ∀ (env : Nat → Env) (tail : List (Entry Payload)),
    deliveries env (head ++ tail) = deliveries env head ++ deliveries (fun i => env (i + head.length)) tail := by
  induction head with
  | nil => exact fun _ _ => rfl
  | cons entry rest ih =>
    intro env tail
    rw [List.cons_append, deliveries, deliveries, ih, List.append_assoc]
    simp only [List.length_cons, Nat.add_assoc]

namespace Machine

theorem fresh_leases (id : Int) : fresh.leaseMgr.leases[id]? = none := by
  simp [fresh, LeaseManager.newLeaseManager]

theorem execute_harmless (env : Env) {cmd : Command} (h : cmd.type.harmless = true) :
    (fresh.execute env cmd).machine = fresh := by
  cases ht : cmd.type with
  | leaseRevoke =>
    simp only [execute, ht, LeaseManager.revokeLeaseIfMatches, LeaseManager.revokeLease,
      LeaseManager.revokeLeaseLocked, fresh_leases, ite_self, expireKeys]
  | leaseKeepAlive => simp only [execute, ht, LeaseManager.keepAliveUntil, fresh_leases]
  | _ =>
    rw [ht] at h
    cases h

theorem not_writes_of_harmless {type : CommandType} (h : type.harmless = true) : type.writes = false := by
  cases type with
  | leaseRevoke | leaseKeepAlive => rfl
  | _ => cases h

theorem fill_harmless {m : Machine} (now : Nat) {cmd : Command} (h : cmd.type.harmless = true) :
    (m.fill now cmd).1 = m := by
  simp [fill, numbered, not_writes_of_harmless h]

theorem recoverSwitch_harmless (env : Env) {cmd : Command} (h : cmd.type.harmless = true) :
    fresh.recoverSwitch env cmd = .ok fresh := by
  cases ht : cmd.type with
  | leaseRevoke =>
    simp only [ht, recoverSwitch, LeaseManager.revokeLeaseIfMatches, LeaseManager.revokeLease,
      LeaseManager.revokeLeaseLocked, fresh_leases, ite_self, recoverKeys]
  | leaseKeepAlive => simp only [ht, recoverSwitch, LeaseManager.keepAliveUntil, fresh_leases]
  | _ =>
    rw [ht] at h
    cases h

theorem applyRecoveredCommand_harmless (env : Env) {cmd : Command} (h : cmd.type.harmless = true) :
    fresh.applyRecoveredCommand env cmd = .ok fresh := by
  have hnumber : fresh.renumbered cmd = (fresh, cmd) := by
    simp [renumbered, not_writes_of_harmless h]
  unfold applyRecoveredCommand
  rw [hnumber]
  dsimp only
  rw [recoverSwitch_harmless env h]
  rfl

theorem replayEntries_harmless (cmds : List Command) : ∀ env : Nat → Env,
    (∀ cmd ∈ cmds, cmd.type.harmless = true) → fresh.replayEntries env (cmds.map some) = some fresh := by
  induction cmds with
  | nil => exact fun _ _ => rfl
  | cons cmd rest ih =>
    intro env h
    have hharmless := h cmd List.mem_cons_self
    have hget : cmd.type ≠ .get := by
      intro ht
      rw [ht] at hharmless
      cases hharmless
    rw [List.map_cons, replayEntries, if_neg hget, applyRecoveredCommand_harmless (env 0) hharmless]
    exact ih _ fun c hc => h c (List.mem_cons_of_mem _ hc)

/-- A record of no known type is an error. -/
theorem applyRecoveredCommand_unknown (env : Env) (m : Machine) {cmd : Command} (h : ¬cmd.type.Known) :
    ∃ err, applyRecoveredCommand env m cmd = .error err := by
  cases ht : cmd.type with
  | other n hn =>
    simp [applyRecoveredCommand, renumbered, ht, CommandType.writes, recoverSwitch, recoverDefault,
      KVStore.apply, Except.map]
  | _ =>
    rw [ht] at h
    exact absurd trivial h

/-- It stops recovery, if nothing has stopped it before. -/
theorem replayEntries_unknown (cmds : List Command) : ∀ (env : Nat → Env) (m : Machine),
    (∃ cmd ∈ cmds, ¬cmd.type.Known) → m.replayEntries env (cmds.map some) = none := by
  induction cmds with
  | nil =>
    rintro env m ⟨cmd, hcmd, _⟩
    cases hcmd
  | cons cmd rest ih =>
    rintro env m ⟨c, hc, hunknown⟩
    rw [List.map_cons, replayEntries]
    split
    · rfl
    · cases hfirst : applyRecoveredCommand (env 0) m cmd with
      | error err => rfl
      | ok m' =>
        refine ih _ m' ⟨c, ?_, hunknown⟩
        rcases List.mem_cons.mp hc with rfl | hrest
        · obtain ⟨err, herr⟩ := applyRecoveredCommand_unknown (env 0) m hunknown
          rw [hfirst] at herr
          cases herr
        · exact hrest

end Machine

namespace Server

/-- A run in which everything is journaled: the server keeps journaling, and the
journal has the commands with their types. -/
theorem live_journal (ds : List Delivery) : ∀ s : Server, s.persistenceErr = none → Journaling ds →
    (s.live ds).1.persistenceErr = none ∧
      (s.live ds).2.map Command.type = ds.map fun d => d.cmd.type := by
  induction ds with
  | nil => exact fun s hs _ => ⟨hs, rfl⟩
  | cons d rest ih =>
    intro s hs h
    obtain ⟨hserver, hjournaled⟩ := Server.applyLoop_open hs (h d List.mem_cons_self)
    obtain ⟨hopen, htypes⟩ := ih (s.applyLoop d).server (by rw [hserver]) fun c hc =>
      h c (List.mem_cons_of_mem _ hc)
    refine ⟨hopen, ?_⟩
    show ((s.applyLoop d).journaled.toList ++ ((s.applyLoop d).server.live rest).2).map Command.type = _
    rw [List.map_append, htypes, hjournaled]
    show (s.machine.fill d.env.now d.cmd).2.type :: _ = d.cmd.type :: _
    rw [Machine.fill_type]
    rfl

theorem live_harmless (ds : List Delivery) (hjournaling : Journaling ds)
    (h : ∀ d ∈ ds, d.cmd.type.harmless = true) : (fresh.live ds).1 = fresh := by
  induction ds with
  | nil => rfl
  | cons d rest ih =>
    have hharmless := h d List.mem_cons_self
    obtain ⟨hserver, _⟩ := Server.applyLoop_open (rfl : fresh.persistenceErr = none)
      (hjournaling d List.mem_cons_self)
    have hfresh : (fresh.applyLoop d).server = fresh := by
      rw [hserver, Machine.fill_harmless _ hharmless]
      rw [show fresh.machine = Machine.fresh from rfl,
        Machine.execute_harmless _ (by rw [Machine.fill_type]; exact hharmless)]
      rfl
    show ((fresh.applyLoop d).server.live rest).1 = fresh
    rw [hfresh]
    exact ih (fun c hc => hjournaling c (List.mem_cons_of_mem _ hc)) fun c hc =>
      h c (List.mem_cons_of_mem _ hc)

end Server

/-! ### Counters that tell two passes from one -/

namespace LeaseManager

/-- No new lease, and the counter as it was. -/
structure Fewer (le le' : LeaseManager) : Prop where
  counter : le'.leaseID = le.leaseID
  absent : ∀ id : Int, le.leases[id]? = none → le'.leases[id]? = none

theorem Fewer.refl (le : LeaseManager) : Fewer le le := ⟨rfl, fun _ h => h⟩

theorem Fewer.trans {a b c : LeaseManager} (h : Fewer a b) (h' : Fewer b c) : Fewer a c :=
  ⟨h'.counter.trans h.counter, fun id hid => h'.absent id (h.absent id hid)⟩

/-- Of the lease manager's operations only a grant makes a lease. -/
theorem fewer_step {op : Op} {le le' : LeaseManager} (hs : step op le = some le')
    (h : ∀ ttl expireAt, op ≠ .grantUntil ttl expireAt) : Fewer le le' := by
  rcases step_leases hs with ⟨ttl, expireAt, rfl⟩ | ⟨hcounter, htable⟩
  · exact absurd rfl (h ttl expireAt)
  · refine ⟨hcounter, fun i hi => ?_⟩
    rcases htable with hsame | ⟨id, _, hall⟩ | ⟨id, f, _, hall⟩
    · rw [hsame]
      exact hi
    · rw [hall, hi, ite_self]
    · rw [hall, hi, Option.map_none, ite_self]

theorem fewer_revoke (le : LeaseManager) (order : List Int → List Int) (key : Bytes) :
    Fewer le (le.revoke order key).1 :=
  fewer_step (show step (.revoke order key) le = some _ from rfl) nofun

theorem fewer_keepAliveUntil (le : LeaseManager) (id ttl expireAt : Int) :
    Fewer le (le.keepAliveUntil id ttl expireAt).1 :=
  fewer_step (show step (.keepAliveUntil id ttl expireAt) le = some _ from rfl) nofun

theorem fewer_revokeLeaseLocked (le : LeaseManager) (id : Int) :
    Fewer le (le.revokeLeaseLocked id).1 :=
  fewer_step (show step (.revokeLease id) le = some _ from rfl) nofun

/-- So a command that is not a grant makes none. -/
theorem closed_fewer {cmd : Command} (h : cmd.type ≠ .leaseGrant) (le : LeaseManager) :
    Closed (Op.Served cmd) (Fewer le) := by
  intro op mid next hop hmid hs
  refine hmid.trans (fewer_step hs ?_)
  rintro ttl expireAt rfl
  exact h hop.1

/-- Ids above the counter are free. -/
def Below (le : LeaseManager) : Prop := ∀ id : Int, le.leaseID < id → le.leases[id]? = none

theorem Below.fewer {le le' : LeaseManager} (h : le.Below) (hfewer : Fewer le le') : le'.Below :=
  fun id hid => hfewer.absent id (h id (hfewer.counter ▸ hid))

theorem Below.grantUntil {le : LeaseManager} (h : le.Below) (ttl expireAt : Int) :
    (le.grantUntil ttl expireAt).1.Below := by
  intro id hid
  have hlarger : le.leaseID + 1 < id := hid
  rw [grantUntil_leases, GoMap.get_insert, if_neg (by omega)]
  exact h id (by omega)

end LeaseManager

namespace Machine

theorem le_expireKeys (keys : List Bytes) : ∀ m : Machine,
    m.currentRev ≤ (m.expireKeys keys).1.currentRev := by
  induction keys with
  | nil => exact fun m => le_refl _
  | cons key rest ih =>
    intro m
    have hrev := ih {m with
      currentRev := m.currentRev + 1
      store := (m.store.apply (deleteCmd key (m.currentRev + 1))).1}
    have hstep : m.currentRev + 1 ≤ (m.expireKeys (key :: rest)).1.currentRev := hrev
    omega

theorem le_execute (m : Machine) (env : Env) (cmd : Command) :
    m.currentRev ≤ (m.execute env cmd).machine.currentRev := by
  cases ht : cmd.type with
  | leaseRevoke =>
    rw [execute_revoke m env ht]
    split
    · exact le_expireKeys _ {m with leaseMgr := (m.revokedBy cmd).1}
    · exact le_refl _
  | deletePrefix =>
    simp only [execute, ht]
    exact le_catchUp _
  | leaseAttach | cas =>
    simp only [execute, ht]
    split <;> exact le_refl _
  | leaseGrant | leaseKeepAlive | getPrefix | get =>
    simp only [execute, ht]
    exact le_refl _
  | put | delete | other =>
    simp only [execute, ht, executeDefault]
    split <;> exact le_refl _

/-- No new lease, and no revision taken back. -/
structure Grows (m m' : Machine) : Prop where
  fewer : m.leaseMgr.Fewer m'.leaseMgr
  revision : m.currentRev ≤ m'.currentRev

theorem execute_grows (m : Machine) (env : Env) {cmd : Command} (h : cmd.type ≠ .leaseGrant) :
    m.Grows (m.execute env cmd).machine :=
  ⟨(LeaseManager.closed_fewer h m.leaseMgr).execute env (LeaseManager.Fewer.refl _), m.le_execute env cmd⟩

theorem fill_currentRev (m : Machine) (now : Nat) (cmd : Command) :
    (m.fill now cmd).1.currentRev = m.currentRev + if cmd.type.writes then 1 else 0 := by
  unfold fill numbered
  cases cmd.type.writes with
  | false => exact (Int.add_zero _).symm
  | true => rfl

end Machine

namespace Server

/-- What one command does to the counters. -/
theorem applyLoop_counters {s : Server} (hs : s.persistenceErr = none) {d : Delivery}
    (hd : d.writeErr = none) :
    (s.machine.leaseMgr.Below → (s.applyLoop d).server.machine.leaseMgr.Below) ∧
      (s.applyLoop d).server.machine.leaseMgr.leaseID =
        s.machine.leaseMgr.leaseID + (if d.cmd.type = .leaseGrant then 1 else 0) ∧
      s.machine.currentRev + (if d.cmd.type.writes then 1 else 0) ≤
        (s.applyLoop d).server.machine.currentRev := by
  obtain ⟨hserver, _⟩ := Server.applyLoop_open hs hd
  rw [hserver, ← s.machine.fill_currentRev d.env.now d.cmd, ← s.machine.fill_leaseMgr d.env.now d.cmd]
  by_cases hgrant : d.cmd.type = .leaseGrant
  · have ht : (s.machine.fill d.env.now d.cmd).2.type = .leaseGrant := by rw [Machine.fill_type, hgrant]
    rw [if_pos hgrant]
    simp only [Machine.execute, ht]
    exact ⟨fun hbelow => hbelow.grantUntil _ _, rfl, le_refl _⟩
  · have ht : (s.machine.fill d.env.now d.cmd).2.type ≠ .leaseGrant := by rw [Machine.fill_type]; exact hgrant
    have hgrows := (s.machine.fill d.env.now d.cmd).1.execute_grows d.env ht
    rw [if_neg hgrant, Int.add_zero]
    exact ⟨fun hbelow => hbelow.fewer hgrows.fewer, hgrows.fewer.counter, hgrows.revision⟩

/-- Over a run the lease counter counts the grants, and the revision counter counts at
least the writes. -/
theorem live_counters (ds : List Delivery) : ∀ s : Server, s.persistenceErr = none → Journaling ds →
    (s.machine.leaseMgr.Below → (s.live ds).1.machine.leaseMgr.Below) ∧
      (s.live ds).1.machine.leaseMgr.leaseID =
        s.machine.leaseMgr.leaseID + ds.countP (fun d => d.cmd.type = .leaseGrant) ∧
      s.machine.currentRev + ds.countP (fun d => d.cmd.type.writes) ≤ (s.live ds).1.machine.currentRev := by
  induction ds with
  | nil => exact fun s _ _ => ⟨fun hbelow => hbelow, (Int.add_zero _).symm, le_of_eq (Int.add_zero _)⟩
  | cons d rest ih =>
    intro s hs h
    have hd := h d List.mem_cons_self
    obtain ⟨hbelow', hid, hrev⟩ := applyLoop_counters hs hd
    obtain ⟨hbelow'', hid', hrev'⟩ := ih (s.applyLoop d).server (by rw [(Server.applyLoop_open hs hd).1])
      (fun c hc => h c (List.mem_cons_of_mem _ hc))
    refine ⟨fun hbelow => hbelow'' (hbelow' hbelow), ?_, ?_⟩
    · show ((s.applyLoop d).server.live rest).1.machine.leaseMgr.leaseID = _
      rw [hid', hid, List.countP_cons]
      simp only [decide_eq_true_eq]
      push_cast
      omega
    · show _ ≤ ((s.applyLoop d).server.live rest).1.machine.currentRev
      rw [List.countP_cons]
      push_cast
      omega

/-- A put gets the next revision. -/
theorem put_latest {s : Server} (hs : s.persistenceErr = none) (hrev : 0 ≤ s.machine.currentRev)
    (env : Env) :
    (((s.applyLoop ⟨env, Command.ofType .put, none⟩).server.machine.store.versions []).getLast?.map
      VersionEntry.revision) = some (s.machine.currentRev + 1) := by
  have hne : s.machine.currentRev + 1 ≠ 0 := by omega
  have hfill : s.machine.fill env.now (Command.ofType .put) =
      ({s.machine with currentRev := s.machine.currentRev + 1},
        {Command.ofType .put with revision := s.machine.currentRev + 1}) := rfl
  rw [(Server.applyLoop_open hs rfl).1]
  show ((KVStore.versions (Machine.execute env (s.machine.fill env.now (Command.ofType .put)).1
    (s.machine.fill env.now (Command.ofType .put)).2).machine.store []).getLast?.map _) = _
  rw [hfill]
  have hdata := s.machine.store.write_data hne [] [] [] false
  rw [if_pos rfl] at hdata
  have hversions : KVStore.versions (Machine.execute env
      {s.machine with currentRev := s.machine.currentRev + 1}
      {Command.ofType .put with revision := s.machine.currentRev + 1}).machine.store [] =
        s.machine.store.versions [] ++ [⟨s.machine.currentRev + 1, [], false⟩] := by
    unfold KVStore.versions at hdata ⊢
    exact congrArg (fun entries => Option.getD entries []) hdata
  rw [hversions, List.getLast?_concat]
  rfl

/-- A grant makes the lease after the last one. -/
theorem grant_latest {s : Server} (hs : s.persistenceErr = none) (env : Env) :
    ((s.applyLoop ⟨env, Command.ofType .leaseGrant, none⟩).server.machine.leaseMgr.leases[
      s.machine.leaseMgr.leaseID + 1]?).isSome = true := by
  rw [(Server.applyLoop_open hs rfl).1]
  show ((s.machine.leaseMgr.grantUntil _ _).1.leases[s.machine.leaseMgr.leaseID + 1]?).isSome = true
  rw [LeaseManager.grantUntil_leases, GoMap.get_insert, if_pos rfl]
  rfl

end Server

/-! ### Two passes -/

/-- The restarted process has a new Raft node, and may journal. -/
theorem Process.restart_up {p again : Process} {stop : Stop} {env : Nat → Env} {peers : List String}
    {id : Int} (h : p.restart stop env peers id = some again) :
    again.rf = Raft.make peers id makePersister ∧ again.server.persistenceErr = none := by
  cases stop with
  | shutdown order perm =>
    obtain ⟨m, _, rfl⟩ := Option.map_eq_some_iff.mp h
    exact ⟨rfl, rfl⟩
  | crash =>
    obtain ⟨m, _, rfl⟩ := Option.map_eq_some_iff.mp h
    exact ⟨rfl, rfl⟩

/-- A restart, taken apart. -/
structure Lives (w : Setting) (stop : Stop) (head tail : List (Entry Payload)) (p first again : Process) :
    Prop where
  applied : first.server = (Server.fresh.live (deliveries w.first head)).1
  journaled : first.journal = (Server.fresh.live (deliveries w.first head)).2
  restart : first.restart stop w.recovery w.peers w.id = some again
  running : again.server.persistenceErr = none
  second : 2 ≤ (head ++ tail).length → p.server = (again.server.live (deliveries w.second (head ++ tail))).1

theorem restarted_lives {w : Setting} {stop : Stop} {head tail : List (Entry Payload)} {p : Process}
    (h : restarted w stop head tail = some p) : ∃ first again, Lives w stop head tail p first again := by
  obtain ⟨first, hfirst, hrest⟩ := Option.bind_eq_some_iff.mp h
  obtain ⟨again, hagain, hsecond⟩ := Option.bind_eq_some_iff.mp hrest
  obtain ⟨hrf, hrunning⟩ := Process.restart_up hagain
  obtain ⟨happlied, hjournaled⟩ := Process.serve_server hfirst
  refine ⟨first, again, happlied, hjournaled, hagain, hrunning, fun hlength => ?_⟩
  obtain ⟨rf, hfollow⟩ := Process.follow_whole hrf w.second w.term w.leader hlength
  rw [hfollow] at hsecond
  exact (Process.serve_server hsecond).1

/-- Both lives and the recovery run at one moment. -/
def quiet : Setting :=
  ⟨["a", "b", "c"], 1, 1, 2, fun _ => Env.at 0, fun _ => Env.at 0, fun _ => Env.at 0⟩

def plainShutdown : Stop := .shutdown (fun ids => ids) fun ids => List.Perm.refl ids

/-- After a shutdown the counters are at least where they were, and the log then
moves them once more. -/
theorem second_counters {head tail : List (Entry Payload)} {p first again : Process}
    (h : Lives quiet plainShutdown head tail p first again) :
    let once := (Server.fresh.live (deliveries quiet.second head)).1.machine
    let twice := (again.server.live (deliveries quiet.second head)).1.machine
    twice.leaseMgr.leaseID = once.leaseMgr.leaseID +
        (deliveries quiet.second head).countP (fun d => d.cmd.type = .leaseGrant) ∧
      once.currentRev + (deliveries quiet.second head).countP (fun d => d.cmd.type.writes) ≤
        twice.currentRev := by
  obtain ⟨m, hrestored, hm⟩ := Option.map_eq_some_iff.mp h.restart
  obtain ⟨hid, hrev⟩ := Machine.restored_counters hrestored
  obtain ⟨_, hid', hrev'⟩ := Server.live_counters (deliveries quiet.second head) again.server h.running
    (deliveries_journaling head _)
  have hmachine : again.server.machine = m := by rw [← hm]
  rw [hmachine] at hid' hrev'
  rw [h.applied] at hid hrev
  refine ⟨hid'.trans ?_, le_trans ?_ hrev'⟩
  · rw [hid]
    rfl
  · have hsame : (Server.fresh.live (deliveries quiet.second head)).1.machine.currentRev ≤ m.currentRev := hrev
    omega

theorem countP_deliveries_pos {head : List (Entry Payload)} {env : Nat → Env} {P : CommandType → Bool}
    (h : ∃ cmd ∈ commands head, P cmd.type = true) :
    0 < (deliveries env head).countP fun d => P d.cmd.type := by
  obtain ⟨cmd, hcmd, hP⟩ := h
  rw [← deliveries_cmds head env] at hcmd
  obtain ⟨d, hd, rfl⟩ := List.mem_map.mp hcmd
  exact List.countP_pos_iff.mpr ⟨d, hd, hP⟩

/-- The entry for a command. -/
def entryOf (cmd : Command) : Entry Payload := ⟨1, .typed cmd⟩

/-- After the head, one more command. -/
theorem live_probe (s : Server) (env : Nat → Env) (head : List (Entry Payload)) (cmd : Command) :
    (s.live (deliveries env (head ++ [entryOf cmd]))).1 =
      ((s.live (deliveries env head)).1.applyLoop ⟨env (0 + head.length), cmd, none⟩).server := by
  rw [deliveries_append, Server.live_append]
  rfl

theorem two_le_probe {head : List (Entry Payload)} {P : Command → Prop} {entry : Entry Payload}
    (h : ∃ cmd ∈ commands head, P cmd) : 2 ≤ (head ++ [entry]).length := by
  obtain ⟨cmd, hcmd, _⟩ := h
  cases head with
  | nil => cases hcmd
  | cons first rest => simp

/-- A write in the head moves the revision of the next put. -/
theorem writes_twice {head : List (Entry Payload)}
    (h : ∃ cmd ∈ commands head, cmd.type.writes = true) :
    ¬ExactlyOnce quiet plainShutdown head [entryOf (Command.ofType .put)] := by
  rintro ⟨p, q, hp, hq, hstore, _⟩
  obtain ⟨first, again, hlives⟩ := restarted_lives hp
  obtain ⟨_, hrev⟩ := second_counters hlives
  have hcount := @countP_deliveries_pos head quiet.second CommandType.writes h
  obtain ⟨hopen, _⟩ := Server.live_journal _ again.server hlives.running
    (deliveries_journaling head quiet.second)
  obtain ⟨hopen', _⟩ := Server.live_journal _ Server.fresh rfl (deliveries_journaling head quiet.second)
  obtain ⟨_, _, hcounted⟩ := Server.live_counters _ Server.fresh rfl
    (deliveries_journaling head quiet.second)
  have hstart : Server.fresh.machine.currentRev = 0 := rfl
  have htwice := Server.put_latest hopen (by omega) (quiet.second (0 + head.length))
  have honce := Server.put_latest hopen' (by omega) (quiet.second (0 + head.length))
  rw [← live_probe, ← hlives.second (two_le_probe h), hstore, (Process.serve_server hq).1] at htwice
  rw [show (Process.fresh quiet.peers quiet.id).server = Server.fresh from rfl, live_probe, honce] at htwice
  have hsame := Option.some.inj htwice
  omega

/-- A grant in the head moves the id of the next lease. -/
theorem grants_twice {head : List (Entry Payload)}
    (h : ∃ cmd ∈ commands head, cmd.type = .leaseGrant) :
    ¬ExactlyOnce quiet plainShutdown head [entryOf (Command.ofType .leaseGrant)] := by
  rintro ⟨p, q, hp, hq, _, hleases⟩
  obtain ⟨first, again, hlives⟩ := restarted_lives hp
  obtain ⟨hid, _⟩ := second_counters hlives
  have hcount := @countP_deliveries_pos head quiet.second (fun type => decide (type = .leaseGrant))
    (by simpa using h)
  obtain ⟨hopen, _⟩ := Server.live_journal _ again.server hlives.running
    (deliveries_journaling head quiet.second)
  obtain ⟨hopen', _⟩ := Server.live_journal _ Server.fresh rfl (deliveries_journaling head quiet.second)
  obtain ⟨hbelow, _, _⟩ := Server.live_counters _ Server.fresh rfl
    (deliveries_journaling head quiet.second)
  -- the lease of the second pass is one that a single pass does not have
  have htwice := Server.grant_latest hopen (quiet.second (0 + head.length))
  obtain ⟨hbelow', hid', _⟩ := @Server.applyLoop_counters _ hopen'
    ⟨quiet.second (0 + head.length), Command.ofType .leaseGrant, none⟩ rfl
  have hgrant : (Delivery.mk (quiet.second (0 + head.length)) (Command.ofType .leaseGrant) none).cmd.type =
      .leaseGrant := rfl
  rw [if_pos hgrant] at hid'
  have hfresh : Machine.fresh.leaseMgr.Below := fun id _ => Machine.fresh_leases id
  have hnone := hbelow' (hbelow hfresh)
    ((again.server.live (deliveries quiet.second head)).1.machine.leaseMgr.leaseID + 1) (by omega)
  rw [← live_probe, ← hlives.second (two_le_probe h), hleases, (Process.serve_server hq).1] at htwice
  rw [show (Process.fresh quiet.peers quiet.id).server = Server.fresh from rfl, live_probe, hnone] at htwice
  cases htwice

/-- After a crash, a record of no known type keeps the server from starting. -/
theorem unknown_stops {head : List (Entry Payload)}
    (h : ∃ cmd ∈ commands head, ¬cmd.type.Known) :
    ¬ExactlyOnce quiet .crash head [] := by
  rintro ⟨p, _, hp, _⟩
  obtain ⟨first, again, hlives⟩ := restarted_lives hp
  obtain ⟨cmd, hcmd, hunknown⟩ := h
  obtain ⟨_, htypes⟩ := Server.live_journal _ Server.fresh rfl (deliveries_journaling head quiet.first)
  have hmem : cmd.type ∈ first.journal.map Command.type := by
    rw [hlives.journaled, htypes]
    rw [← deliveries_cmds head quiet.first] at hcmd
    obtain ⟨d, hd, rfl⟩ := List.mem_map.mp hcmd
    exact List.mem_map.mpr ⟨d, hd, rfl⟩
  obtain ⟨record, hrecord, htype⟩ := List.mem_map.mp hmem
  have hwire : ¬record.wire.type.Known := by
    rcases record.wire_type with heq | ⟨_, hwire⟩
    · rw [heq, htype]
      exact hunknown
    · exact hwire
  have hstopped := Machine.replayEntries_unknown (first.journal.map Command.wire) quiet.recovery Machine.fresh
    ⟨record.wire, List.mem_map_of_mem hrecord, hwire⟩
  have hrestart := hlives.restart
  simp only [Process.restart, hstopped] at hrestart
  cases hrestart

/-- A command that the loop answers under its lock keeps the node from getting past the head. -/
theorem locked_stops {head : List (Entry Payload)}
    (h : ∃ cmd ∈ commands head, Process.answersLocked cmd.type = true) :
    ¬ExactlyOnce quiet plainShutdown head [] := by
  rintro ⟨p, _, hp, _⟩
  obtain ⟨cmd, hcmd, hlocked⟩ := h
  obtain ⟨first, hfirst, _⟩ := Option.bind_eq_some_iff.mp hp
  rw [Process.serve_messages, if_neg] at hfirst
  · cases hfirst
  · intro hunlocked
    rw [hunlocked cmd hcmd] at hlocked
    cases hlocked

theorem CommandType.harmless_unlocked {type : CommandType} (h : type.harmless = true) :
    Process.answersLocked type = false := by
  cases type with
  | leaseRevoke | leaseKeepAlive => rfl
  | _ => cases h

/-- A process that has applied a harmless head comes up as a new one. -/
theorem Process.restart_harmless {head : List (Entry Payload)}
    (h : ∀ cmd ∈ commands head, cmd.type.harmless = true) {env : Nat → Env} {first : Process}
    (hserver : first.server = (Server.fresh.live (deliveries env head)).1)
    (hjournal : first.journal = (Server.fresh.live (deliveries env head)).2)
    (stop : Stop) (recovery : Nat → Env) (peers : List String) (id : Int) :
    ∃ again, first.restart stop recovery peers id = some again ∧
      again.server = Server.fresh ∧ again.rf = Raft.make peers id makePersister := by
  have hharmless : ∀ d ∈ deliveries env head, d.cmd.type.harmless = true := fun d hd =>
    h d.cmd (by rw [← deliveries_cmds head env]; exact List.mem_map_of_mem hd)
  cases stop with
  | shutdown order perm =>
    have hfresh : first.server = Server.fresh := by
      rw [hserver]
      exact Server.live_harmless _ (deliveries_journaling head _) hharmless
    refine ⟨{Process.fresh peers id with server := ⟨Machine.fresh, none⟩}, ?_, rfl, rfl⟩
    simp only [restart, hfresh]
    rw [show Server.fresh.machine = Machine.fresh from rfl, Machine.restored_fresh]
    rfl
  | crash =>
    have hrecords : ∀ cmd ∈ first.journal.map Command.wire, cmd.type.harmless = true := by
      intro cmd hcmd
      obtain ⟨record, hrecord, rfl⟩ := List.mem_map.mp hcmd
      obtain ⟨_, htypes⟩ := Server.live_journal _ Server.fresh rfl (deliveries_journaling head env)
      have hmem : record.type ∈ (deliveries env head).map fun d => d.cmd.type := by
        rw [← htypes]
        rw [hjournal] at hrecord
        exact List.mem_map_of_mem hrecord
      obtain ⟨d, hd, htype⟩ := List.mem_map.mp hmem
      have hrecordHarmless : record.type.harmless = true := by
        rw [← htype]
        exact hharmless d hd
      have hknown : record.type.Known := by
        cases ht : record.type with
        | other n hn =>
          rw [ht] at hrecordHarmless
          cases hrecordHarmless
        | _ => trivial
      rw [Command.wire_known hknown]
      exact hrecordHarmless
    refine ⟨{Process.fresh peers id with
      server := ⟨Machine.fresh, none⟩, journal := first.journal}, ?_, rfl, rfl⟩
    simp only [restart, Machine.replayEntries_harmless _ recovery hrecords]
    rfl

/-- A head that does nothing at first does nothing the second time either. -/
theorem harmless_once {first : Entry Payload} {rest : List (Entry Payload)}
    (h : ∀ cmd ∈ commands (first :: rest), cmd.type.harmless = true)
    (w : Setting) (stop : Stop) {tail : List (Entry Payload)} (htail : Unlocked tail) :
    ExactlyOnce w stop (first :: rest) tail := by
  have hhead : Unlocked (first :: rest) := fun cmd hcmd => CommandType.harmless_unlocked (h cmd hcmd)
  have hlog : Unlocked (first :: rest ++ tail) := by
    unfold Unlocked commands
    rw [List.filterMap_append]
    exact List.forall_mem_append.mpr ⟨hhead, htail⟩
  have hfirst := Process.serve_messages (first :: rest) (Process.fresh w.peers w.id) w.first 0
  rw [if_pos hhead] at hfirst
  obtain ⟨happlied, hjournal⟩ := Process.serve_server hfirst
  obtain ⟨again, hagain, hup, hrf⟩ :=
    Process.restart_harmless h happlied hjournal stop w.recovery w.peers w.id
  have hq := Process.serve_messages (first :: rest ++ tail) (Process.fresh w.peers w.id) w.second 0
  rw [if_pos hlog] at hq
  have honce := (Process.serve_server hq).1
  have hp : ∃ p, again.follow w.second (wholeLog w.term w.leader (first :: rest ++ tail)) = some p ∧
      p.server = (Server.fresh.live (deliveries w.second (first :: rest ++ tail))).1 := by
    by_cases hlength : 2 ≤ (first :: rest ++ tail).length
    · obtain ⟨rf, hfollow⟩ := Process.follow_whole hrf w.second w.term w.leader hlength
      have hserve := Process.serve_messages (first :: rest ++ tail) {again with rf := rf} w.second 0
      rw [if_pos hlog] at hserve
      exact ⟨_, hfollow.trans hserve, by rw [(Process.serve_server hserve).1, ← hup]⟩
    · -- the log is the one entry of the head, and that has no effect on the single pass either
      obtain ⟨p, hfollow, hserver⟩ := Process.follow_single hrf w.second w.term w.leader hlength
      have hnil : rest = [] ∧ tail = [] := by
        simp only [List.cons_append, List.length_cons, List.length_append, not_le] at hlength
        exact ⟨List.eq_nil_of_length_eq_zero (by omega), List.eq_nil_of_length_eq_zero (by omega)⟩
      obtain ⟨rfl, rfl⟩ := hnil
      refine ⟨p, hfollow, ?_⟩
      rw [hserver, hup, List.append_nil, Server.live_harmless _ (deliveries_journaling _ _) fun d hd =>
        h d.cmd (by rw [← deliveries_cmds _ w.second]; exact List.mem_map_of_mem hd)]
  obtain ⟨p, hfollow, hserver⟩ := hp
  refine ⟨p, _, ?_, hq, ?_⟩
  · unfold restarted
    rw [hfirst, Option.bind_some, hagain, Option.bind_some]
    exact hfollow
  · have hsame := hserver.trans honce.symm
    exact ⟨by rw [hsame], by rw [hsame]⟩

-- The log can hide it: here a compare-and-swap adds the second version in one case, the
-- repeated put in the other. So the condition is one on the head, for every log.
example :
    (restarted quiet plainShutdown [entryOf (Command.ofType .put)]
        [entryOf {Command.ofType .cas with expectedRev := 1}]).map
          (fun p => (p.server.machine.store, p.server.machine.leaseMgr.leases)) =
      (uninterrupted quiet [entryOf (Command.ofType .put),
        entryOf {Command.ofType .cas with expectedRev := 1}]).map
          (fun p => (p.server.machine.store, p.server.machine.leaseMgr.leases)) := by
  decide +kernel

/-- A put of a value under a key. -/
def putEntry (key value : String) : Entry Payload :=
  entryOf {Command.ofType .put with key := ascii key, value := ascii value}

end Wjetcd
