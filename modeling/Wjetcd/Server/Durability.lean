import Wjetcd.Server.Resumed
import Wjetcd.Storage.Checkpoint
import Wjetcd.Storage.Records

/-! A server that is stopped and started again loses nothing.

`Checkpoint` has the two files, with every call that may fail or be the last, and lists of
records for what the process and the snapshot reflect. Here the process has its machine,
the snapshot file has what `Snapshot` made of a machine, and startup reads the machine back:
it restores the snapshot and replays the records behind it. `history` has the commands whose
records have reached the journal.

In every run of starts, committed commands, saves and crashes the machine goes on where a
server that was never stopped would be after the same commands (`durable`). What the live
loop has executed is in the history, and startup fails only if a call into the system does. -/
namespace Wjetcd
open Runs Crash Checkpoint Machine

/-- A process on a machine with a disk. -/
structure Host where
  system : System (Option Command)
  /-- The data in the snapshot file. -/
  data : Option ServerSnapshot
  server : Option Server
  history : List Delivery

namespace Host

def blank : Host := ⟨System.blank, none, none, []⟩

/-- What can happen. A command comes with the text of the error that writing it may give,
and a save with the order in which the map of leases is iterated and with whether the rename
of the snapshot file is reached. -/
inductive Event where
  | start (newId : FileId) (fates : List (Fate Error)) (env : Nat → Env)
  | deliver (env : Env) (cmd : Command) (cause : String) (fates : List (Fate Error))
  | save (newId : FileId) (fates : List (Fate Error)) (order : List Int → List Int)
      (perm : ∀ ids, (order ids).Perm ids) (renamed : Bool)
  | crash

/-- `commandFromValue` fails on what is not an object. -/
def replayErr (entry : Option Command) : Option Error := if entry.isNone then some .unreadable else none

/-- `restorePersistentState` on what it has read. -/
def restorePersistentState (env : Nat → Env) (data : Option ServerSnapshot)
    (entries : List (Option Command)) : Option Machine :=
  match data with
  | none => replayEntries env Machine.fresh entries
  | some snapshot => (Machine.restored snapshot).bind fun m => replayEntries env m entries

/-- How many records the snapshot reflects. -/
def reflected (h : Host) : Nat := (h.system.disk.snapshot.map fun s => s.reflected.length).getD 0

def started (h : Host) (env : Nat → Env) (system : System (Option Command)) : Host :=
  match system.memory.bind fun memory =>
      restorePersistentState env h.data (memory.executed.drop h.reflected) with
  | none => {h with system := {system with memory := none}, server := none}
  | some m => {h with system := system, server := some ⟨m, none⟩}

def delivered (h : Host) (server : Server) (env : Env) (cmd : Command) (cause : String)
    (system : System (Option Command)) : Host :=
  let failed := system.memory.any fun memory => memory.persistenceErr.isSome
  { h with
    system := system
    server := system.memory.map fun _ =>
      (server.applyLoop ⟨env, cmd, if failed then some cause else none⟩).server
    history :=
      if h.system.disk.appended.length < system.disk.appended.length then h.history ++ [⟨env, cmd, none⟩]
      else h.history }

/-- Nothing is saved after a failure. The file that is there has to agree with whether it
has been replaced. -/
def saved (h : Host) (server : Server) (memory : Memory (Option Command)) (order : List Int → List Int)
    (renamed : Bool) (system : System (Option Command)) : Option Host :=
  let next := {h with system := system, server := system.memory.map fun _ => server}
  if renamed then
    if memory.persistenceErr = none ∧
        system.disk.snapshot.map (fun s => s.reflected) = some memory.executed then
      some {next with data := some (server.machine.saved order)}
    else none
  else if system.disk.snapshot = h.system.disk.snapshot then some next
  else none

def step (vol : Volume) (event : Event) (h : Host) : Option Host :=
  match event with
  | .start newId fates env =>
    (Checkpoint.step Command.ofRecord replayErr vol (.start newId fates) h.system).map (h.started env)
  | .deliver env cmd cause fates =>
    h.server.bind fun server =>
      (Checkpoint.step Command.ofRecord replayErr vol
        (.journal (server.machine.fill env.now cmd).2 fates) h.system).map
          (h.delivered server env cmd cause)
  | .save newId fates order _ renamed =>
    h.server.bind fun server => h.system.memory.bind fun memory =>
      (Checkpoint.step Command.ofRecord replayErr vol (.save newId fates) h.system).bind
        (h.saved server memory order renamed)
  | .crash => some {h with system := {h.system with memory := none}, server := none}

/-- The file that replaces the journal is not the journal. -/
def Fresh : Event → Host → Prop
  | .save newId _ _ _ _, h => h.system.disk.wal.map File.id ≠ some newId
  | _, _ => True

instance : (event : Event) → (h : Host) → Decidable (Fresh event h)
  | .save newId _ _ _ _, h => inferInstanceAs (Decidable (h.system.disk.wal.map File.id ≠ some newId))
  | .start _ _ _, _ => .isTrue trivial
  | .deliver _ _ _ _, _ => .isTrue trivial
  | .crash, _ => .isTrue trivial

/-! ### What each step does to the files -/

section Files
variable {n : Checkpoint.Node (Option Command)} {vol : Volume}

/-- A failed write may have reached the journal. -/
theorem ends_writeEntry (cmd : Command) :
    Ends (writeEntry vol cmd) n
      (fun _ t => t.disk.snapshot = n.disk.snapshot ∧ t.memory = n.memory ∧
        t.disk.appended = n.disk.appended ++ [cmd])
      (fun t => t.disk.snapshot = n.disk.snapshot ∧ t.memory = n.memory ∧
        (t.disk.appended = n.disk.appended ∨ t.disk.appended = n.disk.appended ++ [cmd]))
      (fun t => t.disk.snapshot = n.disk.snapshot ∧
        (t.disk.appended = n.disk.appended ∨ t.disk.appended = n.disk.appended ++ [cmd])) := by
  refine ends_bind (ends_onWal ⟨rfl, Or.inl rfl⟩ ⟨rfl, rfl, Or.inl rfl⟩ ?_)
  intro file _ _ t hwrite
  split at hwrite
  · cases hwrite
    exact ends_idle ⟨rfl, Or.inr rfl⟩ ⟨rfl, rfl, Or.inr rfl⟩ ⟨rfl, rfl, rfl⟩
  · cases hwrite

/-- What journaling a command leaves: the process goes on with the command executed and in
the journal, or it has a failure, and the command may be in the journal. -/
structure Journaled (n : Checkpoint.Node (Option Command)) (cmd : Command)
    (t : Checkpoint.Node (Option Command)) : Prop where
  snapshot : t.disk.snapshot = n.disk.snapshot
  appended : t.disk.appended = n.disk.appended ∨
    n.memory.persistenceErr = none ∧ t.disk.appended = n.disk.appended ++ [cmd]
  stopped : n.memory.persistenceErr ≠ none → t.memory.persistenceErr ≠ none
  executed : t.memory.persistenceErr = none → t.disk.appended = n.disk.appended ++ [cmd]

theorem ends_journal (cmd : Command) :
    Ends (journal Command.ofRecord vol cmd) n (fun _ => Journaled n cmd) (Journaled n cmd)
      (fun t => t.disk.snapshot = n.disk.snapshot ∧ (t.disk.appended = n.disk.appended ∨
        n.memory.persistenceErr = none ∧ t.disk.appended = n.disk.appended ++ [cmd])) := by
  refine ends_bind (ends_get ?_)
  by_cases hrunning : n.memory.persistenceErr = none
  · rw [if_pos hrunning]
    refine ends_bind (ends_attempt (ends_mono (ends_writeEntry cmd) ?_ ?_ ?_))
    · rintro _ t ⟨hsnapshot, hmemory, happended⟩
      exact ends_update ⟨hsnapshot, Or.inr ⟨hrunning, happended⟩, fun hstopped => absurd hrunning hstopped,
        fun _ => happended⟩
    · rintro t ⟨hsnapshot, hmemory, happended⟩ err
      exact ends_update ⟨hsnapshot, happended.imp id fun happended => ⟨hrunning, happended⟩,
        fun _ => nofun, nofun⟩
    · rintro t ⟨hsnapshot, happended⟩
      exact ⟨hsnapshot, happended.imp id fun happended => ⟨hrunning, happended⟩⟩
  · rw [if_neg hrunning]
    exact ends_pure ⟨rfl, Or.inl rfl, id, fun hnone => absurd hnone hrunning⟩

/-- The records and the failure are as they were. -/
structure Unmoved (n t : Checkpoint.Node (Option Command)) : Prop where
  appended : t.disk.appended = n.disk.appended
  failure : t.memory.persistenceErr = n.memory.persistenceErr

theorem ends_savePersistentState (newId : FileId) :
    Ends (savePersistentState newId) n (fun _ => Unmoved n) (Unmoved n) (Unmoved n) := by
  refine ends_bind (ends_get (ends_bind (ends_wrapping (ends_onWal ⟨rfl, rfl⟩ ⟨rfl, rfl⟩ ?_))))
  rintro file _ _ _ ⟨⟩
  refine ends_bind (ends_wrapping (ends_onWal ⟨rfl, rfl⟩ ⟨rfl, rfl⟩ ?_))
  rintro file' _ _ _ ⟨⟩
  refine ends_bind (ends_wrapping (ends_mono (ends_saveWithWAL _ ⟨rfl, rfl⟩ ⟨rfl, rfl⟩) ?_
    (fun _ ht => ht) fun _ ht => ht))
  rintro _ _ rfl
  exact ends_wrapping (ends_clear newId ⟨rfl, rfl⟩ fun _ => ⟨rfl, rfl⟩)

/-- Saving appends nothing and does not change the process. -/
theorem ends_shutdownSave (newId : FileId) :
    Ends (shutdownSave newId) n (fun _ => Unmoved n) (Unmoved n) (Unmoved n) := by
  refine ends_bind (ends_get ?_)
  split
  · refine ends_bind (ends_attempt ?_)
    exact ends_mono (ends_savePersistentState newId) (fun _ _ ht => ends_pure ht)
      (fun _ ht _ => ends_pure ht) fun _ ht => ht
  · exact ends_pure ⟨rfl, rfl⟩

/-- Startup changes neither the snapshot nor the records. -/
structure Reads (disk : Disk (Option Command)) (t : Checkpoint.Node (Option Command)) : Prop where
  snapshot : t.disk.snapshot = disk.snapshot
  appended : t.disk.appended = disk.appended
  running : t.memory.persistenceErr = none

theorem ends_replayEntries {disk : Disk (Option Command)} (entries : List (Option Command))
    (h : Reads disk n) :
    Ends (Checkpoint.replayEntries replayErr entries) n (fun _ => Reads disk) (Reads disk) (Reads disk) := by
  induction entries generalizing n with
  | nil => exact ends_pure h
  | cons first rest ih =>
    unfold Checkpoint.replayEntries
    cases replayErr first with
    | some err => exact ends_fail h
    | none => exact ends_bind (ends_update (ih ⟨h.snapshot, h.appended, h.running⟩))

theorem ends_readPersistentState {disk : Disk (Option Command)}
    (loaded : Option (SnapshotFile (Option Command))) (h : Reads disk n) :
    Ends (readPersistentState Command.ofRecord loaded) n (fun _ => Reads disk) (Reads disk) (Reads disk) := by
  unfold readPersistentState
  cases loaded with
  | none =>
    refine ends_bind (ends_wrapping (ends_onWal h h ?_))
    intro file _ _ t hread
    split at hread
    · cases hread
    · cases hread
      exact ends_pure h
  | some snapshot =>
    refine ends_bind (ends_wrapping (ends_onWal h h ?_))
    rintro file _ _ _ ⟨⟩
    refine ends_bind (ends_wrapping (ends_onWal h h ?_))
    intro file' _ _ t hread
    split at hread
    · cases hread
    · cases hread
      exact ends_pure h

theorem ends_start (disk : Disk (Option Command)) (newId : FileId) :
    Ends (Checkpoint.start Command.ofRecord replayErr newId) ⟨disk, Memory.fresh⟩ (fun _ => Reads disk)
      (Reads disk) (Reads disk) := by
  have hfresh : Reads disk ⟨disk, Memory.fresh⟩ := ⟨rfl, rfl, rfl⟩
  refine ends_bind (ends_bind (ends_newWAL hfresh hfresh ?_))
  rintro t rfl
  have hopened : Reads disk ⟨{disk with wal := some (disk.wal.getD ⟨newId, []⟩)},
    {Memory.fresh with walOpen := true}⟩ := ⟨rfl, rfl, rfl⟩
  refine ⟨ends_bind (ends_newSnapshot hopened hopened ?_), hopened, hopened⟩
  refine ends_mono (ends_readPersistentState _ hopened) ?_ (fun _ ht => ht) fun _ ht => ht
  rintro ⟨reflected, entries⟩ t ht
  exact ends_bind (ends_update (ends_replayEntries entries ⟨ht.snapshot, ht.appended, ht.running⟩))

/-! ### The steps of the files -/

variable {s t : System (Option Command)}

theorem start_reads {newId : FileId} {fates : List (Fate Error)}
    (h : Checkpoint.step Command.ofRecord replayErr vol (.start newId fates) s = some t) :
    t.disk.snapshot = s.disk.snapshot ∧ t.disk.appended = s.disk.appended ∧
      ∀ memory, t.memory = some memory → memory.persistenceErr = none := by
  have ht : t = booted (Checkpoint.start Command.ofRecord replayErr newId fates ⟨s.disk, Memory.fresh⟩) :=
    (Option.some.inj h).symm
  have hend := ends_start s.disk newId fates
  rcases hr : Checkpoint.start Command.ofRecord replayErr newId fates ⟨s.disk, Memory.fresh⟩ with
    ⟨_ | _ | _, n, rest⟩ <;> rw [hr] at hend ht <;> subst ht
  · refine ⟨hend.snapshot, hend.appended, ?_⟩
    rintro _ ⟨⟩
    exact hend.running
  · exact ⟨hend.snapshot, hend.appended, nofun⟩
  · exact ⟨hend.snapshot, hend.appended, nofun⟩

theorem journal_step {cmd : Command} {fates : List (Fate Error)} {memory : Memory (Option Command)}
    (hmemory : s.memory = some memory)
    (h : Checkpoint.step Command.ofRecord replayErr vol (.journal cmd fates) s = some t) :
    t.disk.snapshot = s.disk.snapshot ∧
      (t.disk.appended = s.disk.appended ∨
        memory.persistenceErr = none ∧ t.disk.appended = s.disk.appended ++ [cmd]) ∧
      ∀ memory', t.memory = some memory' → Journaled ⟨s.disk, memory⟩ cmd ⟨t.disk, memory'⟩ := by
  rw [Checkpoint.step, hmemory] at h
  have ht : t = served (journal Command.ofRecord vol cmd fates ⟨s.disk, memory⟩) := (Option.some.inj h).symm
  have hend := @ends_journal ⟨s.disk, memory⟩ vol cmd fates
  rcases hr : journal Command.ofRecord vol cmd fates ⟨s.disk, memory⟩ with
    ⟨_ | _ | _, n, rest⟩ <;> rw [hr] at hend ht <;> subst ht
  · refine ⟨hend.snapshot, hend.appended, ?_⟩
    rintro _ ⟨⟩
    exact hend
  · refine ⟨hend.snapshot, hend.appended, ?_⟩
    rintro _ ⟨⟩
    exact hend
  · exact ⟨hend.1, hend.2, nofun⟩

theorem save_step {newId : FileId} {fates : List (Fate Error)} {memory : Memory (Option Command)}
    (hmemory : s.memory = some memory)
    (h : Checkpoint.step Command.ofRecord replayErr vol (.save newId fates) s = some t) :
    t.disk.appended = s.disk.appended ∧
      ∀ memory', t.memory = some memory' → memory'.persistenceErr = memory.persistenceErr := by
  rw [Checkpoint.step, hmemory] at h
  have ht : t = served (shutdownSave newId fates ⟨s.disk, memory⟩) := (Option.some.inj h).symm
  have hend := @ends_shutdownSave ⟨s.disk, memory⟩ newId fates
  rcases hr : shutdownSave newId fates ⟨s.disk, memory⟩ with
    ⟨_ | _ | _, n, rest⟩ <;> rw [hr] at hend ht <;> subst ht
  · refine ⟨hend.appended, ?_⟩
    rintro _ ⟨⟩
    exact hend.failure
  · refine ⟨hend.appended, ?_⟩
    rintro _ ⟨⟩
    exact hend.failure
  · exact ⟨hend.appended, nofun⟩

end Files

/-! ### The invariant -/

/-- The records as startup reads them. -/
def readBack (history : List Delivery) : List (Option Command) :=
  (recordsOf history).map fun record => some record.wire

theorem entries_readBack (history : List Delivery) :
    (recordsOf history).map (entry Command.ofRecord) = readBack history := by
  unfold readBack entry
  simp only [Command.ofRecord_text]

/-- The snapshot file has the machine of an earlier point of the history. -/
def Saved (h : Host) (snapshot : SnapshotFile (Option Command)) : Prop :=
  ∃ front later m order, h.history = front ++ later ∧ snapshot.reflected = readBack front ∧
    (∀ ids, (order ids : List Int).Perm ids) ∧ h.data = some (Machine.saved order m) ∧
    (Machine.after front).Resumes m

structure Inv (vol : Volume) (h : Host) : Prop where
  whole : Whole Command.ofRecord vol h.system
  appended : h.system.disk.appended = recordsOf h.history
  process : ∀ server, h.server = some server → ∃ memory, h.system.memory = some memory ∧
    (memory.persistenceErr = none ↔ server.persistenceErr = none)
  resumes : ∀ server, h.server = some server → server.persistenceErr = none →
    (Machine.after h.history).Resumes server.machine
  saved : ∀ snapshot, h.system.disk.snapshot = some snapshot → Saved h snapshot
  unsaved : h.system.disk.snapshot = none → h.data = none

theorem Inv.blank (vol : Volume) : Inv vol blank where
  whole := ⟨Checkpoint.Sound.blank, nofun⟩
  appended := rfl
  process := nofun
  resumes := nofun
  saved := nofun
  unsaved _ := rfl

theorem Saved.grow {h h' : Host} {snapshot : SnapshotFile (Option Command)} (hsaved : Saved h snapshot)
    (hdata : h'.data = h.data) {more : List Delivery} (hhistory : h'.history = h.history ++ more) :
    Saved h' snapshot := by
  obtain ⟨front, later, m, order, hfront, hreflected, hperm, hsame, hresumes⟩ := hsaved
  refine ⟨front, later ++ more, m, order, ?_, hreflected, hperm, hdata.trans hsame, hresumes⟩
  rw [hhistory, hfront, List.append_assoc]

theorem applyLoop_running_iff (s : Server) (d : Delivery) :
    (s.applyLoop d).server.persistenceErr = none ↔ s.persistenceErr = none ∧ d.writeErr = none := by
  rcases s.applyLoop_cases d with ⟨hfailed, failure, heq⟩ | ⟨hopen, outcome, _, heq⟩
  · rw [heq]
    simp [hfailed]
  · rw [heq]
    simp [hopen]

section Delivered
variable {h : Host} {server : Server} {env : Env} {cmd : Command} {cause : String}
  {system : System (Option Command)}

theorem delivered_same (hsame : system.disk.appended = h.system.disk.appended) :
    (h.delivered server env cmd cause system).history = h.history :=
  if_neg (by rw [hsame]; exact Nat.lt_irrefl _)

theorem delivered_grown {record : Command} (hgrown : system.disk.appended = h.system.disk.appended ++ [record]) :
    (h.delivered server env cmd cause system).history = h.history ++ [⟨env, cmd, none⟩] :=
  if_pos (by rw [hgrown, List.length_append]; exact Nat.lt_succ_self _)

variable {vol : Volume} {fates : List (Fate Error)} (hinv : Inv vol h) (hserver : h.server = some server)
  (hstep : Checkpoint.step Command.ofRecord replayErr vol
    (.journal (server.machine.fill env.now cmd).2 fates) h.system = some system)
include hinv hserver hstep

/-- The process that goes on has no failure exactly if the record is in the journal for sure,
and then it had none before. -/
theorem delivered_running {server' : Server} (hafter : (h.delivered server env cmd cause system).server = some server') :
    ∃ memory', system.memory = some memory' ∧
      (memory'.persistenceErr = none ↔ server'.persistenceErr = none) ∧
      (server'.persistenceErr = none → server.persistenceErr = none ∧
        server' = (server.applyLoop ⟨env, cmd, none⟩).server ∧
        system.disk.appended = h.system.disk.appended ++ [(server.machine.fill env.now cmd).2]) := by
  obtain ⟨memory, hmemory, hrunning⟩ := hinv.process server hserver
  obtain ⟨_, _, hjournaled⟩ := journal_step hmemory hstep
  obtain ⟨memory', hmemory', rfl⟩ := Option.map_eq_some_iff.mp hafter
  have hend := hjournaled memory' hmemory'
  refine ⟨memory', hmemory', ?_⟩
  rw [applyLoop_running_iff, hmemory', Option.any_some]
  cases hfailure : memory'.persistenceErr with
  | some err => simp
  | none =>
    have hnone : server.persistenceErr = none :=
      hrunning.mp (by_contra fun hne => hend.stopped hne hfailure)
    exact ⟨⟨fun _ => ⟨hnone, rfl⟩, fun _ => rfl⟩, fun _ => ⟨hnone, rfl, hend.executed hfailure⟩⟩

/-- A command is delivered: the process executes it as a server without a stop does, or has a
failure, or is gone. -/
theorem Inv.deliver (hh : Recoverable (h.delivered server env cmd cause system).history) :
    Inv vol (h.delivered server env cmd cause system) := by
  obtain ⟨memory, hmemory, hrunning⟩ := hinv.process server hserver
  obtain ⟨hsnapshot, happended, _⟩ := journal_step hmemory hstep
  have hwhole := step_whole (.journal _ fates) _ _ hinv.whole trivial hstep
  have hunsaved : system.disk.snapshot = none → h.data = none := fun hnone => hinv.unsaved (hsnapshot ▸ hnone)
  have hprocess : ∀ server', (h.delivered server env cmd cause system).server = some server' →
      ∃ memory', system.memory = some memory' ∧
        (memory'.persistenceErr = none ↔ server'.persistenceErr = none) := by
    intro server' hafter
    obtain ⟨memory', hmemory', hiff, _⟩ := delivered_running hinv hserver hstep hafter
    exact ⟨memory', hmemory', hiff⟩
  rcases happended with hsame | ⟨hnone, hgrown⟩
  · have hhistory := @delivered_same h server env cmd cause system hsame
    refine ⟨hwhole, ?_, hprocess, ?_, ?_, hunsaved⟩
    · rw [hhistory]
      exact hsame.trans hinv.appended
    · intro server' hafter hnone'
      obtain ⟨_, _, _, hexecuted⟩ := delivered_running hinv hserver hstep hafter
      have hgrown := (hexecuted hnone').2.2
      rw [hsame] at hgrown
      simp at hgrown
    · intro snapshot hsome
      exact (hinv.saved snapshot (hsnapshot ▸ hsome)).grow rfl (hhistory.trans (List.append_nil _).symm)
  · have hhistory := @delivered_grown h server env cmd cause system _ hgrown
    have hresumes := hinv.resumes server hserver (hrunning.mp hnone)
    rw [hhistory] at hh
    refine ⟨hwhole, ?_, hprocess, ?_, ?_, hunsaved⟩
    · rw [hhistory, hh.concat.2, ← hresumes.record, ← hinv.appended]
      exact hgrown
    · intro server' hafter hnone'
      obtain ⟨_, _, _, hexecuted⟩ := delivered_running hinv hserver hstep hafter
      obtain ⟨hopen, rfl, _⟩ := hexecuted hnone'
      rw [hhistory]
      exact hresumes.next hh hopen
    · intro snapshot hsome
      exact (hinv.saved snapshot (hsnapshot ▸ hsome)).grow rfl hhistory

end Delivered

/-- A save: the snapshot is the old one, or has the machine of the whole history. -/
theorem Inv.save {vol : Volume} {h h' : Host} (hinv : Inv vol h) {newId : FileId}
    {fates : List (Fate Error)} {order : List Int → List Int} {perm : ∀ ids, (order ids).Perm ids}
    {renamed : Bool} (hfresh : Fresh (.save newId fates order perm renamed) h)
    (hstep : step vol (.save newId fates order perm renamed) h = some h') : Inv vol h' := by
  obtain ⟨server, hserver, hrest⟩ := Option.bind_eq_some_iff.mp hstep
  obtain ⟨memory, hmemory, hrest⟩ := Option.bind_eq_some_iff.mp hrest
  obtain ⟨system, hsystem, hsaved⟩ := Option.bind_eq_some_iff.mp hrest
  obtain ⟨happended, hfailure⟩ := save_step hmemory hsystem
  obtain ⟨memory', hmemory', hrunning⟩ := hinv.process server hserver
  obtain rfl : memory = memory' := Option.some.inj (hmemory.symm.trans hmemory')
  have hwhole := step_whole (.save newId fates) _ _ hinv.whole hfresh hsystem
  have hprocess : ∀ server', system.memory.map (fun _ => server) = some server' →
      server' = server ∧ ∃ memory', system.memory = some memory' ∧
        (memory'.persistenceErr = none ↔ server'.persistenceErr = none) := by
    intro server' hafter
    obtain ⟨memory', hsame, rfl⟩ := Option.map_eq_some_iff.mp hafter
    refine ⟨rfl, memory', hsame, ?_⟩
    rw [hfailure memory' hsame]
    exact hrunning
  have hresumes : ∀ server', system.memory.map (fun _ => server) = some server' →
      server'.persistenceErr = none → (Machine.after h.history).Resumes server'.machine := by
    intro server' hafter hnone
    obtain ⟨rfl, _⟩ := hprocess server' hafter
    exact hinv.resumes server' hserver hnone
  unfold Host.saved at hsaved
  cases renamed with
  | false =>
    rw [if_neg Bool.false_ne_true] at hsaved
    split at hsaved
    · rename_i hsame
      cases hsaved
      refine ⟨hwhole, happended.trans hinv.appended, fun s hs => (hprocess s hs).2, hresumes, ?_, ?_⟩
      · intro snapshot hsome
        exact (hinv.saved snapshot (hsame ▸ hsome)).grow rfl (List.append_nil _).symm
      · exact fun hnone => hinv.unsaved (hsame ▸ hnone)
    · cases hsaved
  | true =>
    rw [if_pos rfl] at hsaved
    split at hsaved
    · rename_i hreplaced
      obtain ⟨hnone, hreflected⟩ := hreplaced
      cases hsaved
      refine ⟨hwhole, happended.trans hinv.appended, fun s hs => (hprocess s hs).2, hresumes, ?_, ?_⟩
      · intro snapshot hsome
        have hsome' : system.disk.snapshot = some snapshot := hsome
        rw [hsome', Option.map_some, Option.some.injEq] at hreflected
        refine ⟨h.history, [], server.machine, order, (List.append_nil _).symm, ?_, perm, rfl,
          hinv.resumes server hserver (hrunning.mp hnone)⟩
        rw [hreflected, ← entries_readBack, ← hinv.appended]
        exact (hinv.whole.upright memory hmemory).executed hnone
      · intro hmissing
        have hmissing' : system.disk.snapshot = none := hmissing
        rw [hmissing'] at hreflected
        cases hreflected
    · cases hsaved

/-! ### Startup -/

/-- Startup has the machine of the history. -/
theorem Inv.restore {vol : Volume} {h : Host} (hinv : Inv vol h) (hh : Recoverable h.history)
    (env : Nat → Env) :
    ∃ m, restorePersistentState env h.data ((readBack h.history).drop h.reflected) = some m ∧
      (Machine.after h.history).Resumes m := by
  -- the records behind those that a machine of an earlier point has executed
  have hreplay : ∀ (front later : List Delivery) (m : Machine), h.history = front ++ later →
      (Machine.after front).Resumes m →
        ∃ n, replayEntries env m ((readBack h.history).drop (readBack front).length) = some n ∧
          (Machine.after h.history).Resumes n := by
    intro front later m hhistory hresumes
    rw [hhistory] at hh ⊢
    obtain ⟨n, hn, hresumes'⟩ := hresumes.replayed hh env
    refine ⟨n, ?_, hresumes'⟩
    have hrest : (readBack (front ++ later)).drop (readBack front).length =
        (((Server.fresh.live front).1.live later).2.map Command.wire).map some := by
      unfold readBack recordsOf
      rw [Server.live_append_journal, List.map_append, List.drop_left, List.map_map]
      rfl
    rw [hrest, Server.replayEntries_live later hh.front.running
      fun d hd => hh.recorded d (List.mem_append_right _ hd), hn]
    rfl
  cases hsnapshot : h.system.disk.snapshot with
  | none =>
    obtain ⟨n, hn, hresumes⟩ := hreplay [] h.history Machine.fresh rfl Resumes.fresh
    refine ⟨n, ?_, hresumes⟩
    unfold reflected
    rw [hinv.unsaved hsnapshot, hsnapshot]
    exact hn
  | some snapshot =>
    obtain ⟨front, later, m, order, hhistory, hreflected, hperm, hdata, hresumes⟩ :=
      hinv.saved snapshot hsnapshot
    obtain ⟨m', hrestored, hresumes'⟩ := hresumes.restored (by rw [hhistory] at hh; exact hh.front.savable) hperm
    obtain ⟨n, hn, hresumes''⟩ := hreplay front later m' hhistory hresumes'
    refine ⟨n, ?_, hresumes''⟩
    unfold reflected
    rw [hdata, hsnapshot, Option.map_some, Option.getD_some, hreflected]
    show (Machine.restored (Machine.saved order m)).bind _ = _
    rw [hrestored]
    exact hn

/-- A start that gets through its calls comes up with the machine of the history. -/
theorem Inv.start {vol : Volume} {h : Host} (hinv : Inv vol h) (hh : Recoverable h.history) {newId : FileId}
    {fates : List (Fate Error)} {env : Nat → Env} {system : System (Option Command)}
    (hstep : Checkpoint.step Command.ofRecord replayErr vol (.start newId fates) h.system = some system) :
    Inv vol (h.started env system) ∧ (h.started env system).history = h.history ∧
      (system.memory.isSome → ∃ m, (h.started env system).server = some ⟨m, none⟩) := by
  obtain ⟨hsnapshot, happended, hrunning⟩ := start_reads hstep
  have hwhole := step_whole (.start newId fates) _ _ hinv.whole trivial hstep
  have hsaved : ∀ snapshot, system.disk.snapshot = some snapshot → Saved h snapshot :=
    fun snapshot hsome => hinv.saved snapshot (hsnapshot ▸ hsome)
  have hunsaved : system.disk.snapshot = none → h.data = none := fun hnone => hinv.unsaved (hsnapshot ▸ hnone)
  cases hmemory : system.memory with
  | none =>
    have hstarted : h.started env system = {h with system := {system with memory := none}, server := none} := by
      unfold started
      rw [hmemory]
      rfl
    rw [hstarted]
    exact ⟨⟨⟨hwhole.sound, nofun⟩, happended.trans hinv.appended, nofun, nofun,
      fun snapshot hsome => (hsaved snapshot hsome).grow rfl (List.append_nil _).symm, hunsaved⟩, rfl, nofun⟩
  | some memory =>
    have hexecuted : memory.executed = readBack h.history := by
      rw [(hwhole.upright memory hmemory).executed (hrunning memory hmemory), ← entries_readBack,
        ← hinv.appended, ← happended]
    obtain ⟨m, hm, hresumes⟩ := hinv.restore hh env
    have hstarted : h.started env system = {h with system := system, server := some ⟨m, none⟩} := by
      unfold started
      rw [hmemory, Option.bind_some, hexecuted, hm]
    rw [hstarted]
    refine ⟨⟨hwhole, happended.trans hinv.appended, ?_, ?_,
      fun snapshot hsome => (hsaved snapshot hsome).grow rfl (List.append_nil _).symm, hunsaved⟩, rfl,
      fun _ => ⟨m, rfl⟩⟩
    · rintro _ ⟨⟩
      exact ⟨memory, hmemory, by simp [hrunning memory hmemory]⟩
    · rintro _ ⟨⟩ _
      exact hresumes

theorem succeeds_replayEntries {entries : List (Option Command)} (h : ∀ entry ∈ entries, replayErr entry = none)
    (n : Checkpoint.Node (Option Command)) :
    ∃ t, Succeeds (Checkpoint.replayEntries replayErr entries) n () t := by
  induction entries generalizing n with
  | nil => exact ⟨n, succeeds_pure⟩
  | cons first rest ih =>
    obtain ⟨t, ht⟩ := ih (fun entry hentry => h entry (List.mem_cons_of_mem _ hentry))
      {n with memory := {n.memory with executed := n.memory.executed ++ [first]}}
    refine ⟨t, ?_⟩
    unfold Checkpoint.replayEntries
    rw [h first List.mem_cons_self]
    exact succeeds_bind rfl ht

/-- If none of its calls fails, startup gets through them. -/
theorem succeeds_start {vol : Volume} {disk : Disk (Option Command)} (h : Checkpoint.Sound Command.ofRecord vol disk)
    (newId : FileId) :
    ∃ t, Succeeds (Checkpoint.start Command.ofRecord replayErr newId) ⟨disk, Memory.fresh⟩ () t := by
  obtain ⟨⟨reflected, entries⟩, n, hfound⟩ := succeeds_recovery h newId
  have hexact : reflected ++ entries = disk.appended.map (entry Command.ofRecord) := by
    have hend := ends_recovery h newId []
    rw [show recovery Command.ofRecord newId [] ⟨disk, Memory.fresh⟩ = _ from hfound] at hend
    exact hend.exact
  have hread : ∀ entry ∈ entries, replayErr entry = none := by
    intro entry hentry
    have hmem : entry ∈ disk.appended.map (Checkpoint.entry Command.ofRecord) :=
      hexact ▸ List.mem_append_right _ hentry
    obtain ⟨cmd, _, rfl⟩ := List.mem_map.mp hmem
    rw [Checkpoint.entry, Command.ofRecord_text]
    rfl
  obtain ⟨t, ht⟩ := succeeds_replayEntries hread {n with memory := {n.memory with executed := reflected}}
  exact ⟨t, succeeds_bind hfound (succeeds_bind rfl ht)⟩

/-! ### Whole runs -/

theorem step_start {vol : Volume} {newId : FileId} {fates : List (Fate Error)} {env : Nat → Env} {h h' : Host}
    (hstep : step vol (.start newId fates env) h = some h') :
    ∃ system, Checkpoint.step Command.ofRecord replayErr vol (.start newId fates) h.system = some system ∧
      h.started env system = h' := by
  unfold step at hstep
  exact Option.map_eq_some_iff.mp hstep

/-- A command that is given to the process. -/
def Event.delivery : Event → Option Delivery
  | .deliver env cmd _ _ => some ⟨env, cmd, none⟩
  | _ => none

/-- A command joins the history if its record reaches the journal. -/
theorem step_history {vol : Volume} {event : Event} {h h' : Host} (hstep : step vol event h = some h') :
    h'.history = h.history ++
      if h.system.disk.appended.length < h'.system.disk.appended.length then event.delivery.toList else [] := by
  cases event with
  | start newId fates env =>
    obtain ⟨system, _, rfl⟩ := step_start hstep
    simp only [Event.delivery, Option.toList_none, ite_self, List.append_nil]
    unfold started
    split <;> rfl
  | deliver env cmd cause fates =>
    obtain ⟨server, _, hrest⟩ := Option.bind_eq_some_iff.mp hstep
    obtain ⟨system, _, rfl⟩ := Option.map_eq_some_iff.mp hrest
    unfold delivered
    dsimp only
    split
    · rfl
    · exact (List.append_nil _).symm
  | save newId fates order perm renamed =>
    obtain ⟨server, _, hrest⟩ := Option.bind_eq_some_iff.mp hstep
    obtain ⟨memory, _, hrest⟩ := Option.bind_eq_some_iff.mp hrest
    obtain ⟨system, _, hsaved⟩ := Option.bind_eq_some_iff.mp hrest
    simp only [Event.delivery, Option.toList_none, ite_self, List.append_nil]
    unfold Host.saved at hsaved
    split at hsaved
    · split at hsaved <;> cases hsaved
      rfl
    · split at hsaved <;> cases hsaved
      rfl
  | crash =>
    cases hstep
    simp only [Event.delivery, Option.toList_none, ite_self, List.append_nil]

theorem step_inv {vol : Volume} (event : Event) (h h' : Host) (hinv : Recoverable h.history → Inv vol h)
    (hfresh : Fresh event h) (hstep : step vol event h = some h') : Recoverable h'.history → Inv vol h' := by
  intro hh
  have hfront : Recoverable h.history := by
    have hgrown := hh
    rw [step_history hstep] at hgrown
    exact hgrown.front
  cases event with
  | start newId fates env =>
    obtain ⟨system, hsystem, rfl⟩ := step_start hstep
    exact ((hinv hfront).start hfront hsystem).1
  | deliver env cmd cause fates =>
    obtain ⟨server, hserver, hrest⟩ := Option.bind_eq_some_iff.mp hstep
    obtain ⟨system, hsystem, rfl⟩ := Option.map_eq_some_iff.mp hrest
    exact (hinv hfront).deliver hserver hsystem hh
  | save newId fates order perm renamed => exact (hinv hfront).save hfresh hstep
  | crash =>
    cases hstep
    obtain ⟨hwhole, happended, _, _, hsaved, hunsaved⟩ := hinv hfront
    exact ⟨⟨hwhole.sound, nofun⟩, happended, nofun, nofun,
      fun snapshot hsome => (hsaved snapshot hsome).grow rfl (List.append_nil _).symm, hunsaved⟩

/-- **Nothing that was executed is lost.** After any run of starts, committed commands, saves and
crashes, cut at any call: a process that has no failure goes on where a server would be that
has executed the whole history without a stop; a command that it executes joins the
history; and if it is started now, and no call fails, it comes up at that point. -/
theorem durable (vol : Volume) (events : List Event) (h : Host)
    (hfresh : Along (step vol) Fresh blank events) (hrun : run (step vol) blank events = some h)
    (hh : Recoverable h.history) :
    (∀ server, h.server = some server → server.persistenceErr = none →
      (Machine.after h.history).Resumes server.machine) ∧
    (∀ env cmd cause fates h' server', step vol (.deliver env cmd cause fates) h = some h' →
      h'.server = some server' → server'.persistenceErr = none →
        h'.history = h.history ++ [⟨env, cmd, none⟩]) ∧
    ∀ newId env, ∃ h' server, step vol (.start newId [] env) h = some h' ∧ h'.server = some server ∧
      server.persistenceErr = none ∧ h'.history = h.history ∧
      (Machine.after h.history).Resumes server.machine := by
  have hinv : Inv vol h := run_invariant (P := fun h => Recoverable h.history → Inv vol h) step_inv events
    blank h (fun _ => Inv.blank vol) hfresh hrun hh
  refine ⟨hinv.resumes, ?_, ?_⟩
  · intro env cmd cause fates h' server' hstep hserver' hnone
    obtain ⟨server, hserver, hrest⟩ := Option.bind_eq_some_iff.mp hstep
    obtain ⟨system, hsystem, rfl⟩ := Option.map_eq_some_iff.mp hrest
    obtain ⟨_, _, _, hexecuted⟩ := delivered_running hinv hserver hsystem hserver'
    exact delivered_grown (hexecuted hnone).2.2
  · intro newId env
    obtain ⟨t, ht⟩ := succeeds_start hinv.whole.sound newId
    have hsystem : Checkpoint.step Command.ofRecord replayErr vol (.start newId []) h.system =
        some ⟨t.disk, some t.memory⟩ := by
      show some (booted (Checkpoint.start Command.ofRecord replayErr newId [] ⟨h.system.disk, Memory.fresh⟩)) = _
      rw [show Checkpoint.start Command.ofRecord replayErr newId [] ⟨h.system.disk, Memory.fresh⟩ = _ from ht]
      rfl
    obtain ⟨hafter, hhistory, hup⟩ := @Inv.start vol h hinv hh newId [] env _ hsystem
    obtain ⟨m, hm⟩ := hup rfl
    refine ⟨_, ⟨m, none⟩, ?_, hm, rfl, hhistory, ?_⟩
    · show (Checkpoint.step Command.ofRecord replayErr vol (.start newId []) h.system).map (h.started env) = _
      rw [hsystem]
      rfl
    · rw [← hhistory]
      exact hafter.resumes _ hm rfl

def smallVolume : Volume := ⟨1000, by decide⟩

/-- A lease is granted and a key put under it; the process is killed after the rename of the
snapshot, comes up again, deletes the key and is killed. -/
def stops : List Event :=
  [.start ⟨1, 7⟩ [] fun _ => Env.at 1,
    .deliver (Env.at 5) {Command.ofType .leaseGrant with ttl := 3} "" [],
    .deliver (Env.at 6) {Command.ofType .put with key := ascii "k", value := ascii "v", leaseID := 1} "" [],
    .save ⟨1, 8⟩ [.ok, .ok, .ok, .ok, .ok, .ok, .ok, .crash] id (fun _ => List.Perm.refl _) true,
    .start ⟨1, 9⟩ [] fun _ => Env.at 20,
    .deliver (Env.at 21) {Command.ofType .delete with key := ascii "k"} "" [],
    .crash]

def stopsHistory : List Delivery :=
  [⟨Env.at 5, {Command.ofType .leaseGrant with ttl := 3}, none⟩,
   ⟨Env.at 6, {Command.ofType .put with key := ascii "k", value := ascii "v", leaseID := 1}, none⟩,
   ⟨Env.at 21, {Command.ofType .delete with key := ascii "k"}, none⟩]

/-- If it is a command, its record reaches the journal. -/
def Reaches (vol : Volume) (event : Event) (h : Host) : Prop :=
  event.delivery.isSome = true →
    (step vol event h).all (fun h' => decide (h.system.disk.appended.length < h'.system.disk.appended.length)) = true

instance (vol : Volume) (event : Event) (h : Host) : Decidable (Reaches vol event h) :=
  inferInstanceAs (Decidable (_ → _))

/-- If every record reaches the journal, the history has every command. -/
theorem run_history {vol : Volume} (events : List Event) {h h' : Host}
    (hreaches : Along (step vol) (Reaches vol) h events) (hrun : run (step vol) h events = some h') :
    h'.history = h.history ++ events.filterMap Event.delivery := by
  induction events generalizing h with
  | nil =>
    cases hrun
    exact (List.append_nil _).symm
  | cons event rest ih =>
    obtain ⟨h₁, hstep, hrest⟩ := run_cons hrun
    obtain ⟨hfirst, hlater⟩ := along_cons hreaches hstep
    rw [ih hlater hrest, step_history hstep, List.append_assoc, List.filterMap_cons]
    cases hdelivery : event.delivery with
    | none => simp
    | some d =>
      have hgrown := hfirst (by rw [hdelivery]; rfl)
      rw [hstep] at hgrown
      rw [if_pos (of_decide_eq_true hgrown)]
      rfl

theorem stops_history : ∃ h, run (step smallVolume) blank stops = some h ∧ h.history = stopsHistory := by
  obtain ⟨h, hrun⟩ : ∃ h, run (step smallVolume) blank stops = some h :=
    Option.isSome_iff_exists.mp (by decide +kernel)
  exact ⟨h, hrun, run_history stops (by decide +kernel) hrun⟩

theorem stops_along : Along (step smallVolume) Fresh blank stops := by
  decide +kernel

theorem stopsHistory_recoverable : Recoverable stopsHistory where
  recorded := by
    intro d hd
    simp only [stopsHistory, List.mem_cons, List.not_mem_nil, or_false] at hd
    rcases hd with rfl | rfl | rfl
    · exact ⟨rfl, trivial, nofun, fun _ _ => by decide⟩
    · exact ⟨rfl, trivial, nofun, nofun⟩
    · exact ⟨rfl, trivial, nofun, nofun⟩
  plain := by
    have hrecords : (Server.fresh.live stopsHistory).2 =
        [{Command.ofType .leaseGrant with ttl := 3, expireAt := 3000000005},
          {Command.ofType .put with key := ascii "k", value := ascii "v", leaseID := 1, revision := 1},
          {Command.ofType .delete with key := ascii "k", revision := 2}] := by decide
    intro record hrecord
    rw [hrecords] at hrecord
    simp only [List.mem_cons, List.not_mem_nil, or_false] at hrecord
    rcases hrecord with rfl | rfl | rfl <;>
      exact ⟨by decide, by decide, by decide, by decide, by decide, by decide, by decide,
        by unfold KeepsExpiry; decide⟩
  crisp := ⟨nofun, nofun, nofun, trivial⟩

theorem durable_stops :
    ∃ h, run (step smallVolume) blank stops = some h ∧ h.history = stopsHistory ∧
      ∀ newId env, ∃ h' server, step smallVolume (.start newId [] env) h = some h' ∧
        h'.server = some server ∧ (Machine.after stopsHistory).Resumes server.machine := by
  obtain ⟨h, hrun, hhistory⟩ := stops_history
  refine ⟨h, hrun, hhistory, fun newId env => ?_⟩
  obtain ⟨h', server, hstep, hserver, _, _, hresumes⟩ := (durable smallVolume stops h stops_along hrun
    (hhistory ▸ stopsHistory_recoverable)).2.2 newId env
  exact ⟨h', server, hstep, hserver, hhistory ▸ hresumes⟩

end Host
end Wjetcd
