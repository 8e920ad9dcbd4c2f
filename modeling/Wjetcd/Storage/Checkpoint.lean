import Wjetcd.Lib.Crash
import Wjetcd.Lib.Float64
import Wjetcd.Lib.Runs
import Wjetcd.Storage.Wal

/-! Checkpoints: the snapshot file and the journal it makes superfluous.

`savePersistentState` writes a snapshot, with the identity and the length of the
journal it covers, and then replaces the journal by an empty file. A crash between
the two leaves a journal whose records are partly in the snapshot; startup tells
this by the identity. The model has every call into the file system as a step that
may fail and that the process may not survive. A file is replaced by a rename, at
once; what it costs to write the temporary file is calls without a visible effect.

A record is what reading it gives, `decode` of its text. The snapshot's data are
represented by the records executed when it was taken, and the process by those it
has executed; `appended` is kept for the statement only: every record whose bytes
have reached the journal. A new file's identity is only asked to differ from that
of the journal at that moment. -/
namespace Wjetcd.Checkpoint
open Runs Crash

/-- Device and inode. -/
structure FileId where
  dev : Nat
  ino : Nat
deriving Repr, DecidableEq

/-- `fmt.Sprintf("%d:%d", Dev, Ino)` -/
def FileId.text (id : FileId) : String := id.dev.repr ++ ":" ++ id.ino.repr

structure File where
  id : FileId
  content : Bytes
deriving Repr, DecidableEq

/-- The snapshot as `SaveWithWAL` writes it; nothing reads its term and index. -/
structure SnapshotFile (α : Type) where
  reflected : List α
  walID : String
  walOffset : Int
deriving Repr, DecidableEq

/-- No snapshot stands for a file that is missing or empty. -/
structure Disk (α : Type) where
  wal : Option File
  snapshot : Option (SnapshotFile α)
  appended : List Command

/-- The volume is full after fewer bytes than a float64 counts one by one. -/
structure Volume where
  capacity : Nat
  capacity_lt : capacity < 2 ^ 53

inductive Error where
  | os
  | closed
  | unreadable
  | wrapped (context : String) (cause : Error)
deriving Repr, DecidableEq

/-- The process: what its state machine has executed, whether `w.file` is open, and
the failure that keeps it from executing more. -/
structure Memory (α : Type) where
  executed : List α
  walOpen : Bool
  persistenceErr : Option Error

structure Node (α : Type) where
  disk : Disk α
  memory : Memory α

variable {α : Type}

abbrev Calls (α β : Type) := Prog (Node α) Error β

/-! ### The calls -/

def createTemp : Calls α Unit := idle
def encode : Calls α Unit := idle
def sync : Calls α Unit := idle
def close : Calls α Unit := idle
def remove : Calls α Unit := idle
def openFile : Calls α Unit := idle
def stat : Calls α Unit := idle
def seek : Calls α Unit := idle
def syncDirectory : Calls α Unit := idle

/-- A call on the journal's file. -/
def onWal {β : Type} (f : Node α → File → Except Error (β × Node α)) : Calls α β := do
  if ← get fun n => n.memory.walOpen then
    call fun n =>
      match n.disk.wal with
      | none => .error .os
      | some file => f n file
  else fail .closed

/-- `fmt.Errorf("..: %w", err)` -/
def wrapping {β : Type} (context : String) (p : Calls α β) : Calls α β :=
  handle p fun err => fail (.wrapped context err)

def fileID : Calls α String := onWal fun n file => .ok (file.id.text, n)

def size : Calls α Int := onWal fun n file => .ok (file.content.length, n)

/-- The bytes of a record are written as one. -/
def write (vol : Volume) (cmd : Command) : Calls α Unit := onWal fun n file =>
  if (Wal.writeEntry file.content cmd).length ≤ vol.capacity then
    .ok ((), {n with disk := {n.disk with
      wal := some {file with content := Wal.writeEntry file.content cmd}
      appended := n.disk.appended ++ [cmd]}})
  else .error .os

def writeEntry (vol : Volume) (cmd : Command) : Calls α Unit := do
  write vol cmd
  sync

def readEntriesFrom (decode : Bytes → α) (offset : Int) : Calls α (List α) :=
  onWal fun n file =>
    match Wal.readEntriesFrom decode file.content offset with
    | none => .error .unreadable
    | some entries => .ok (entries, n)

def readEntries (decode : Bytes → α) : Calls α (List α) :=
  onWal fun n file =>
    match Wal.readEntries decode file.content with
    | none => .error .unreadable
    | some entries => .ok (entries, n)

/-! ### Saving -/

def saveWithWAL (snapshot : SnapshotFile α) : Calls α Unit := do
  createTemp
  cleanup (do encode; sync) (do let _ ← attempt close; remove)
  cleanup close remove
  -- the rename
  cleanup (call fun n => .ok ((), {n with disk := {n.disk with snapshot := some snapshot}})) remove
  openFile
  close
  syncDirectory

/-- `newId` is the identity of the file that `CreateTemp` makes. -/
def clear (newId : FileId) : Calls α Unit := do
  if ← get fun n => n.memory.walOpen then
    createTemp
    cleanup sync (do let _ ← attempt close; remove)
    cleanup close remove
    -- the rename
    cleanup (call fun n => .ok ((), {n with disk := {n.disk with wal := some ⟨newId, []⟩}})) remove
    handle openFile fun err => do
      let _ ← attempt close
      update fun n => {n with memory := {n.memory with walOpen := false}}
      fail err
    let closeErr ← attempt close
    let dirErr ← attempt syncDirectory
    match closeErr, dirErr with
    | some err, _ => fail err
    | none, some err => fail err
    | none, none => pure ()
  else fail .closed

def savePersistentState (newId : FileId) : Calls α Unit := do
  let reflected ← get fun n => n.memory.executed
  let walID ← wrapping "identify WAL before snapshot" fileID
  let walOffset ← wrapping "measure WAL before snapshot" size
  wrapping "write server snapshot" (saveWithWAL ⟨reflected, walID, walOffset⟩)
  wrapping "clear WAL after snapshot" (clear newId)

/-- The part of `Shutdown` under the lock. -/
def shutdownSave (newId : FileId) : Calls α Unit := do
  if (← get fun n => n.memory.persistenceErr) = none then
    -- an error is only logged
    let _ ← attempt (savePersistentState newId)

/-! ### The apply loop -/

/-- The loop journals a command and executes it. -/
def journal (decode : Bytes → α) (vol : Volume) (cmd : Command) : Calls α Unit := do
  if (← get fun n => n.memory.persistenceErr) = none then
    match ← attempt (writeEntry vol cmd) with
    | some err =>
      update fun n => {n with memory :=
        {n.memory with persistenceErr := some (.wrapped "write WAL" err)}}
    | none =>
      update fun n => {n with memory :=
        {n.memory with executed := n.memory.executed ++ [decode cmd.text]}}

/-! ### Starting -/

/-- `newId` is the identity of the file if there was none. -/
def newWAL (newId : FileId) : Calls α Unit := do
  call fun n => .ok ((), {n with
    disk := {n.disk with wal := some (n.disk.wal.getD ⟨newId, []⟩)}
    memory := {n.memory with walOpen := true}})
  cleanup syncDirectory close

/-- The offset is a number in a JSON object without a type, a float64. -/
def SnapshotFile.decoded (snapshot : SnapshotFile α) : SnapshotFile α :=
  {snapshot with walOffset := Float64.through snapshot.walOffset}

def loadFromFile : Calls α (Option (SnapshotFile α)) := do
  stat
  match ← get fun n => n.disk.snapshot with
  | none => pure none
  | some snapshot =>
    seek
    pure (some snapshot.decoded)

def newSnapshot : Calls α (Option (SnapshotFile α)) := do
  openFile
  cleanup syncDirectory close
  cleanup loadFromFile close

/-- Where `restorePersistentState` starts to replay. -/
def SnapshotFile.replayFrom (snapshot : SnapshotFile α) (walID : String) : Int :=
  if snapshot.walID ≠ "" ∧ snapshot.walID = walID then snapshot.walOffset else 0

/-- The records that the restored state reflects, and those to replay over it. -/
def readPersistentState (decode : Bytes → α) (loaded : Option (SnapshotFile α)) :
    Calls α (List α × List α) := do
  match loaded with
  | some snapshot =>
    let walID ← wrapping "identify WAL during recovery" fileID
    let entries ← wrapping "read WAL suffix" (readEntriesFrom decode (snapshot.replayFrom walID))
    pure (snapshot.reflected, entries)
  | none =>
    let entries ← wrapping "read WAL" (readEntries decode)
    pure ([], entries)

/-- Replaying may stop at any record: `replayErr` is the error it gives. -/
def replayEntries (replayErr : α → Option Error) : List α → Calls α Unit
  | [] => pure ()
  | entry :: rest =>
    match replayErr entry with
    | some err => fail (.wrapped "replay" err)
    | none => do
      update fun n => {n with memory := {n.memory with executed := n.memory.executed ++ [entry]}}
      replayEntries replayErr rest

/-- What startup finds on the disk. -/
def recovery (decode : Bytes → α) (newId : FileId) : Calls α (List α × List α) := do
  newWAL newId
  let loaded ← newSnapshot
  readPersistentState decode loaded

def start (decode : Bytes → α) (replayErr : α → Option Error) (newId : FileId) : Calls α Unit := do
  let (reflected, entries) ← recovery decode newId
  update fun n => {n with memory := {n.memory with executed := reflected}}
  replayEntries replayErr entries

def Memory.fresh : Memory α := ⟨[], false, none⟩

/-! ### Histories -/

/-- The disk, and the process if one is running. -/
structure System (α : Type) where
  disk : Disk α
  memory : Option (Memory α)

def System.blank : System α := ⟨⟨none, none, []⟩, none⟩

/-- Everything that can happen, with the fates of its calls. -/
inductive Event where
  | start (newId : FileId) (fates : List (Fate Error))
  | journal (cmd : Command) (fates : List (Fate Error))
  | save (newId : FileId) (fates : List (Fate Error))
  | crash

/-- A process that does not come up is gone, and so is one that crashes. -/
def booted : Outcome Error Unit × Node α × List (Fate Error) → System α
  | (.done _, n, _) => ⟨n.disk, some n.memory⟩
  | (_, n, _) => ⟨n.disk, none⟩

def served : Outcome Error Unit × Node α × List (Fate Error) → System α
  | (.crashed, n, _) => ⟨n.disk, none⟩
  | (_, n, _) => ⟨n.disk, some n.memory⟩

def step (decode : Bytes → α) (replayErr : α → Option Error) (vol : Volume) :
    Event → System α → Option (System α)
  | .start newId fates, s => some (booted (start decode replayErr newId fates ⟨s.disk, Memory.fresh⟩))
  | .journal cmd fates, s =>
    s.memory.map fun memory => served (journal decode vol cmd fates ⟨s.disk, memory⟩)
  | .save newId fates, s =>
    s.memory.map fun memory => served (shutdownSave newId fates ⟨s.disk, memory⟩)
  | .crash, s => some ⟨s.disk, none⟩

/-- The file that replaces the journal is not the journal. -/
def Fresh : Event → System α → Prop
  | .save newId _, s => s.disk.wal.map File.id ≠ some newId
  | _, _ => True

instance : (event : Event) → (s : System α) → Decidable (Fresh event s)
  | .save newId _, s => inferInstanceAs (Decidable (s.disk.wal.map File.id ≠ some newId))
  | .start _ _, _ => .isTrue trivial
  | .journal _ _, _ => .isTrue trivial
  | .crash, _ => .isTrue trivial

/-! ### Identities -/

theorem colon_not_mem_toDigits (n : Nat) : ':' ∉ Nat.toDigits 10 n := by
  intro hmem
  exact absurd (Nat.isDigit_of_mem_toDigits (by decide) (by decide) hmem) (by decide)

theorem FileId.toList_text (id : FileId) :
    id.text.toList = Nat.toDigits 10 id.dev ++ ':' :: Nat.toDigits 10 id.ino := by
  simp [FileId.text, Nat.repr_eq_ofList_toDigits]

theorem toDigits_inj {m n : Nat} (h : Nat.toDigits 10 m = Nat.toDigits 10 n) : m = n := by
  rw [← @Nat.ofDigitChars_ten_toDigits m, h, Nat.ofDigitChars_ten_toDigits]

theorem FileId.text_inj {a b : FileId} (h : a.text = b.text) : a = b := by
  have hlist := congrArg String.toList h
  rw [toList_text, toList_text] at hlist
  obtain ⟨hdev, -, hino⟩ := (List.append_cons_inj_of_notMem
    (colon_not_mem_toDigits a.dev) (colon_not_mem_toDigits a.ino)).mp hlist
  obtain ⟨dev, ino⟩ := a
  obtain ⟨dev', ino'⟩ := b
  rw [FileId.mk.injEq]
  exact ⟨toDigits_inj hdev, toDigits_inj hino⟩

theorem FileId.text_ne_empty (id : FileId) : id.text ≠ "" := by
  intro h
  have hlist := congrArg String.toList h
  rw [toList_text] at hlist
  simp at hlist

/-! ### What the two files say together -/

section Soundness
variable (decode : Bytes → α) (vol : Volume)

def entry (cmd : Command) : α := decode cmd.text

/-- The snapshot reflects `old`. The journal has the records since then, and before
them `early`: records it shares with the snapshot, up to the stored offset. -/
structure Covers (disk : Disk α) (file : File) (old early since : List Command) : Prop where
  appended : disk.appended = old ++ since
  content : file.content = (early ++ since).flatMap Wal.line
  unsaved : disk.snapshot = none → old = [] ∧ early = []
  reflected : ∀ snapshot, disk.snapshot = some snapshot → snapshot.reflected = old.map (entry decode)
  offset : ∀ snapshot, disk.snapshot = some snapshot → snapshot.walID = file.id.text →
    snapshot.walOffset = (early.flatMap Wal.line).length
  replaced : ∀ snapshot, disk.snapshot = some snapshot → snapshot.walID ≠ file.id.text → early = []

structure Sound (disk : Disk α) : Prop where
  missing : disk.wal = none → disk.snapshot = none ∧ disk.appended = []
  fits : ∀ file, disk.wal = some file → file.content.length ≤ vol.capacity
  covers : ∀ file, disk.wal = some file → ∃ old early since, Covers decode disk file old early since

/-- A process that may execute has executed every record. -/
structure Upright (n : Node α) : Prop where
  sound : Sound decode vol n.disk
  executed : n.memory.persistenceErr = none →
    n.memory.executed = n.disk.appended.map (entry decode)

end Soundness

variable {decode : Bytes → α} {vol : Volume}

theorem Sound.blank : Sound decode vol (⟨none, none, []⟩ : Disk α) where
  missing _ := ⟨rfl, rfl⟩
  fits _ h := by cases h
  covers _ h := by cases h

/-- A new journal, where there was none. -/
theorem Sound.create {disk : Disk α} (h : Sound decode vol disk) (newId : FileId) :
    Sound decode vol {disk with wal := some (disk.wal.getD ⟨newId, []⟩)} := by
  cases hwal : disk.wal with
  | none =>
    obtain ⟨hsnapshot, happended⟩ := h.missing hwal
    refine ⟨nofun, ?_, ?_⟩
    · rintro file ⟨⟩
      exact Nat.zero_le _
    · rintro file ⟨⟩
      refine ⟨[], [], [], happended, rfl, fun _ => ⟨rfl, rfl⟩, ?_, ?_, ?_⟩ <;>
      · intro snapshot hsome
        rw [show disk.snapshot = some snapshot from hsome] at hsnapshot
        cases hsnapshot
  | some file =>
    have hsame : {disk with wal := some ((some file).getD ⟨newId, []⟩)} = disk := by
      rw [Option.getD_some, ← hwal]
    rw [hsame]
    exact h

/-- One more record in the journal. -/
theorem Sound.append {disk : Disk α} {file : File} {cmd : Command} (h : Sound decode vol disk)
    (hwal : disk.wal = some file)
    (hfits : (Wal.writeEntry file.content cmd).length ≤ vol.capacity) :
    Sound decode vol {disk with
      wal := some {file with content := Wal.writeEntry file.content cmd}
      appended := disk.appended ++ [cmd]} := by
  obtain ⟨old, early, since, hcovers⟩ := h.covers file hwal
  refine ⟨nofun, ?_, ?_⟩
  · rintro _ ⟨⟩
    exact hfits
  · rintro _ ⟨⟩
    refine ⟨old, early, since ++ [cmd], ?_, ?_, hcovers.unsaved, hcovers.reflected, hcovers.offset,
      hcovers.replaced⟩
    · show disk.appended ++ [cmd] = old ++ (since ++ [cmd])
      rw [hcovers.appended, List.append_assoc]
    · show Wal.writeEntry file.content cmd = _
      rw [Wal.writeEntry, hcovers.content]
      simp [List.append_assoc]

/-- The snapshot that `savePersistentState` takes of a journal. -/
def snapshotOf (n : Node α) (file : File) : SnapshotFile α :=
  ⟨n.memory.executed, file.id.text, file.content.length⟩

/-- The new snapshot covers the whole journal. -/
theorem Sound.save {n : Node α} {file : File} (h : Sound decode vol n.disk)
    (hwal : n.disk.wal = some file)
    (hexecuted : n.memory.executed = n.disk.appended.map (entry decode)) :
    Sound decode vol {n.disk with snapshot := some (snapshotOf n file)} := by
  obtain ⟨old, early, since, hcovers⟩ := h.covers file hwal
  refine ⟨fun hnone => ?_, h.fits, ?_⟩
  · rw [show n.disk.wal = none from hnone] at hwal
    cases hwal
  · intro file' hwal'
    rw [show n.disk.wal = some file' from hwal'] at hwal
    cases hwal
    refine ⟨n.disk.appended, early ++ since, [], (List.append_nil _).symm, ?_, nofun,
      ?_, ?_, ?_⟩
    · rw [List.append_nil]
      exact hcovers.content
    · rintro _ ⟨⟩
      exact hexecuted
    · rintro _ ⟨⟩ _
      show (file.content.length : Int) = _
      rw [hcovers.content]
    · rintro _ ⟨⟩ hne
      exact absurd rfl hne

/-- A journal may be emptied when the snapshot has everything, under a name the
snapshot does not have. -/
theorem Sound.clear {disk : Disk α} {snapshot : SnapshotFile α} (hsnapshot : disk.snapshot = some snapshot)
    (hreflected : snapshot.reflected = disk.appended.map (entry decode)) {newId : FileId}
    (hnew : snapshot.walID ≠ newId.text) :
    Sound decode vol {disk with wal := some ⟨newId, []⟩} := by
  refine ⟨nofun, ?_, ?_⟩
  · rintro _ ⟨⟩
    exact Nat.zero_le _
  · rintro _ ⟨⟩
    refine ⟨disk.appended, [], [], (List.append_nil _).symm, rfl, fun hnone => ?_, ?_, ?_, ?_⟩
    · rw [show disk.snapshot = none from hnone] at hsnapshot
      cases hsnapshot
    · intro other hother
      rw [show disk.snapshot = some other from hother] at hsnapshot
      cases hsnapshot
      exact hreflected
    · intro other hother hid
      rw [show disk.snapshot = some other from hother] at hsnapshot
      cases hsnapshot
      exact absurd hid hnew
    · exact fun _ _ _ => rfl

/-! ### What the programs leave behind -/

section Programs
variable {n : Node α} {β : Type} {Q : β → Node α → Prop} {E C : Node α → Prop}

theorem ends_onWal {f : Node α → File → Except Error (β × Node α)} (hcrash : C n) (hfail : E n)
    (hdone : ∀ file, n.disk.wal = some file → ∀ b t, f n file = .ok (b, t) → Q b t) :
    Ends (onWal f) n Q E C := by
  refine ends_bind (ends_get ?_)
  cases n.memory.walOpen with
  | false => exact ends_fail hfail
  | true =>
    refine ends_call hcrash hfail fun b t hf => ?_
    cases hwal : n.disk.wal with
    | none =>
      rw [hwal] at hf
      cases hf
    | some file =>
      rw [hwal] at hf
      exact hdone file hwal b t hf

theorem ends_wrapping {context : String} {p : Calls α β} (h : Ends p n Q E C) :
    Ends (wrapping context p) n Q E C :=
  ends_handle (ends_mono h (fun _ _ hQ => hQ) (fun _ hE _ => ends_fail hE) fun _ hC => hC)

/-- Calls that change nothing, in whatever order. -/
theorem ends_close_remove (hE : E n) (hC : C n) :
    Ends (do let _ ← attempt close; remove : Calls α Unit) n (fun _ => E) E C :=
  ends_bind (ends_attempt (ends_idle hC (fun _ => ends_idle hC hE hE) (ends_idle hC hE hE)))

end Programs

variable {n : Node α}

/-- The snapshot is the old one or the new one. -/
theorem ends_saveWithWAL (snapshot : SnapshotFile α) {I : Node α → Prop} (hbefore : I n)
    (hafter : I {n with disk := {n.disk with snapshot := some snapshot}}) :
    Ends (saveWithWAL snapshot) n
      (fun _ t => t = {n with disk := {n.disk with snapshot := some snapshot}}) I I := by
  refine ends_bind (ends_idle hbefore hbefore ?_)
  refine ends_bind (ends_cleanup (ends_bind (ends_idle hbefore (ends_close_remove hbefore hbefore) ?_)))
  refine ends_idle hbefore (ends_close_remove hbefore hbefore) ?_
  refine ends_bind (ends_cleanup (ends_idle hbefore (ends_idle hbefore hbefore hbefore) ?_))
  refine ends_bind (ends_cleanup (ends_call hbefore (ends_idle hbefore hbefore hbefore) ?_))
  rintro _ _ ⟨⟩
  refine ends_bind (ends_idle hafter hafter (ends_bind (ends_idle hafter hafter ?_)))
  exact ends_idle hafter hafter rfl

/-- The journal is the old one or a new one, and may be closed in the end. -/
theorem ends_clear (newId : FileId) {I : Node α → Prop} (hbefore : I n)
    (hafter : ∀ walOpen, I {n with
      disk := {n.disk with wal := some ⟨newId, []⟩}, memory := {n.memory with walOpen := walOpen}}) :
    Ends (clear newId) n (fun _ => I) I I := by
  refine ends_bind (ends_get ?_)
  cases hopen : n.memory.walOpen with
  | false => exact ends_fail hbefore
  | true =>
    have hrenamed : I {n with disk := {n.disk with wal := some ⟨newId, []⟩}} := by
      have h := hafter n.memory.walOpen
      exact h
    refine ends_bind (ends_idle hbefore hbefore ?_)
    refine ends_bind (ends_cleanup (ends_idle hbefore (ends_close_remove hbefore hbefore) ?_))
    refine ends_bind (ends_cleanup (ends_idle hbefore (ends_idle hbefore hbefore hbefore) ?_))
    refine ends_bind (ends_cleanup (ends_call hbefore (ends_idle hbefore hbefore hbefore) ?_))
    rintro _ _ ⟨⟩
    refine ends_bind (ends_handle (ends_idle hrenamed (fun err => ?_) ?_))
    · refine ends_bind (ends_attempt_idle hrenamed fun _ => ?_)
      exact ends_bind (ends_update (ends_fail (hafter false)))
    · refine ends_bind (ends_attempt_idle hrenamed fun closeErr => ?_)
      refine ends_bind (ends_attempt_idle hrenamed fun dirErr => ?_)
      rcases closeErr with _ | err
      · rcases dirErr with _ | err
        · exact ends_pure hrenamed
        · exact ends_fail hrenamed
      · exact ends_fail hrenamed

/-- Saving may stop anywhere: the two files fit together, and the process goes on. -/
theorem ends_savePersistentState (h : Upright decode vol n) (hrunning : n.memory.persistenceErr = none)
    {newId : FileId} (hnew : n.disk.wal.map File.id ≠ some newId) :
    Ends (savePersistentState newId) n (fun _ => Upright decode vol) (Upright decode vol)
      (Upright decode vol) := by
  have hexecuted := h.executed hrunning
  refine ends_bind (ends_get (ends_bind (ends_wrapping (ends_onWal h h ?_))))
  rintro file hwal _ _ ⟨⟩
  refine ends_bind (ends_wrapping (ends_onWal h h ?_))
  intro file' hwal' _ _ hsize
  rw [hwal] at hwal'
  cases hwal'
  cases hsize
  have hsaved : Upright decode vol
      {n with disk := {n.disk with snapshot := some (snapshotOf n file)}} :=
    ⟨h.sound.save hwal hexecuted, h.executed⟩
  refine ends_bind (ends_wrapping (ends_mono (ends_saveWithWAL (snapshotOf n file) h hsaved)
    ?_ (fun _ ht => ht) fun _ ht => ht))
  rintro _ _ rfl
  refine ends_wrapping (ends_clear newId hsaved fun walOpen => ⟨?_, h.executed⟩)
  refine @Sound.clear α decode vol {n.disk with snapshot := some (snapshotOf n file)} _ rfl hexecuted
    newId fun htext => hnew ?_
  rw [hwal, ← FileId.text_inj htext]
  rfl

theorem ends_shutdownSave (h : Upright decode vol n) {newId : FileId}
    (hnew : n.disk.wal.map File.id ≠ some newId) :
    Ends (shutdownSave newId) n (fun _ => Upright decode vol) (Upright decode vol)
      (Upright decode vol) := by
  refine ends_bind (ends_get ?_)
  by_cases hrunning : n.memory.persistenceErr = none
  · rw [if_pos hrunning]
    refine ends_bind (ends_attempt ?_)
    exact ends_mono (ends_savePersistentState h hrunning hnew) (fun _ _ ht => ends_pure ht)
      (fun _ ht _ => ends_pure ht) fun _ ht => ht
  · rw [if_neg hrunning]
    exact ends_pure h

/-- The record is in the journal, or not; the process is told if it is not for sure. -/
theorem ends_writeEntry (h : Sound decode vol n.disk) (cmd : Command) :
    Ends (writeEntry vol cmd) n
      (fun _ t => Sound decode vol t.disk ∧ t.memory = n.memory ∧
        t.disk.appended = n.disk.appended ++ [cmd])
      (fun t => Sound decode vol t.disk ∧ t.memory = n.memory) (fun t => Sound decode vol t.disk) := by
  refine ends_bind (ends_onWal h ⟨h, rfl⟩ ?_)
  intro file hwal _ t hwrite
  by_cases hfits : (Wal.writeEntry file.content cmd).length ≤ vol.capacity
  · rw [if_pos hfits] at hwrite
    cases hwrite
    have happended := h.append hwal hfits
    exact ends_idle happended ⟨happended, rfl⟩ ⟨happended, rfl, rfl⟩
  · rw [if_neg hfits] at hwrite
    cases hwrite

theorem ends_journal (h : Upright decode vol n) (cmd : Command) :
    Ends (journal decode vol cmd) n (fun _ => Upright decode vol) (Upright decode vol)
      (fun t => Sound decode vol t.disk) := by
  refine ends_bind (ends_get ?_)
  by_cases hrunning : n.memory.persistenceErr = none
  · rw [if_pos hrunning]
    refine ends_bind (ends_attempt (ends_mono (ends_writeEntry h.sound cmd) ?_ ?_ fun _ ht => ht))
    · rintro _ t ⟨hsound, hmemory, happended⟩
      refine ends_update ⟨hsound, fun _ => ?_⟩
      show t.memory.executed ++ [decode cmd.text] = t.disk.appended.map (entry decode)
      rw [hmemory, happended, List.map_append, h.executed hrunning]
      rfl
    · rintro t ⟨hsound, _⟩ err
      exact ends_update ⟨hsound, nofun⟩
  · rw [if_neg hrunning]
    exact ends_pure h

/-! ### What startup finds -/

theorem Sound.whole {disk : Disk α} {file : File} (h : Sound decode vol disk)
    (hwal : disk.wal = some file) (hnone : disk.snapshot = none) :
    Wal.readEntries decode file.content = some (disk.appended.map (entry decode)) := by
  obtain ⟨old, early, since, hcovers⟩ := h.covers file hwal
  obtain ⟨rfl, rfl⟩ := hcovers.unsaved hnone
  rw [hcovers.content, hcovers.appended]
  exact Wal.readEntries_records decode since

/-- The records that the snapshot does not reflect, and only these. -/
theorem Sound.suffix {disk : Disk α} {file : File} {snapshot : SnapshotFile α}
    (h : Sound decode vol disk) (hwal : disk.wal = some file)
    (hsnapshot : disk.snapshot = some snapshot) :
    ∃ entries, Wal.readEntriesFrom decode file.content (snapshot.decoded.replayFrom file.id.text) =
        some entries ∧ snapshot.reflected ++ entries = disk.appended.map (entry decode) := by
  obtain ⟨old, early, since, hcovers⟩ := h.covers file hwal
  refine ⟨since.map (entry decode), ?_, ?_⟩
  · have hoffset : snapshot.decoded.replayFrom file.id.text = (early.flatMap Wal.line).length := by
      by_cases hid : snapshot.walID = file.id.text
      · -- the offset lies within the file, so it is an exact float64
        have hstored := hcovers.offset snapshot hsnapshot hid
        have hlength : (early.flatMap Wal.line).length ≤ file.content.length := by
          rw [hcovers.content, List.flatMap_append, List.length_append]
          exact Nat.le_add_right _ _
        have hfits := h.fits file hwal
        have hsmall := vol.capacity_lt
        have hexact : Float64.through snapshot.walOffset = snapshot.walOffset :=
          Float64.exact_small (by omega) (by omega)
        have hnonempty : snapshot.walID ≠ "" := by
          rw [hid]
          exact file.id.text_ne_empty
        rw [SnapshotFile.replayFrom, if_pos ⟨hnonempty, hid⟩]
        exact hexact.trans hstored
      · rw [SnapshotFile.replayFrom, if_neg fun h => hid h.2, hcovers.replaced snapshot hsnapshot hid]
        rfl
    rw [hoffset, hcovers.content]
    exact Wal.readEntriesFrom_records decode early since
  · rw [hcovers.reflected snapshot hsnapshot, hcovers.appended, List.map_append]

/-- What startup has after it has read the files. -/
structure Recovered (decode : Bytes → α) (vol : Volume) (cmds : List Command)
    (found : List α × List α) (t : Node α) : Prop where
  sound : Sound decode vol t.disk
  appended : t.disk.appended = cmds
  running : t.memory.persistenceErr = none
  exact : found.1 ++ found.2 = cmds.map (entry decode)

theorem ends_newWAL {Q : Unit → Node α → Prop} {E C : Node α → Prop} {newId : FileId} (hcrash : C n)
    (hfail : E n)
    (hopened : ∀ t, t = {n with
      disk := {n.disk with wal := some (n.disk.wal.getD ⟨newId, []⟩)}
      memory := {n.memory with walOpen := true}} → Q () t ∧ E t ∧ C t) :
    Ends (newWAL newId) n Q E C := by
  refine ends_bind (ends_call hcrash hfail ?_)
  rintro _ _ ⟨⟩
  obtain ⟨hQ, hE, hC⟩ := hopened _ rfl
  exact ends_cleanup (ends_idle hC (ends_idle hC hE hE) hQ)

theorem ends_newSnapshot {Q : Option (SnapshotFile α) → Node α → Prop} {E C : Node α → Prop}
    (hcrash : C n) (hfail : E n) (h : Q (n.disk.snapshot.map SnapshotFile.decoded) n) :
    Ends newSnapshot n Q E C := by
  have hclose : Ends close n (fun _ => E) E C := ends_idle hcrash hfail hfail
  refine ends_bind (ends_idle hcrash hfail ?_)
  refine ends_bind (ends_cleanup (ends_idle hcrash hclose ?_))
  refine ends_cleanup (ends_bind (ends_idle hcrash hclose (ends_bind (ends_get ?_))))
  cases hsnapshot : n.disk.snapshot with
  | none =>
    rw [hsnapshot] at h
    exact ends_pure h
  | some snapshot =>
    rw [hsnapshot] at h
    exact ends_bind (ends_idle hcrash hclose (ends_pure h))

theorem ends_readPersistentState (h : Sound decode vol n.disk)
    (hrunning : n.memory.persistenceErr = none) :
    Ends (readPersistentState decode (n.disk.snapshot.map SnapshotFile.decoded)) n
      (Recovered decode vol n.disk.appended) (fun t => Sound decode vol t.disk)
      (fun t => Sound decode vol t.disk) := by
  cases hsnapshot : n.disk.snapshot with
  | none =>
    refine ends_bind (ends_wrapping (ends_onWal h h ?_))
    intro file hwal _ _ hread
    rw [h.whole hwal hsnapshot] at hread
    cases hread
    exact ends_pure ⟨h, rfl, hrunning, rfl⟩
  | some snapshot =>
    refine ends_bind (ends_wrapping (ends_onWal h h ?_))
    rintro file hwal _ _ ⟨⟩
    obtain ⟨entries, hentries, hexact⟩ := h.suffix hwal hsnapshot
    refine ends_bind (ends_wrapping (ends_onWal h h ?_))
    intro file' hwal' _ _ hread
    rw [hwal] at hwal'
    cases hwal'
    rw [hentries] at hread
    cases hread
    exact ends_pure ⟨h, rfl, hrunning, hexact⟩

theorem ends_recovery {disk : Disk α} (h : Sound decode vol disk) (newId : FileId) :
    Ends (recovery decode newId) ⟨disk, Memory.fresh⟩ (Recovered decode vol disk.appended)
      (fun t => Sound decode vol t.disk) (fun t => Sound decode vol t.disk) := by
  refine ends_bind (ends_newWAL h h ?_)
  rintro t rfl
  have hopened := h.create newId
  refine ⟨ends_bind (ends_newSnapshot hopened hopened ?_), hopened, hopened⟩
  exact ends_readPersistentState hopened rfl

theorem ends_replayEntries (replayErr : α → Option Error) (entries : List α)
    (h : Sound decode vol n.disk)
    (hexact : n.memory.executed ++ entries = n.disk.appended.map (entry decode)) :
    Ends (replayEntries replayErr entries) n (fun _ => Upright decode vol)
      (fun t => Sound decode vol t.disk) (fun t => Sound decode vol t.disk) := by
  induction entries generalizing n with
  | nil =>
    rw [List.append_nil] at hexact
    exact ends_pure ⟨h, fun _ => hexact⟩
  | cons first rest ih =>
    unfold replayEntries
    cases replayErr first with
    | some err => exact ends_fail h
    | none =>
      refine ends_bind (ends_update (ih h ?_))
      show n.memory.executed ++ [first] ++ rest = _
      rw [List.append_assoc]
      exact hexact

theorem ends_start {disk : Disk α} (h : Sound decode vol disk) (replayErr : α → Option Error)
    (newId : FileId) :
    Ends (start decode replayErr newId) ⟨disk, Memory.fresh⟩ (fun _ => Upright decode vol)
      (fun t => Sound decode vol t.disk) (fun t => Sound decode vol t.disk) := by
  refine ends_bind (ends_mono (ends_recovery h newId) ?_ (fun _ ht => ht) fun _ ht => ht)
  rintro ⟨reflected, entries⟩ t hfound
  refine ends_bind (ends_update (ends_replayEntries replayErr entries hfound.sound ?_))
  show reflected ++ entries = t.disk.appended.map (entry decode)
  rw [hfound.appended]
  exact hfound.exact

/-! ### Whole histories -/

structure Whole (decode : Bytes → α) (vol : Volume) (s : System α) : Prop where
  sound : Sound decode vol s.disk
  upright : ∀ memory, s.memory = some memory → Upright decode vol ⟨s.disk, memory⟩

theorem whole_booted {result : Outcome Error Unit × Node α × List (Fate Error)}
    (h : Meets (fun _ => Upright decode vol) (fun t => Sound decode vol t.disk)
      (fun t => Sound decode vol t.disk) result) : Whole decode vol (booted result) := by
  rcases result with ⟨_ | _ | _, t, rest⟩
  · refine ⟨h.sound, ?_⟩
    rintro _ ⟨⟩
    exact h
  · exact ⟨h, nofun⟩
  · exact ⟨h, nofun⟩

theorem whole_served {result : Outcome Error Unit × Node α × List (Fate Error)}
    (h : Meets (fun _ => Upright decode vol) (Upright decode vol)
      (fun t => Sound decode vol t.disk) result) : Whole decode vol (served result) := by
  rcases result with ⟨_ | _ | _, t, rest⟩
  · refine ⟨h.sound, ?_⟩
    rintro _ ⟨⟩
    exact h
  · refine ⟨h.sound, ?_⟩
    rintro _ ⟨⟩
    exact h
  · exact ⟨h, nofun⟩

theorem step_whole {replayErr : α → Option Error} (event : Event) (s t : System α)
    (h : Whole decode vol s) (hfresh : Fresh event s)
    (hstep : step decode replayErr vol event s = some t) : Whole decode vol t := by
  cases event with
  | start newId fates =>
    cases hstep
    exact whole_booted (ends_start h.sound replayErr newId fates)
  | journal cmd fates =>
    obtain ⟨memory, hmemory, rfl⟩ := Option.map_eq_some_iff.mp hstep
    exact whole_served (ends_journal (h.upright memory hmemory) cmd fates)
  | save newId fates =>
    obtain ⟨memory, hmemory, rfl⟩ := Option.map_eq_some_iff.mp hstep
    have hsave := ends_shutdownSave (h.upright memory hmemory) hfresh
    exact whole_served (ends_mono hsave (fun _ _ ht => ht) (fun _ ht => ht) (fun _ ht => ht.sound) fates)
  | crash =>
    cases hstep
    exact ⟨h.sound, nofun⟩

theorem succeeds_onWal {β : Type} {f : Node α → File → Except Error (β × Node α)} {file : File} {b : β}
    (hopen : n.memory.walOpen = true) (hwal : n.disk.wal = some file) (hf : f n file = .ok (b, n)) :
    Succeeds (onWal f) n b n := by
  refine succeeds_bind succeeds_get ?_
  rw [hopen]
  refine succeeds_call ?_
  rw [hwal]
  exact hf

theorem succeeds_newSnapshot (n : Node α) :
    Succeeds newSnapshot n (n.disk.snapshot.map SnapshotFile.decoded) n := by
  have hload : Succeeds loadFromFile n (n.disk.snapshot.map SnapshotFile.decoded) n := by
    refine succeeds_bind succeeds_idle (succeeds_bind succeeds_get ?_)
    cases n.disk.snapshot with
    | none => exact succeeds_pure
    | some snapshot => exact succeeds_bind succeeds_idle succeeds_pure
  exact succeeds_bind succeeds_idle
    (succeeds_bind (succeeds_handle succeeds_idle) (succeeds_handle hload))

theorem succeeds_readPersistentState {file : File} (h : Sound decode vol n.disk)
    (hopen : n.memory.walOpen = true) (hwal : n.disk.wal = some file) :
    ∃ found, Succeeds (readPersistentState decode (n.disk.snapshot.map SnapshotFile.decoded)) n found n := by
  cases hsnapshot : n.disk.snapshot with
  | none =>
    have hread : Succeeds (readEntries decode) n (n.disk.appended.map (entry decode)) n :=
      succeeds_onWal hopen hwal (by rw [h.whole hwal hsnapshot])
    exact ⟨_, succeeds_bind (succeeds_handle hread) succeeds_pure⟩
  | some snapshot =>
    obtain ⟨entries, hentries, _⟩ := h.suffix hwal hsnapshot
    have hid : Succeeds fileID n file.id.text n := succeeds_onWal hopen hwal rfl
    have hread : Succeeds (readEntriesFrom decode (snapshot.decoded.replayFrom file.id.text)) n entries n :=
      succeeds_onWal hopen hwal (by rw [hentries])
    exact ⟨_, succeeds_bind (succeeds_handle hid) (succeeds_bind (succeeds_handle hread) succeeds_pure)⟩

/-- Without a fault, startup reads both files. -/
theorem succeeds_recovery {disk : Disk α} (h : Sound decode vol disk) (newId : FileId) :
    ∃ found t, Succeeds (recovery decode newId) ⟨disk, Memory.fresh⟩ found t := by
  have hwal : Succeeds (newWAL newId) ⟨disk, Memory.fresh⟩ ()
      ⟨{disk with wal := some (disk.wal.getD ⟨newId, []⟩)}, {Memory.fresh with walOpen := true}⟩ :=
    succeeds_bind (succeeds_call rfl) (succeeds_handle succeeds_idle)
  obtain ⟨found, hread⟩ := @succeeds_readPersistentState α decode vol
    ⟨{disk with wal := some (disk.wal.getD ⟨newId, []⟩)}, {Memory.fresh with walOpen := true}⟩ _
    (h.create newId) rfl rfl
  exact ⟨found, _, succeeds_bind hwal (succeeds_bind (succeeds_newSnapshot _) hread)⟩

/-- **Every record is recovered once.** In every history of starts, appends, saves and
crashes, cut at any call, startup finds a snapshot and a rest of the journal that
together are all records ever appended, in their order; and it finds them unless one
of its own calls fails. -/
theorem records_recovered (decode : Bytes → α) (replayErr : α → Option Error) (vol : Volume)
    (events : List Event) (s : System α)
    (hfresh : Along (step decode replayErr vol) Fresh System.blank events)
    (hs : run (step decode replayErr vol) System.blank events = some s) (newId : FileId) :
    (∃ found t, Succeeds (recovery decode newId) ⟨s.disk, Memory.fresh⟩ found t) ∧
      ∀ fates reflected entries,
        (recovery decode newId fates ⟨s.disk, Memory.fresh⟩).1 = .done (reflected, entries) →
          reflected ++ entries = s.disk.appended.map fun cmd => decode cmd.text := by
  have hwhole : Whole decode vol s :=
    run_invariant step_whole events System.blank s ⟨Sound.blank, nofun⟩ hfresh hs
  refine ⟨succeeds_recovery hwhole.sound newId, fun fates reflected entries hdone => ?_⟩
  have hend := ends_recovery hwhole.sound newId fates
  rcases hr : recovery decode newId fates ⟨s.disk, Memory.fresh⟩ with ⟨outcome, t, rest⟩
  rw [hr] at hend hdone
  cases hdone
  exact hend.exact

/-- A put is journaled; the process is killed after the rename of the snapshot, comes
up again and journals a delete. -/
def killedInSave : List Event :=
  [.start ⟨1, 7⟩ [], .journal (Command.ofType .put) [],
    .save ⟨1, 8⟩ [.ok, .ok, .ok, .ok, .ok, .ok, .ok, .crash],
    .start ⟨1, 9⟩ [], .journal (Command.ofType .delete) []]

theorem records_recovered_killed :
    ∃ s, run (step id (fun _ => none) ⟨1000, by decide⟩) System.blank killedInSave = some s ∧
      s.disk.appended = [Command.ofType .put, Command.ofType .delete] ∧
      ∀ fates reflected entries,
        (recovery id ⟨1, 9⟩ fates ⟨s.disk, Memory.fresh⟩).1 = .done (reflected, entries) →
          reflected ++ entries = s.disk.appended.map fun cmd => cmd.text := by
  have happended : (run (step id (fun _ => none) ⟨1000, by decide⟩) System.blank killedInSave).map
      (fun s => s.disk.appended) = some [Command.ofType .put, Command.ofType .delete] := by
    decide +kernel
  obtain ⟨s, hs, hcmds⟩ := Option.map_eq_some_iff.mp happended
  exact ⟨s, hs, hcmds, (records_recovered id (fun _ => none) ⟨1000, by decide⟩ killedInSave s
    (by decide +kernel) hs ⟨1, 9⟩).2⟩

end Wjetcd.Checkpoint
