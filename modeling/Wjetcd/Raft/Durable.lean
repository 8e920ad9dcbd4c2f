import Wjetcd.Raft.Bounds

/-! What a node has on disk, and what a restart makes of it.

Every handler calls `persist` by hand. All but one call it after their last change. The
exception is `handleAppendEntriesRPC`, which persists a higher term and then changes the log:
its acknowledgement says that entries are held which are not on disk (`acknowledged_lost`).
`persisted_iff` says that nothing else keeps a node from having its state on disk
whenever a handler returns.

`Make` decodes what is on disk into a log that has just been made, with -1 for
`LastLogIndex`. Gob leaves out a zero, so a log that ends at index 0 comes back empty. It
also sets `LastApplied` to the snapshot's index, which is 0 when there is no snapshot:
entry 0 then counts as applied. `restored_iff` says when neither happens. -/
namespace Wjetcd.Durable
open Runs

variable {C : Type}

/-- What `persist` would write now. -/
def stateOf (rf : Raft C) : RaftState C :=
  ⟨rf.currentTerm, rf.votedFor, rf.log, rf.snapshotLastIncludeIndex, rf.snapshotLastIncludeTerm⟩

/-- What was written last; before the first time, what `Make` begins with. -/
def onDisk (persister : Persister C) : RaftState C :=
  persister.raftstate.getD ⟨0, Raft.noVote, Log.newLog, 0, 0⟩

def written (rf : Raft C) : RaftState C := onDisk rf.persister

def Persisted (rf : Raft C) : Prop := written rf = stateOf rf

instance [DecidableEq C] (rf : Raft C) : Decidable (Persisted rf) :=
  inferInstanceAs (Decidable (written rf = stateOf rf))

@[simp] theorem stateOf_persist (rf : Raft C) : stateOf rf.persist = stateOf rf := by simp [stateOf]

@[simp] theorem written_persist (rf : Raft C) : written rf.persist = stateOf rf := by
  unfold Raft.persist
  split <;> rfl

theorem persist_persisted (rf : Raft C) : Persisted rf.persist := by simp [Persisted]

/-- What an `Encode` puts on disk. -/
inductive Value (C : Type) where
  | int (i : Int)
  | log (log : Log C)
deriving Repr, DecidableEq

/-- The five calls of `Encode` in `persist`. A command is stored as an interface: gob has to be told
of its type, and `Encode` writes no log with a command of another type. The error is dropped. -/
def encode (registered : C → Bool) (data : RaftState C) : List (Value C) :=
  [.int data.currentTerm, .int data.votedFor] ++
    (if data.log.entries.all fun entry => registered entry.command then [.log data.log] else []) ++
    [.int data.snapshotLastIncludeIndex, .int data.snapshotLastIncludeTerm]

/-- The five values that are to be read back. -/
def values (data : RaftState C) : List (Value C) :=
  [.int data.currentTerm, .int data.votedFor, .log data.log, .int data.snapshotLastIncludeIndex,
    .int data.snapshotLastIncludeTerm]

/-- The values on disk are those in memory. -/
def Stored (registered : C → Bool) (rf : Raft C) : Prop :=
  encode registered (written rf) = values (stateOf rf)

instance [DecidableEq C] (registered : C → Bool) (rf : Raft C) : Decidable (Stored registered rf) :=
  inferInstanceAs (Decidable (encode registered (written rf) = values (stateOf rf)))

theorem stored_iff {registered : C → Bool} {rf : Raft C} :
    Stored registered rf ↔ Persisted rf ∧ ∀ entry ∈ rf.log.entries, registered entry.command = true := by
  unfold Stored encode
  by_cases hall : ((written rf).log.entries.all fun entry => registered entry.command) = true
  · rw [if_pos hall]
    rw [List.all_eq_true] at hall
    have hinj : values (written rf) = values (stateOf rf) ↔ written rf = stateOf rf := by
      refine ⟨fun heq => ?_, congrArg values⟩
      injection heq with hterm heq
      injection heq with hvote heq
      injection heq with hlog heq
      injection heq with hindex heq
      injection heq with hlast _
      injection hterm with hterm
      injection hvote with hvote
      injection hlog with hlog
      injection hindex with hindex
      injection hlast with hlast
      rw [RaftState.mk.injEq]
      exact ⟨hterm, hvote, hlog, hindex, hlast⟩
    refine hinj.trans ⟨fun heq => ⟨heq, ?_⟩, fun h => h.1⟩
    have hlog : (written rf).log = rf.log := congrArg RaftState.log heq
    rw [← hlog]
    exact hall
  · rw [if_neg hall]
    refine iff_of_false ?_ ?_
    · intro heq
      exact absurd (congrArg List.length heq) (by simp [values])
    · rintro ⟨heq, hregistered⟩
      rw [Persisted] at heq
      rw [heq, List.all_eq_true] at hall
      exact hall hregistered

/-! ### What the handlers write -/

/-- A handler that persists what it changes. -/
def Writes (rf rf' : Raft C) : Prop :=
  Persisted rf' ∨ (rf'.persister = rf.persister ∧ stateOf rf' = stateOf rf)

section Handlers
variable {rf rf' : Raft C}

theorem Writes.refl (rf : Raft C) : Writes rf rf := Or.inr ⟨rfl, rfl⟩

theorem Writes.persisted (h : Writes rf rf') (hp : Persisted rf) : Persisted rf' := by
  rcases h with hp' | ⟨hdisk, hstate⟩
  · exact hp'
  · rw [Persisted, written, hdisk, hstate]
    exact hp

theorem startElection_writes [Width] (rf : Raft C) : Writes rf rf.startElection.1 :=
  Or.inl (persist_persisted rf.becomeCandidate)

theorem electionReply_writes [Width] (rf : Raft C) (term : Int) (reply : RequestVoteReply) :
    Writes rf (rf.electionReply term reply).1 := by
  rcases rf.electionReply_cases term reply with h | ⟨_, h⟩ | ⟨_, h⟩ | ⟨_, h⟩
  · rw [h]
    exact Writes.refl rf
  · rw [h]
    exact Or.inl (persist_persisted _)
  · rw [h]
    exact Or.inr ⟨rfl, rfl⟩
  · rw [h]
    exact Or.inr ⟨rfl, rfl⟩

theorem requestVote_writes [Width] (rf : Raft C) (args : RequestVoteArgs) : Writes rf (rf.requestVote args).1 := by
  rcases rf.requestVote_cases args with ⟨_, h | h | h⟩ | ⟨_, _, h⟩
  · rw [h]
    exact Writes.refl rf
  · rw [h]
    exact Or.inl (persist_persisted rf)
  · rw [h, Raft.adopt]
    split
    · exact Or.inl (persist_persisted _)
    · exact Writes.refl rf
  · rw [h]
    exact Or.inl (persist_persisted _)

theorem stepDown_writes (rf : Raft C) (term : Int) : Writes rf (rf.stepDown term) :=
  Or.inl (persist_persisted _)

theorem heartbeatReply_writes (rf : Raft C) (reply : RequestAppendEntriesReply) :
    Writes rf (rf.heartbeatReply reply) := by
  rcases rf.heartbeatReply_cases reply with h | ⟨_, h⟩
  · rw [h]
    exact Writes.refl rf
  · rw [h]
    exact stepDown_writes rf _

theorem tryCommitL_writes [Width] {m : Int} (h : rf.tryCommitL m = some rf') : Writes rf rf' := by
  rcases Raft.tryCommitL_cases h with ⟨_, rfl⟩ | ⟨_, rfl⟩
  · exact Or.inr ⟨rfl, rfl⟩
  · exact Writes.refl _

theorem appendReply_writes [Width] {target : Nat} {args : RequestAppendEntriesArgs C}
    {reply : RequestAppendEntriesReply} (h : rf.appendReply target args reply = some rf') :
    Writes rf rf' := by
  rcases Raft.appendReply_cases h with rfl | ⟨_, rfl⟩ | ⟨_, tracker, _, ⟨next, rfl⟩ | ⟨_, _, hcommit⟩⟩
  · exact Writes.refl _
  · exact stepDown_writes rf _
  · exact Or.inr ⟨rfl, rfl⟩
  · -- the tracker is not part of what is written
    have hwrites : Writes (rf.acknowledged target args) rf' := tryCommitL_writes hcommit
    exact hwrites

theorem installSnapshotReply_writes [Width] {serverId : Nat} {args : RequestInstallSnapShotArgs}
    {reply : RequestInstallSnapShotReply} (h : rf.installSnapshotReply serverId args reply = some rf') :
    Writes rf rf' := by
  rcases Raft.installSnapshotReply_cases h with rfl | ⟨_, rfl⟩ | ⟨_, hcommit⟩
  · exact Writes.refl _
  · exact stepDown_writes rf _
  · have hwrites := tryCommitL_writes hcommit
    exact hwrites

theorem start_writes [Width] {command : C} {result : Raft C × Int × Int × Bool}
    (h : rf.start command = some result) : Writes rf result.1 := by
  rcases Raft.start_cases h with heq | ⟨_, log, _, heq⟩
  · rw [heq]
    exact Writes.refl rf
  · rw [heq]
    exact Or.inl (persist_persisted _)

theorem takeSnapshot_writes [Width] {index : Int} {snapshot : List UInt8}
    (h : rf.takeSnapshot index snapshot = some rf') : Writes rf rf' := by
  rcases Raft.takeSnapshot_cases h with rfl | ⟨_, _, term, log, _, _, rfl⟩
  · exact Writes.refl _
  · exact Or.inl (persist_persisted _)

theorem requestInstallSnapshot_writes [Width] (rf : Raft C) (args : RequestInstallSnapShotArgs) :
    Writes rf (rf.requestInstallSnapshot args).1 := by
  rcases rf.requestInstallSnapshot_cases args with h | ⟨_, h | ⟨_, h⟩⟩
  · rw [h]
    exact Writes.refl rf
  · rw [h]
    exact Or.inl (persist_persisted _)
  · rw [h]
    exact Or.inl (persist_persisted _)

theorem applyNext_writes [Width] (h : rf.applyNext = some rf') : Writes rf rf' := by
  obtain ⟨_, entry, helper, _, _, rfl⟩ := Raft.applyNext_cases h
  exact Or.inr ⟨rfl, rfl⟩

theorem observeLeader_writes (rf : Raft C) (term : Int) : Writes rf (rf.observeLeader term) := by
  unfold Raft.observeLeader
  dsimp only
  split
  · exact Or.inl (persist_persisted _)
  · exact Or.inr ⟨rfl, rfl⟩

theorem followCommit_state (rf : Raft C) (leaderCommit : Int) :
    (rf.followCommit leaderCommit).persister = rf.persister ∧
      stateOf (rf.followCommit leaderCommit) = stateOf rf := by
  unfold Raft.followCommit
  split <;> exact ⟨rfl, rfl⟩

/-- A message with entries: the term is persisted, and then the log is changed. -/
theorem handleAppendEntriesRPC_writes [Width] (rf : Raft C) (args : RequestAppendEntriesArgs C) :
    ∃ mid, Writes rf mid ∧ mid.feed = rf.feed ∧
      (rf.handleAppendEntriesRPC args).1.persister = mid.persister ∧
      stateOf (rf.handleAppendEntriesRPC args).1 =
        {stateOf mid with log := (rf.handleAppendEntriesRPC args).1.log} := by
  have hobserve := observeLeader_writes rf args.leaderTerm
  have hfeed := (rf.observeLeader_quiet args.leaderTerm).feed
  rcases rf.handleAppendEntriesRPC_cases args with ⟨_, h | h⟩ | ⟨_, h | h⟩
  · rw [h]
    exact ⟨rf, Writes.refl rf, rfl, rfl, rfl⟩
  · rw [h]
    exact ⟨rf.observeLeader args.leaderTerm, hobserve, hfeed, rfl, rfl⟩
  · rw [h]
    exact ⟨rf.observeLeader args.leaderTerm, hobserve, hfeed, rfl, rfl⟩
  · obtain ⟨hdisk, hstate⟩ := followCommit_state (rf.withEntries args) args.leaderCommit
    rw [h]
    refine ⟨rf.observeLeader args.leaderTerm, hobserve, hfeed, hdisk, ?_⟩
    have hlog : ((rf.withEntries args).followCommit args.leaderCommit).log = (rf.withEntries args).log :=
      congrArg RaftState.log hstate
    dsimp only
    rw [hstate, hlog]
    rfl

end Handlers

/-- Any call but that of `handleAppendEntriesRPC`. -/
theorem handles_writes [Width] : Leadership.Handles fun action (rf rf' : Raft C) => Writes rf rf' ∨
    ∃ args, action = .handleAppendEntriesRPC args ∧ rf' = (rf.handleAppendEntriesRPC args).1 where
  startElection := fun rf => Or.inl (startElection_writes rf)
  electionReply := fun rf term reply => Or.inl (electionReply_writes rf term reply)
  requestVote := fun rf args => Or.inl (requestVote_writes rf args)
  handleAppendEntriesRPC := fun _ args => Or.inr ⟨args, rfl, rfl⟩
  requestInstallSnapshot := fun rf args => Or.inl (requestInstallSnapshot_writes rf args)
  heartbeatReply := fun rf reply => Or.inl (heartbeatReply_writes rf reply)
  appendReply := fun h => Or.inl (appendReply_writes h)
  installSnapshotReply := fun h => Or.inl (installSnapshotReply_writes h)
  start := fun h => Or.inl (start_writes h)
  takeSnapshot := fun h => Or.inl (takeSnapshot_writes h)
  applyNext := fun _ h => Or.inl (applyNext_writes h)
  wait := fun rf => Or.inl (Writes.refl rf)
  kill := fun _ => Or.inl (Or.inr ⟨rfl, rfl⟩)

/-- Of a state on disk a message leaves everything on disk but the new log. -/
theorem handleAppendEntriesRPC_persisted [Width] {rf : Raft C} (h : Persisted rf)
    (args : RequestAppendEntriesArgs C) :
    Persisted (rf.handleAppendEntriesRPC args).1 ↔ (rf.handleAppendEntriesRPC args).1.log = rf.log := by
  obtain ⟨mid, hwrites, hfeed, hdisk, hstate⟩ := handleAppendEntriesRPC_writes rf args
  have hmid : written mid = stateOf mid := hwrites.persisted h
  have hlog : mid.log = rf.log := congrArg Raft.Feed.log hfeed
  rw [Persisted, written, hdisk, hstate, ← hlog]
  change written mid = _ ↔ _
  rw [hmid]
  constructor
  · intro heq
    exact (congrArg RaftState.log heq).symm
  · intro heq
    rw [heq]
    rfl

/-! ### A message that changes nothing -/

/-- An entry of a message that the log has, or that lies before it. -/
def Old [Width] (log : Log C) (i : Int) (entry : Entry C) : Prop :=
  i < log.firstLogIndex ∨
    ∃ held, i ≤ log.lastLogIndex ∧ log.getOneEntry i = some held ∧ held.term = entry.term

/-- Of the entries after `idx`, none is new. -/
def NothingNew [Width] (log : Log C) (idx : Int) (entries : List (Entry C)) : Prop :=
  ∀ (k : Nat) (entry : Entry C), entries[k]? = some entry → Old log (idx + 1 + k) entry

theorem nothingNew_cons {log : Log C} {idx : Int} {entry : Entry C} {rest : List (Entry C)} :
    NothingNew log idx (entry :: rest) ↔ Old log (idx + 1) entry ∧ NothingNew log (idx + 1) rest := by
  have hshift : ∀ k : Nat, idx + 1 + ((k + 1 : Nat) : Int) = idx + 1 + 1 + k := by
    intro k
    omega
  constructor
  · intro h
    refine ⟨by simpa using h 0 entry rfl, ?_⟩
    intro k e he
    rw [← hshift]
    exact h (k + 1) e he
  · rintro ⟨hfirst, hrest⟩ k e he
    cases k with
    | zero =>
      cases he
      simpa using hfirst
    | succ k =>
      rw [hshift]
      exact hrest k e he

theorem overwrite_old {log : Log C} {i : Int} {entry : Entry C} (h : Old log i entry) :
    log.overwrite i entry = some log := by
  unfold Log.overwrite
  rcases h with hbefore | ⟨held, hlast, hheld, hterm⟩
  · rw [if_pos hbefore]
  · rw [hheld, if_pos hlast]
    dsimp only
    rw [if_neg (not_not_intro hterm), ite_self]

/-- A new entry is to be seen at an index that no later entry reaches. -/
theorem overwrite_new {log : Log C} (h : log.Shaped) {i : Int} {entry : Entry C} (hnew : ¬Old log i entry) :
    ∃ log' b, log.overwrite i entry = some log' ∧ log'.Shaped ∧ b ≤ i ∧ b ≤ log'.lastLogIndex ∧
      (log.lastLogIndex < b ∨ log'.getOneEntry b ≠ log.getOneEntry b) := by
  rw [Old, not_or, Int.not_lt] at hnew
  obtain ⟨hfirst, hnone⟩ := hnew
  have hlength := h
  rw [Log.Shaped] at hlength
  by_cases hlast : i ≤ log.lastLogIndex
  · obtain ⟨held, hheld⟩ : ∃ held, log.getOneEntry i = some held := by
      rw [Log.getOneEntry_eq, if_neg (by omega)]
      exact ⟨_, List.getElem?_eq_getElem (by omega)⟩
    have hterm : held.term ≠ entry.term := fun heq => hnone ⟨held, hlast, hheld, heq⟩
    have hcut : log.overwrite i entry = some
        {log with entries := log.entries.take (i - log.firstLogIndex).toNat ++ [entry], lastLogIndex := i} := by
      unfold Log.overwrite Log.slice Log.getRealIndex
      simp only [Width.wrap_unbounded]
      rw [if_neg (by omega), if_pos hlast, hheld]
      dsimp only
      rw [if_pos hterm, if_pos (by omega), Option.map_some, Int.sub_add_cancel]
    have hshaped := (h.overwrite hcut (b := i - 1) (by omega) (by intros; omega)).1
    refine ⟨_, i, hcut, hshaped, le_rfl, le_rfl, Or.inr ?_⟩
    have hentry : ({log with
        entries := log.entries.take (i - log.firstLogIndex).toNat ++ [entry]
        lastLogIndex := i} : Log C).getOneEntry i = some entry := by
      rw [Log.getOneEntry_eq]
      dsimp only
      rw [if_neg (by omega), List.getElem?_append_right (by rw [List.length_take]; omega), List.length_take,
        Nat.min_eq_left (by omega), Nat.sub_self]
      rfl
    rw [hentry, hheld]
    intro heq
    exact hterm (congrArg Entry.term (Option.some.inj heq)).symm
  · have happend : log.overwrite i entry = some
        {log with entries := log.entries ++ [entry], lastLogIndex := log.lastLogIndex + 1} := by
      unfold Log.overwrite
      rw [if_neg (by omega), if_neg hlast, Width.wrap_unbounded]
    have hshaped := (h.overwrite happend (b := log.lastLogIndex) le_rfl (by intros; omega)).1
    exact ⟨_, log.lastLogIndex + 1, happend, hshaped, by omega, le_rfl, Or.inl (by omega)⟩

/-- The loop leaves the log as it is exactly if nothing is new: what one turn changes no later one
changes back. -/
theorem overwriteFrom_unchanged (entries : List (Entry C)) : ∀ {log : Log C} {idx : Int}, log.Shaped →
    ((log.overwriteFrom idx entries).1 = log ↔ NothingNew log idx entries) := by
  induction entries with
  | nil =>
    intro log idx _
    simp [Log.overwriteFrom, NothingNew]
  | cons entry rest ih =>
    intro log idx h
    rw [nothingNew_cons, Log.overwriteFrom, Width.wrap_unbounded]
    by_cases hold : Old log (idx + 1) entry
    · rw [overwrite_old hold]
      dsimp only
      rw [ih h]
      exact (and_iff_right hold).symm
    · obtain ⟨log', b, hlog', hshaped, hb, hlast, hchange⟩ := overwrite_new h hold
      obtain ⟨_, hbound, hkept⟩ := Log.Shaped.overwriteFrom rest log' (idx + 1) b hshaped hlast (by
        rintro j ⟨k, _, _, _, hj, _⟩
        omega)
      rw [hlog']
      refine ⟨fun heq => ?_, fun hnew => absurd hnew.1 hold⟩
      dsimp only at heq
      rw [heq] at hbound hkept
      rcases hchange with hlt | hne
      · omega
      · exact absurd (hkept b le_rfl).symm hne

/-! ### Runs -/

section Word
open scoped Word64

/-- The state is on disk when the call returns. -/
def Returns (registered : C → Bool) (action : Leadership.Action C) (s : Leadership.Tenure C) : Prop :=
  ∀ t, Leadership.step action s = some t → Stored registered t.node

/-- What keeps it there: a leader is given commands that gob knows the type of, and a message that is
accepted has nothing new. -/
def Keeps (registered : C → Bool) (action : Leadership.Action C) (s : Leadership.Tenure C) : Prop :=
  match action with
  | .start command => s.node.state = .leader → registered command = true
  | .handleAppendEntriesRPC args =>
    s.node.Accepts args → NothingNew s.node.log args.prevLogIndex args.entries
  | _ => True

/-- A node with its state on disk, and with a log whose fields agree and are in range. -/
structure Settled (registered : C → Bool) (rf : Raft C) : Prop where
  stored : Stored registered rf
  shaped : rf.log.Shaped
  sized : rf.feed.Sized

/-- In range, what is new does not depend on the width. -/
theorem nothingNew_unbounded {log : Log C} (h : log.Sized) (idx : Int) (entries : List (Entry C)) :
    NothingNew log idx entries ↔ @NothingNew C Width.unbounded log idx entries := by
  have hfirst := h.first
  have hlast := h.last
  have hold : ∀ (i : Int) (entry : Entry C), Old log i entry ↔ @Old C Width.unbounded log i entry := by
    intro i entry
    unfold Old
    by_cases hbefore : i < log.firstLogIndex
    · exact iff_of_true (Or.inl hbefore) (Or.inl hbefore)
    by_cases hwithin : i ≤ log.lastLogIndex
    · rw [h.getOneEntry_unbounded (by omega) (by omega)]
    · simp only [hbefore, hwithin, false_and, exists_false, or_self]
  exact forall_congr' fun k => forall_congr' fun entry => imp_congr_right fun _ => hold _ _

section Calls
variable {registered : C → Bool} {s t : Leadership.Tenure C}

theorem start_returns (h : Settled registered s.node) {command : C}
    (hroom : s.node.log.lastLogIndex + 1 < 2 ^ 63 - 1) :
    Returns registered (.start command) s ↔ Keeps registered (.start command) s := by
  obtain ⟨hpersisted, hregistered⟩ := stored_iff.mp h.stored
  have hlog : s.node.log.Sized := h.sized.log
  by_cases hlead : s.node.state = .leader
  · obtain ⟨result, hstart, hentries⟩ : ∃ result, s.node.start command = some result ∧
        result.1.log.entries = s.node.log.entries ++ [⟨s.node.currentTerm, command⟩] := by
      rw [Raft.start_unbounded hlog (by omega)]
      unfold Raft.start
      rw [if_neg (not_not_intro hlead), h.shaped.appendL_eq]
      exact ⟨_, rfl, by rw [Raft.persist_log]⟩
    have hstep : Leadership.step (.start command) s = some {s with node := result.1} := by
      rw [Leadership.step, hstart]
      rfl
    have hdisk : Persisted result.1 := (start_writes hstart).persisted hpersisted
    constructor
    · intro hreturns _
      refine (stored_iff.mp (hreturns _ hstep)).2 ⟨s.node.currentTerm, command⟩ ?_
      show _ ∈ result.1.log.entries
      rw [hentries]
      exact List.mem_append_right _ List.mem_cons_self
    · intro hkeeps u hu
      rw [hstep] at hu
      cases hu
      refine stored_iff.mpr ⟨hdisk, ?_⟩
      intro entry hentry
      change entry ∈ result.1.log.entries at hentry
      rw [hentries, List.mem_append, List.mem_singleton] at hentry
      rcases hentry with hentry | rfl
      · exact hregistered entry hentry
      · exact hkeeps hlead
  · refine iff_of_true ?_ fun hyes => absurd hyes hlead
    intro u hu
    rw [Leadership.step, Raft.start, if_pos hlead] at hu
    cases hu
    exact h.stored

/-- Of a state on disk a message leaves everything on disk but the new log. -/
theorem append_returns (h : Settled registered s.node) {args : RequestAppendEntriesArgs C}
    (hb : Raft.InBounds (.handleAppendEntriesRPC args) s.node) :
    Returns registered (.handleAppendEntriesRPC args) s ↔ Keeps registered (.handleAppendEntriesRPC args) s := by
  obtain ⟨hpersisted, hregistered⟩ := stored_iff.mp h.stored
  have hlog : s.node.log.Sized := h.sized.log
  have hdisk := handleAppendEntriesRPC_persisted hpersisted args
  have hnew : Keeps registered (.handleAppendEntriesRPC args) s ↔
      (s.node.handleAppendEntriesRPC args).1.log = s.node.log := by
    have hloop : (@Log.overwriteFrom C Width.unbounded s.node.log args.prevLogIndex args.entries).1 =
        s.node.log ↔ _ := overwriteFrom_unchanged args.entries h.shaped
    rw [← hlog.overwriteFrom_unbounded args.entries hb.1 hb.2, ← nothingNew_unbounded hlog] at hloop
    by_cases haccepts : s.node.Accepts args
    · rw [Raft.Accepts.log haccepts, hloop]
      exact ⟨fun hkeeps => hkeeps haccepts, fun hnothing _ => hnothing⟩
    · exact iff_of_true (fun hyes => absurd hyes haccepts) (Raft.refused_log haccepts)
  rw [hnew]
  constructor
  · intro hreturns
    exact hdisk.mp (stored_iff.mp (hreturns _ rfl)).1
  · intro hsame u hu
    cases hu
    refine stored_iff.mpr ⟨hdisk.mpr hsame, ?_⟩
    intro entry hentry
    exact hregistered entry (hsame ▸ hentry)

/-- The other calls put nothing into the log. -/
theorem effect_entries {rf : Raft C} {action : Leadership.Action C} {f : Raft.Feed C}
    (hstart : ∀ command, action ≠ .start command) (happend : ∀ args, action ≠ .handleAppendEntriesRPC args)
    (he : @Raft.Effect C Width.unbounded rf action f) : f.log.entries ⊆ rf.log.entries := by
  have hcompact : ∀ {index log}, @Raft.compactTo C Width.unbounded rf index = some log →
      log.entries ⊆ rf.log.entries := by
    intro index log hc
    rcases Raft.compactTo_cases hc with ⟨_, rfl⟩ | ⟨_, _, _, rfl⟩
    · exact List.nil_subset _
    · exact List.drop_subset _ _
  cases he with
  | idle => exact List.Subset.refl _
  | append _ => exact absurd rfl (hstart _)
  | overwrite args _ => exact absurd rfl (happend args)
  | apply _ _ _ => exact List.Subset.refl _
  | compact _ _ hc => exact hcompact (Raft.trimTo_eq rf _ ▸ hc)
  | install _ _ hc => exact hcompact hc
  | deliver _ _ hc _ => exact hcompact hc
  | torn _ _ => exact List.Subset.refl _

theorem other_returns (h : Settled registered s.node) {action : Leadership.Action C}
    (hstart : ∀ command, action ≠ .start command) (happend : ∀ args, action ≠ .handleAppendEntriesRPC args)
    (hb : Leadership.Bounded action s) : Returns registered action s := by
  obtain ⟨hpersisted, hregistered⟩ := stored_iff.mp h.stored
  intro t hs
  have hentries := effect_entries hstart happend (Raft.step_unbounded h.sized hb hs).1
  refine stored_iff.mpr ⟨?_, fun entry hentry => hregistered entry (hentries hentry)⟩
  rcases handles_writes.step hs with hwrites | ⟨args, rfl, _⟩
  · exact hwrites.persisted hpersisted
  · exact absurd rfl (happend args)

theorem returns_iff (action : Leadership.Action C) (s : Leadership.Tenure C) (h : Settled registered s.node)
    (hb : Leadership.Bounded action s) : Returns registered action s ↔ Keeps registered action s := by
  cases action with
  | start command => exact start_returns h hb
  | handleAppendEntriesRPC args => exact append_returns h hb
  | _ => exact iff_of_true (other_returns h nofun nofun hb) trivial

theorem step_settled (action : Leadership.Action C) (s t : Leadership.Tenure C) (h : Settled registered s.node)
    (hb : Leadership.Bounded action s) (hreturns : Returns registered action s)
    (hs : Leadership.step action s = some t) : Settled registered t.node := by
  obtain ⟨heffect, hsized⟩ := Raft.step_unbounded h.sized hb hs
  exact ⟨hreturns t hs, heffect.shaped h.shaped, hsized⟩

end Calls

/-- **The state is on disk whenever a handler returns, exactly if a leader is only given commands
whose type gob knows and no message that is accepted has an entry that the log does not have**:
for every run, from a state that is on disk, in which the indices are below the largest `int`. -/
theorem persisted_iff (registered : C → Bool) (peers : List String) (me : Int) (persister : Persister C)
    (actions : List (Leadership.Action C)) (hboot : Settled registered (Raft.make peers me persister))
    (hb : Along Leadership.step Leadership.Bounded (Leadership.boot peers me persister) actions) :
    Along Leadership.step (Returns registered) (Leadership.boot peers me persister) actions ↔
      Along Leadership.step (Keeps registered) (Leadership.boot peers me persister) actions :=
  along_congr (P := fun s => Settled registered s.node) returns_iff step_settled actions _ hboot hb

theorem make_settled (registered : C → Bool) (peers : List String) (me : Int) :
    Settled registered (Raft.make peers me (makePersister : Persister C)) :=
  ⟨rfl, Log.newLog_shaped, Raft.make_sized peers me⟩

/-- A fresh node that stands for election and takes a command of a known type has it on disk, also
when it is sent that command once more by another leader. -/
theorem persisted_iff_leader :
    Along Leadership.step (Returns fun _ => true)
      (Leadership.boot ["a", "b", "c"] 1 (makePersister : Persister Nat))
      [.startElection, .electionReply 1 ⟨1, true⟩, .start 7,
        .handleAppendEntriesRPC ⟨2, 2, -1, 0, [⟨1, 7⟩], 0⟩] := by
  refine (persisted_iff (fun _ => true) ["a", "b", "c"] 1 makePersister [.startElection,
    .electionReply 1 ⟨1, true⟩, .start 7, .handleAppendEntriesRPC ⟨2, 2, -1, 0, [⟨1, 7⟩], 0⟩]
    (make_settled _ _ _) (by decide)).mpr ⟨trivial, trivial, fun _ => rfl, fun _ => ?_, trivial⟩
  intro k entry hentry
  cases k with
  | zero =>
    cases hentry
    exact Or.inr ⟨⟨1, 7⟩, by decide, by decide, rfl⟩
  | succ k => cases hentry

/-- A follower says that it holds a command, which is not on its disk. -/
theorem acknowledged_lost :
    ¬∀ (peers : List String) (me : Int) (persister : Persister Nat)
        (actions : List (Leadership.Action Nat)), Settled (fun _ => true) (Raft.make peers me persister) →
      Along Leadership.step (Returns fun _ => true) (Leadership.boot peers me persister) actions := by
  intro h
  obtain ⟨hreturns, _⟩ := h ["a", "b", "c"] 2 makePersister
    [.handleAppendEntriesRPC ⟨1, 1, -1, 0, [⟨1, 7⟩], 0⟩] (make_settled _ _ _)
  exact absurd (hreturns _ rfl) (by decide)

end Word

/-- All that can be missing on disk is the log. -/
def LogBehind (rf : Raft C) : Prop := {written rf with log := rf.log} = stateOf rf

theorem Writes.logBehind {rf rf' : Raft C} (h : Writes rf rf') (hb : LogBehind rf) : LogBehind rf' := by
  rcases h with hp | ⟨hdisk, hstate⟩
  · rw [LogBehind, hp]
    rfl
  · have hlog : rf'.log = rf.log := congrArg RaftState.log hstate
    rw [LogBehind, written, hdisk, hlog, hstate]
    exact hb

theorem step_logBehind [Width] (action : Leadership.Action C) (s t : Leadership.Tenure C)
    (h : LogBehind s.node) (hs : Leadership.step action s = some t) : LogBehind t.node := by
  rcases handles_writes.step hs with hwrites | ⟨args, _, heq⟩
  · exact hwrites.logBehind h
  · obtain ⟨mid, hmid, _, hdisk, hstate⟩ := handleAppendEntriesRPC_writes s.node args
    have hbehind : {written mid with log := mid.log} = stateOf mid := hmid.logBehind h
    rw [heq, LogBehind, hstate, ← hbehind, written, hdisk]
    rfl

/-- Term, vote and snapshot are on disk in every state of every run. -/
theorem run_logBehind [Width] (peers : List String) (me : Int) (persister : Persister C)
    (actions : List (Leadership.Action C)) (s : Leadership.Tenure C)
    (hboot : Persisted (Raft.make peers me persister))
    (hs : run Leadership.step (Leadership.boot peers me persister) actions = some s) :
    LogBehind s.node := by
  have hstart : LogBehind (Raft.make peers me persister) := by
    rw [LogBehind, hboot]
    rfl
  exact run_invariant_all (P := fun s => LogBehind s.node) step_logBehind actions _ _ hstart hs

/-! ### Restarts -/

/-- The node on what it persists now: the same state, and the next entry to apply is the
first it has. -/
def Restored (rf : Raft C) : Prop :=
  let rf' := Raft.make rf.peers rf.me rf.persist.persister
  stateOf rf' = stateOf rf ∧ rf'.lastApplied + 1 = rf'.log.firstLogIndex

/-- Decoded into a new log, everything comes back but the last index 0. -/
theorem gobDecodeLog_newLog (log : Log C) :
    Raft.gobDecodeLog Log.newLog log =
      {log with lastLogIndex := if log.lastLogIndex = 0 then -1 else log.lastLogIndex} := by
  have hentries : (if log.entries.isEmpty then [] else log.entries) = log.entries := by
    split
    · rename_i hempty
      rw [List.isEmpty_iff.mp hempty]
    · rfl
  have hfirst : (if log.firstLogIndex = 0 then 0 else log.firstLogIndex) = log.firstLogIndex := by
    split <;> omega
  unfold Raft.gobDecodeLog Log.newLog
  rw [hentries, hfirst]

/-- What `Make` reads. -/
theorem make_stateOf (peers : List String) (me : Int) (persister : Persister C) :
    stateOf (Raft.make peers me persister) =
      {onDisk persister with log := Raft.gobDecodeLog Log.newLog (onDisk persister).log} := by
  unfold Raft.make Raft.readPersist onDisk
  dsimp only
  cases persister.raftstate <;> rfl

theorem make_persister (peers : List String) (me : Int) (persister : Persister C) :
    (Raft.make peers me persister).persister = persister := by
  unfold Raft.make Raft.readPersist
  dsimp only
  split <;> rfl

theorem make_lastApplied {peers : List String} {me : Int} {persister : Persister C} {data : RaftState C}
    (h : persister.raftstate = some data) :
    (Raft.make peers me persister).lastApplied = data.snapshotLastIncludeIndex := by
  unfold Raft.make Raft.readPersist
  dsimp only
  rw [h]

theorem persist_raftstate (rf : Raft C) : rf.persist.persister.raftstate = some (stateOf rf) := by
  unfold Raft.persist
  split <;> rfl

theorem restored_log (rf : Raft C) :
    Restored rf ↔ rf.log.lastLogIndex ≠ 0 ∧ rf.snapshotLastIncludeIndex + 1 = rf.log.firstLogIndex := by
  have hdisk : onDisk rf.persist.persister = stateOf rf := written_persist rf
  have hstate := make_stateOf rf.peers rf.me rf.persist.persister
  rw [hdisk, gobDecodeLog_newLog] at hstate
  have hfirst : (Raft.make rf.peers rf.me rf.persist.persister).log.firstLogIndex = rf.log.firstLogIndex :=
    congrArg (fun data => data.log.firstLogIndex) hstate
  unfold Restored
  dsimp only
  rw [make_lastApplied (persist_raftstate rf), hfirst, hstate]
  apply and_congr_left
  intro _
  constructor
  · intro heq hzero
    have hlast := congrArg (fun data => data.log.lastLogIndex) heq
    simp [stateOf, hzero] at hlast
  · intro hlast
    simp [stateOf, hlast]

/-- A call, or a crash and a restart on what is on disk. -/
inductive Event (C : Type) where
  | call (action : Leadership.Action C)
  | restart

def life [Width] (event : Event C) (s : Leadership.Tenure C) : Option (Leadership.Tenure C) :=
  match event with
  | .call action => Leadership.step action s
  | .restart => some (Leadership.boot s.node.peers s.node.me s.node.persister)

/-- The slice reaches as far as `LastLogIndex`. A restart that loses the last index makes it
reach further. -/
def Fits (log : Log C) : Prop := log.lastLogIndex < log.firstLogIndex + log.entries.length

/-- The log begins after the snapshot, or at 0 if there is none. -/
structure Aligned (log : Log C) (included : Int) : Prop where
  fits : Fits log
  start : (log.firstLogIndex = 0 ∧ included = 0) ∨ (log.firstLogIndex = included + 1 ∧ 0 ≤ included)

theorem Fits.of_shaped {log : Log C} (h : log.Shaped) : Fits log := by
  rw [Log.Shaped] at h
  rw [Fits]
  omega

theorem overwrite_fits {log log' : Log C} {idx : Int} {entry : Entry C} (hfits : Fits log)
    (h : log.overwrite idx entry = some log') : Fits log' := by
  rw [Fits] at hfits
  unfold Log.overwrite Log.slice Log.getRealIndex at h
  simp only [Width.wrap_unbounded] at h
  split at h
  · cases h
    exact hfits
  · split at h
    · split at h
      · cases h
      · split at h
        · obtain ⟨kept, hslice, rfl⟩ := Option.map_eq_some_iff.mp h
          split at hslice
          · cases hslice
            simp only [Fits, List.length_append, List.length_take, List.length_singleton]
            omega
          · cases hslice
        · cases h
          exact hfits
    · cases h
      simp only [Fits, List.length_append, List.length_singleton]
      omega

theorem overwriteFrom_fits (entries : List (Entry C)) : ∀ (log : Log C) (idx : Int), Fits log →
    Fits (log.overwriteFrom idx entries).1 := by
  induction entries with
  | nil =>
    intro log idx h
    exact h
  | cons entry rest ih =>
    intro log idx h
    rw [Log.overwriteFrom]
    cases hlog : log.overwrite (idx + 1) entry with
    | none => exact h
    | some log' => exact ih log' (idx + 1) (overwrite_fits h hlog)

theorem compactTo_aligned {rf : Raft C} {index : Int} {log : Log C} (hfits : Fits rf.log)
    (hindex : 0 ≤ index) (h : rf.compactTo index = some log) : Aligned log index := by
  refine ⟨?_, Or.inr ⟨Raft.compactTo_first h, hindex⟩⟩
  rw [Fits] at hfits
  rcases Raft.compactTo_cases h with ⟨_, rfl⟩ | ⟨_, _, _, rfl⟩
  · simp only [Fits, List.length_nil]
    omega
  · simp only [Fits, List.length_drop]
    omega

/-- From the first index on, the slice expression of a compaction is in range. -/
theorem compactTo_succeeds {rf : Raft C} {index : Int} (hfits : Fits rf.log)
    (hfirst : rf.log.firstLogIndex ≤ index) : ∃ log, rf.compactTo index = some log := by
  rw [Fits] at hfits
  unfold Raft.compactTo Log.getRealIndex
  simp only [Width.wrap_unbounded]
  split
  · exact ⟨_, rfl⟩
  · rw [if_pos (by omega)]
    exact ⟨_, rfl⟩

/-- Every call keeps log and snapshot together; the slice expression never panics. -/
theorem effect_aligned {rf : Raft C} {action : Leadership.Action C} {f : Raft.Feed C}
    (h : Aligned rf.log rf.snapshotLastIncludeIndex) (he : Raft.Effect rf action f) :
    Aligned f.log f.included := by
  have hfits := h.fits
  have hstart := h.start
  have hfirst : 0 ≤ rf.log.firstLogIndex := by omega
  have hincluded : 0 ≤ rf.snapshotLastIncludeIndex := by omega
  cases he with
  | idle => exact h
  | append ha =>
    refine ⟨Fits.of_shaped (Log.appendL_shaped ha), ?_⟩
    rw [Log.appendL_first ha]
    exact hstart
  | overwrite args _ =>
    refine ⟨overwriteFrom_fits _ _ _ hfits, ?_⟩
    rw [Log.overwriteFrom_first]
    exact hstart
  | apply _ _ _ => exact h
  | compact hle _ hc => exact compactTo_aligned hfits (hfirst.trans hle) (Raft.trimTo_eq rf _ ▸ hc)
  | install hnew _ hc => exact compactTo_aligned hfits (hincluded.trans hnew.le) hc
  | deliver hnew _ hc _ => exact compactTo_aligned hfits (hincluded.trans hnew.le) hc
  | @torn args hnew hc =>
    have hle : rf.log.firstLogIndex ≤ args.lastIncludeIndex := by omega
    obtain ⟨log, hlog⟩ := compactTo_succeeds hfits hle
    rw [hlog] at hc
    cases hc

/-- What holds of log and snapshot in memory and on disk. -/
structure Kept (P : Log C → Int → Prop) (rf : Raft C) : Prop where
  memory : P rf.log rf.snapshotLastIncludeIndex
  disk : P (written rf).log (written rf).snapshotLastIncludeIndex

section Lives
variable {P : Log C → Int → Prop}

/-- What a handler writes is what it leaves in memory, or what was on disk before. -/
theorem Kept.written {rf mid : Raft C} (h : Kept P rf) (hw : Writes rf mid)
    (hmid : P mid.log mid.snapshotLastIncludeIndex) :
    P (written mid).log (written mid).snapshotLastIncludeIndex := by
  rcases hw with hp | ⟨hdisk, _⟩
  · rw [hp]
    exact hmid
  · rw [Durable.written, hdisk]
    exact h.disk

/-- A call that keeps something in memory keeps it on disk. -/
theorem step_kept [Width] {action : Leadership.Action C} {s t : Leadership.Tenure C} (h : Kept P s.node)
    (hmemory : P t.node.log t.node.snapshotLastIncludeIndex) (hs : Leadership.step action s = some t) :
    Kept P t.node := by
  refine ⟨hmemory, ?_⟩
  rcases handles_writes.step hs with hw | ⟨args, _, heq⟩
  · exact h.written hw hmemory
  · obtain ⟨mid, hmid, hfeed, hdisk, _⟩ := handleAppendEntriesRPC_writes s.node args
    have hlog : mid.log = s.node.log := congrArg Raft.Feed.log hfeed
    have hincluded : mid.snapshotLastIncludeIndex = s.node.snapshotLastIncludeIndex :=
      congrArg Raft.Feed.included hfeed
    rw [written, heq, hdisk]
    refine h.written hmid ?_
    rw [hlog, hincluded]
    exact h.memory

theorem restart_kept (peers : List String) (me : Int) {persister : Persister C}
    (hdecode : ∀ {log included}, P log included → P (Raft.gobDecodeLog Log.newLog log) included)
    (h : P (onDisk persister).log (onDisk persister).snapshotLastIncludeIndex) :
    Kept P (Raft.make peers me persister) := by
  have hstate := make_stateOf peers me persister
  have hlog := congrArg RaftState.log hstate
  have hsnap := congrArg RaftState.snapshotLastIncludeIndex hstate
  dsimp only [stateOf] at hlog hsnap
  refine ⟨?_, ?_⟩
  · rw [hlog, hsnap]
    exact hdecode h
  · rw [written, make_persister]
    exact h

end Lives

/-- A log with its last index lost still fits. -/
theorem decode_aligned {log : Log C} {included : Int} (h : Aligned log included) :
    Aligned (Raft.gobDecodeLog Log.newLog log) included := by
  have hfits := h.fits
  rw [Fits] at hfits
  rw [gobDecodeLog_newLog]
  refine ⟨?_, h.start⟩
  simp only [Fits]
  split <;> omega

theorem life_kept (event : Event C) (s t : Leadership.Tenure C) (h : Kept Aligned s.node)
    (hs : life event s = some t) : Kept Aligned t.node := by
  cases event with
  | call action => exact step_kept h (effect_aligned h.memory (Raft.handles_effect.step hs)) hs
  | restart =>
    cases hs
    exact restart_kept _ _ decode_aligned h.disk

theorem newLog_aligned : Aligned (Log.newLog : Log C) 0 := ⟨by simp [Fits, Log.newLog], Or.inl ⟨rfl, rfl⟩⟩

/-- Log and snapshot fit together, whatever has been called and however often the node has been
restarted. -/
theorem run_kept {peers : List String} {me : Int} {events : List (Event C)} {s : Leadership.Tenure C}
    (hs : run life (Leadership.boot peers me makePersister) events = some s) : Kept Aligned s.node := by
  have hboot : Kept Aligned (Leadership.boot peers me (makePersister : Persister C)).node :=
    restart_kept _ _ decode_aligned newLog_aligned
  exact run_invariant_all (P := fun s => Kept Aligned s.node) life_kept events _ _ hboot hs

end Wjetcd.Durable
