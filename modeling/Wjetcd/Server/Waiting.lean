import Wjetcd.Server.Submit

/-! No answer is lost on its way to the call that waits for it.

`no_false_acknowledgement` says that what a call of `Submit` returns belongs to its command. Here
is the other half. As long as a call waits, its channel is registered under its index and its
command is on the way, in the log, in the queue or with the apply loop; or else its channel holds
the result (`no_reply_lost`).

Besides a message that cuts the log, a snapshot can take the answer away: `LastApplied` jumps
past the index, and the entry there is never handed over (`overtaken_lost`). A command on which
the loop waits for itself (`Locking`) stays with the loop for good. -/
namespace Wjetcd.Submit
open Runs

/-- How far the command of a call has got. -/
inductive OnTheWay [Width] (s : Session) (call : Call) : Prop
  | logged (term : Int) (later : s.process.rf.lastApplied < call.index)
      (entry : s.process.rf.log.getOneEntry call.index = some ⟨term, .typed call.cmd⟩)
  | queued (h : .command call.index (.typed call.cmd) ∈ s.process.rf.applyHelper.q)
  /-- The result is there, and not yet sent. -/
  | executed (type : CommandType) (iteration : Iteration)
      (h : s.unanswered = some (call.index, type, iteration))
      (delivered : ⟨call.index, call.cmd, iteration.reply⟩ ∈ s.delivered)

structure Awaits [Width] (s : Session) (ch : Nat) (call : Call) : Prop where
  registered : s.process.replyCh[call.index]? = some ch
  onTheWay : OnTheWay s call

/-- The channel holds the result of the call's own command. -/
def Answered (s : Session) (ch : Nat) (call : Call) : Prop :=
  ∃ reply, s.process.buffers[ch]? = some reply ∧ ⟨call.index, call.cmd, reply⟩ ∈ s.delivered

/-- No snapshot of a leader that is followed reaches an entry for which a call claims the result. -/
def Unskipped (action : Action) (s : Session) : Prop :=
  match action with
  | .raft (.requestInstallSnapshot args) =>
    s.process.rf.currentTerm ≤ args.term →
      ∀ i ch, Claims s i ch → s.process.rf.lastApplied < i → args.lastIncludeIndex < i
  | _ => True

/-- The index that a call got. -/
def Session.indexOf (s : Session) (ch : Nat) : Option Int := s.calls[ch]?.map Call.index

/-- The call between `Start` and the registration. -/
def Session.unregistered (s : Session) : List Nat :=
  match s.submitting with
  | some (.started _ ch) => [ch]
  | _ => []

/-- The calls that have got an index and neither returned nor forgotten it. -/
def Session.unreturned (s : Session) : List Nat := s.unregistered ++ (s.waiting ++ s.expired)

structure Tracked (s : Session) : Prop where
  inv : Inv s
  begun : -1 ≤ s.process.rf.lastApplied
  known : ∀ ch ∈ s.unreturned, ch < s.calls.length
  /-- No two of the calls have the same index. -/
  apart : (s.unreturned.map s.indexOf).Nodup
  /-- A call that waits is registered until its channel has a result. -/
  held : ∀ ch ∈ s.waiting ++ s.expired, ∀ call : Call, s.calls[ch]? = some call →
    (s.process.buffers[ch]?).isSome ∨ s.process.replyCh[call.index]? = some ch
  /-- There is room for the result. -/
  room : ∀ i ch, Claims s i ch → s.process.buffers[ch]? = none
  started : ∀ i ch, Claims s i ch → 0 ≤ i
  /-- What a call claims has not been passed over. -/
  ahead : ∀ i ch, Claims s i ch → s.process.rf.lastApplied < i ∨
    i ∈ commandIndices s.process.rf.applyHelper.q ∨ ∃ type iteration, s.unanswered = some (i, type, iteration)

theorem boot_tracked (server : Server) (peers : List String) (id : Int) :
    Tracked (boot server peers id) where
  inv := boot_inv server peers id
  begun := le_rfl
  known := by simp [boot, Session.unreturned, Session.unregistered]
  apart := List.nodup_nil
  held := by simp [boot]
  room := by simp [boot, Process.fresh, Claims]
  started := by simp [boot, Process.fresh, Claims]
  ahead := by simp [boot, Process.fresh, Claims]

section Steps
variable {s t : Session}

theorem indexOf_eq {ch : Nat} {call : Call} (h : s.calls[ch]? = some call) : s.indexOf ch = some call.index := by
  rw [Session.indexOf, h]
  rfl

theorem mem_of_commandIndices {q : List (ApplyMsg Payload)} {i : Int} (h : i ∈ commandIndices q) :
    ∃ payload, .command i payload ∈ q := by
  obtain ⟨msg, hmem, hindex⟩ := List.mem_filterMap.mp h
  cases msg with
  | snapshot _ _ _ => cases hindex
  | command index payload =>
    cases hindex
    exact ⟨payload, hmem⟩

theorem commandIndices_subset {q q' : List (ApplyMsg Payload)} (h : q ⊆ q') :
    commandIndices q ⊆ commandIndices q' := by
  intro i hi
  obtain ⟨payload, hmem⟩ := mem_of_commandIndices hi
  exact mem_commandIndices (h hmem)

namespace Tracked

/-- A call without a result has a claim. -/
theorem claims (h : Tracked s) {ch : Nat} (hch : ch ∈ s.unreturned) {call : Call}
    (hcall : s.calls[ch]? = some call) : (s.process.buffers[ch]?).isSome ∨ Claims s call.index ch := by
  rcases List.mem_append.mp hch with hunregistered | hwaiting
  · unfold Session.unregistered at hunregistered
    split at hunregistered
    · rename_i index ch' hsubmitting
      obtain rfl := List.mem_singleton.mp hunregistered
      obtain ⟨call', hcall', rfl⟩ := h.inv.known index ch (Or.inr hsubmitting)
      rw [hcall] at hcall'
      cases hcall'
      exact Or.inr (Or.inr hsubmitting)
    · cases hunregistered
  · exact (h.held ch hwaiting call hcall).imp_right Or.inl

/-- The index that a call got is in the log. -/
theorem logged (h : Tracked s) {ch : Nat} (hch : ch ∈ s.unreturned) {call : Call}
    (hcall : s.calls[ch]? = some call) : call.index ≤ s.process.rf.log.lastLogIndex := by
  have hbounded := h.inv.ordered.bounded
  rcases h.claims hch hcall with hbuffer | hclaims
  · obtain ⟨reply, hreply⟩ := Option.isSome_iff_exists.mp hbuffer
    have := h.inv.applied call.index
      (List.mem_append_left _ (List.mem_map_of_mem (h.inv.result_of hreply hcall)))
    omega
  · by_cases hlater : s.process.rf.lastApplied < call.index
    · obtain ⟨term, hentry⟩ := h.inv.logged call.index call ⟨ch, hclaims, hcall⟩ hlater
      exact (h.inv.ordered.shaped.bounds hentry).2
    · omega

/-- Another call has another index. -/
theorem index_ne (h : Tracked s) {ch ch' : Nat} (hch : ch ∈ s.unreturned) (hch' : ch' ∈ s.unreturned)
    (hne : ch' ≠ ch) {call call' : Call} (hcall : s.calls[ch]? = some call) (hcall' : s.calls[ch']? = some call') :
    call.index ≠ call'.index := by
  intro heq
  refine hne (List.inj_on_of_nodup_map h.apart hch' hch ?_)
  rw [indexOf_eq hcall, indexOf_eq hcall', heq]

/-- A channel claims one index. -/
theorem claimed_once (h : Tracked s) {i i' : Int} {ch : Nat} (hi : Claims s i ch) (hi' : Claims s i' ch) :
    i = i' := by
  obtain ⟨call, hcall, hindex⟩ := h.inv.known i ch hi
  obtain ⟨call', hcall', hindex'⟩ := h.inv.known i' ch hi'
  rw [hcall] at hcall'
  cases hcall'
  exact hindex.symm.trans hindex'

/-- What is claimed at another index than the loop's is still ahead of it. -/
theorem ahead_of_ne (h : Tracked s) {index : Int} {type : CommandType} {iteration : Iteration}
    (hu : s.unanswered = some (index, type, iteration)) {i : Int} {ch : Nat}
    (hclaims : Claims s i ch) (hne : i ≠ index) :
    s.process.rf.lastApplied < i ∨ i ∈ commandIndices s.process.rf.applyHelper.q := by
  rcases h.ahead i ch hclaims with hlater | hqueued | ⟨type', iteration', hloop⟩
  · exact Or.inl hlater
  · exact Or.inr hqueued
  · rw [hu] at hloop
    cases hloop
    exact absurd rfl hne

theorem unreturned_nodup (h : Tracked s) : (s.waiting ++ s.expired).Nodup :=
  (List.Nodup.of_map _ h.apart).sublist (List.sublist_append_right ..)

/-! ### The steps -/

/-- Calls and claims only go. -/
theorem fewer (h : Tracked s) (hinv : Inv t) (hrf : t.process.rf = s.process.rf) (hcalls : t.calls = s.calls)
    (hunanswered : t.unanswered = s.unanswered) (hclaims : ∀ i ch, Claims t i ch → Claims s i ch)
    (hbuffers : ∀ ch : Nat, s.process.buffers[ch]? = none → t.process.buffers[ch]? = none)
    (hunreturned : t.unreturned.Subperm s.unreturned)
    (hheld : ∀ ch ∈ t.waiting ++ t.expired, ∀ call : Call, s.calls[ch]? = some call →
      (t.process.buffers[ch]?).isSome ∨ t.process.replyCh[call.index]? = some ch) : Tracked t := by
  have hindex : t.indexOf = s.indexOf := by
    funext ch
    unfold Session.indexOf
    rw [hcalls]
  refine
    { inv := hinv
      begun := by rw [hrf]; exact h.begun
      known := ?_
      apart := ?_
      held := by rw [hcalls]; exact hheld
      room := fun i ch hch => hbuffers ch (h.room i ch (hclaims i ch hch))
      started := fun i ch hch => h.started i ch (hclaims i ch hch)
      ahead := by rw [hrf, hunanswered]; exact fun i ch hch => h.ahead i ch (hclaims i ch hch) }
  · rw [hcalls]
    exact fun ch hch => h.known ch (hunreturned.subset hch)
  · obtain ⟨kept, hperm, hsublist⟩ := hunreturned
    rw [hindex]
    exact (hperm.map _).nodup_iff.mp (h.apart.sublist (hsublist.map _))

theorem submit (h : Tracked s) {now : Nat} {cmd : Command} (hs : s.submit now cmd = some t) : Tracked t := by
  have hinv := submit_inv h.inv hs
  unfold Session.submit at hs
  split_ifs at hs
  · cases hs
    exact h
  · cases hs
    exact h
  · cases hs
    exact h.fewer hinv rfl rfl rfl (fun i ch => Claims.of_unstarted (by simp)) (fun _ hch => hch)
      ((List.sublist_append_right ..).subperm) h.held

/-- The channel that was claimed for is registered. -/
theorem register (h : Tracked s) (hs : s.register = some t) : Tracked t := by
  have hinv := register_inv h.inv hs
  have hfewer : ∀ i ch, Claims t i ch → Claims s i ch := fun i ch => Claims.of_register hs
  unfold Session.register at hs
  split at hs
  swap
  · cases hs
  rename_i idx ch hsubmitting
  have hclaims : Claims s idx ch := Or.inr hsubmitting
  have hunregistered : s.unregistered = [ch] := by rw [Session.unregistered, hsubmitting]
  have hunreturned : s.unreturned = ch :: (s.waiting ++ s.expired) := by
    rw [Session.unreturned, hunregistered]
    rfl
  cases hs
  refine h.fewer hinv rfl rfl rfl hfewer (fun _ hch => hch) ?_ ?_
  · rw [hunreturned]
    exact List.Subperm.refl _
  · intro ch' hmem call hcall
    obtain ⟨call', hcall', hindex⟩ := h.inv.known idx ch hclaims
    dsimp only
    rw [GoMap.get_insert]
    rcases List.mem_cons.mp hmem with rfl | hmem
    · rw [hcall] at hcall'
      cases hcall'
      rw [if_pos hindex.symm]
      exact Or.inr rfl
    · have hnodup := List.Nodup.of_map _ h.apart
      rw [hunreturned] at hnodup
      have hne : ch' ≠ ch := fun heq => (List.nodup_cons.mp hnodup).1 (heq ▸ hmem)
      have hindices := h.index_ne (by rw [hunreturned]; exact List.mem_cons_self)
        (by rw [hunreturned]; exact List.mem_cons_of_mem _ hmem) hne hcall' hcall
      rw [if_neg (hindex ▸ hindices)]
      exact h.held ch' hmem call hcall

theorem receive (h : Tracked s) {ch : Nat} (hs : s.receive ch = some t) : Tracked t := by
  have hinv := receive_inv h.inv hs
  obtain ⟨hch, call, reply, acknowledged, _, _, _, rfl⟩ := receive_cases hs
  have herase : s.waiting.erase ch ++ s.expired = (s.waiting ++ s.expired).erase ch :=
    (List.erase_append_left _ hch).symm
  refine h.fewer hinv rfl rfl rfl (fun i ch' hch' => hch') ?_ ?_ ?_
  · intro ch' hnone
    dsimp only
    rw [GoMap.get_erase, hnone, ite_self]
  · exact ((List.erase_sublist.append_right _).append_left _).subperm
  · intro ch' hmem call hcall
    dsimp only at hmem ⊢
    rw [herase] at hmem
    obtain ⟨hne, hmem⟩ := (List.Nodup.mem_erase_iff h.unreturned_nodup).mp hmem
    rw [GoMap.get_erase, if_neg (Ne.symm hne)]
    exact h.held ch' hmem call hcall

/-- The timer of a call fires. -/
theorem timeout (h : Tracked s) {ch : Nat} (hs : s.timeout ch = some t) : Tracked t := by
  have hinv := timeout_inv h.inv hs
  unfold Session.timeout at hs
  split_ifs at hs
  rename_i hch
  cases hs
  have hperm : (s.waiting.erase ch ++ ch :: s.expired).Perm (s.waiting ++ s.expired) :=
    List.perm_middle.trans ((List.perm_cons_erase hch).symm.append_right _)
  exact h.fewer hinv rfl rfl rfl (fun i ch hch => hch) (fun _ hch => hch) (hperm.append_left _).subperm
    fun ch' hmem => h.held ch' (hperm.mem_iff.mp hmem)

/-- What a call that gives up forgets is its own registration. -/
theorem forget (h : Tracked s) {ch : Nat} (hs : s.forget ch = some t) : Tracked t := by
  have hinv := forget_inv h.inv hs
  unfold Session.forget at hs
  split_ifs at hs
  rename_i hch
  obtain ⟨call, hcall, rfl⟩ := Option.map_eq_some_iff.mp hs
  have hsublist : (s.waiting ++ s.expired.erase ch).Sublist (s.waiting ++ s.expired) :=
    List.erase_sublist.append_left _
  refine h.fewer hinv rfl rfl rfl (fun i ch' hch' => hch'.imp_left (erase_sub call.index i ch'))
    (fun _ hch => hch) (hsublist.append_left _).subperm ?_
  intro ch' hmem call' hcall'
  dsimp only at hmem ⊢
  have hne : ch' ≠ ch := by
    have hnodup := h.unreturned_nodup
    rw [List.nodup_append] at hnodup
    rintro rfl
    rcases List.mem_append.mp hmem with hwaiting | hexpired
    · exact hnodup.2.2 ch' hwaiting ch' hch rfl
    · exact ((List.Nodup.mem_erase_iff hnodup.2.1).mp hexpired).1 rfl
  rw [GoMap.get_erase, if_neg (h.index_ne (List.mem_append_right _ (List.mem_append_right _ hch))
    (List.mem_append_right _ (hsublist.subset hmem)) hne hcall hcall')]
  exact h.held ch' (hsublist.subset hmem) call' hcall'

/-- The index of a new call is after all that have been given out. -/
theorem next (h : Tracked s) {rf : Raft Payload} {cmd : Command} (hnobody : s.unregistered = [])
    (hinv : Inv (s.started rf (s.process.rf.log.lastLogIndex + 1) cmd))
    (happlied : rf.lastApplied = s.process.rf.lastApplied) (hhelper : rf.applyHelper = s.process.rf.applyHelper) :
    Tracked (s.started rf (s.process.rf.log.lastLogIndex + 1) cmd) := by
  have hbounded := h.inv.ordered.bounded
  have hbegun := h.begun
  have hempty : s.process.buffers[s.calls.length]? = none := by
    rw [Option.eq_none_iff_forall_ne_some]
    intro reply hreply
    obtain ⟨call, hcall, _⟩ := h.inv.buffered _ reply hreply
    exact absurd (List.getElem?_eq_some_iff.mp hcall).1 (lt_irrefl _)
  have hunreturned : s.unreturned = s.waiting ++ s.expired := by rw [Session.unreturned, hnobody]; rfl
  -- the other calls keep their numbers and their indices
  have hold : ∀ ch ∈ s.unreturned, ∀ new : Call, (s.calls ++ [new])[ch]? = s.calls[ch]? :=
    fun ch hch new => List.getElem?_append_left (h.known ch hch)
  have hnew : (s.started rf (s.process.rf.log.lastLogIndex + 1) cmd).unreturned =
      s.calls.length :: s.unreturned := by
    rw [hunreturned]
    rfl
  refine
    { inv := hinv
      begun := by rw [← happlied] at hbegun; exact hbegun
      known := ?_
      apart := ?_
      held := ?_
      room := ?_
      started := ?_
      ahead := ?_ }
  · intro ch hch
    rw [hnew, List.mem_cons] at hch
    simp only [Session.started, List.length_append, List.length_singleton]
    rcases hch with rfl | hch
    · omega
    · have := h.known ch hch
      omega
  · have hmap : s.unreturned.map (s.started rf (s.process.rf.log.lastLogIndex + 1) cmd).indexOf =
        s.unreturned.map s.indexOf := by
      refine List.map_congr_left fun ch hch => ?_
      unfold Session.indexOf Session.started
      rw [hold ch hch]
    rw [hnew, List.map_cons, hmap, List.nodup_cons]
    refine ⟨?_, h.apart⟩
    rw [indexOf_eq (List.getElem?_concat_length ..), List.mem_map]
    rintro ⟨ch, hch, hindex⟩
    obtain ⟨call, hcall, hindex⟩ := Option.map_eq_some_iff.mp hindex
    have := h.logged hch hcall
    dsimp only at hindex
    omega
  · intro ch hch call hcall
    dsimp only [Session.started] at hch hcall ⊢
    rw [hold ch (hunreturned ▸ hch)] at hcall
    exact h.held ch hch call hcall
  · rintro i ch (hreg | hstarted)
    · exact h.room i ch (Or.inl hreg)
    · cases hstarted
      exact hempty
  · rintro i ch (hreg | hstarted)
    · exact h.started i ch (Or.inl hreg)
    · cases hstarted
      omega
  · rintro i ch (hreg | hstarted)
    · dsimp only [Session.started]
      rw [happlied, hhelper]
      exact h.ahead i ch (Or.inl hreg)
    · cases hstarted
      dsimp only [Session.started]
      exact Or.inl (by omega)

/-- The loop takes up what is next in the queue. -/
theorem perform (h : Tracked s) {env : Env} {writeErr : Option String} (hs : s.perform env writeErr = some t) :
    Tracked t := by
  have hinv := perform_inv h.inv hs
  obtain ⟨hidle, msg, rest, hq, hcases⟩ := perform_cases hs
  -- what is claimed and next is a command that the loop goes on with
  have hahead : ∀ i ch, Claims s i ch → s.process.rf.lastApplied < i ∨
      i ∈ commandIndices rest ∨ ∃ cmd, (Message.raft msg).decode = some (i, cmd) := by
    intro i ch hreg
    rcases h.ahead i ch hreg with hlater | hqueued | ⟨type, iteration, hloop⟩
    · exact Or.inl hlater
    · obtain ⟨payload, hmem⟩ := mem_of_commandIndices hqueued
      obtain ⟨call, hcall, _⟩ := h.inv.known i ch hreg
      have hpayload := h.inv.queued i payload hmem call ⟨ch, hreg, hcall⟩
      rw [hq] at hmem
      rcases List.mem_cons.mp hmem with rfl | hmem
      · rw [hpayload]
        exact Or.inr (Or.inr ⟨call.cmd, rfl⟩)
      · exact Or.inr (Or.inl (mem_commandIndices hmem))
    · rw [hidle] at hloop
      cases hloop
  rcases hcases with ⟨hdecode, rfl⟩ | ⟨index, payload, cmd, rfl, hpay, rfl⟩
  · refine { h with inv := hinv, ahead := fun i ch hreg => ?_ }
    rcases hahead i ch hreg with hlater | hqueued | ⟨cmd, hcmd⟩
    · exact Or.inl hlater
    · exact Or.inr (Or.inl hqueued)
    · rw [hdecode] at hcmd
      cases hcmd
  · refine { h with inv := hinv, ahead := fun i ch hreg => ?_ }
    rcases hahead i ch hreg with hlater | hqueued | ⟨cmd', hcmd⟩
    · exact Or.inl hlater
    · exact Or.inr (Or.inl hqueued)
    · obtain ⟨_, _, heq⟩ := Option.map_eq_some_iff.mp hcmd
      cases heq
      exact Or.inr (Or.inr ⟨_, _, rfl⟩)

/-- The loop sends its result to whoever is registered. -/
theorem conclude_eq (h : Tracked s) {index : Int} {type : CommandType} {iteration : Iteration}
    (hu : s.unanswered = some (index, type, iteration)) :
    s.process.conclude index type iteration = s.process.notifyReply index iteration.reply := by
  have hle := h.inv.applied index (List.mem_append_left _ (h.inv.answering index type iteration hu).1)
  unfold Process.conclude Process.answer
  split
  · split
    · exact markApplied_eq (by rw [notifyReply_rf]; exact hle)
    · rename_i hnegative
      rw [markApplied_eq hle]
      -- nobody is registered under such an index
      unfold Process.notifyReply
      cases hreg : s.process.replyCh[index]? with
      | none => rfl
      | some ch => exact absurd (Or.inl (h.started index ch (Or.inl hreg))) hnegative
  · rfl

theorem conclude (h : Tracked s) (hs : s.conclude = some t) : Tracked t := by
  have hinv := conclude_inv h.inv hs
  unfold Session.conclude at hs
  split_ifs at hs
  rename_i hunlocked
  obtain ⟨⟨index, type, iteration⟩, hu, rfl⟩ := Option.map_eq_some_iff.mp hs
  -- nobody is between `Start` and the registration
  have hregistered : ∀ {i ch}, Claims s i ch → s.process.replyCh[i]? = some ch := by
    rintro i ch (hreg | hsubmitting)
    · exact hreg
    · rw [hsubmitting] at hunlocked
      exact absurd rfl hunlocked
  dsimp only at hinv ⊢
  rw [h.conclude_eq hu] at hinv ⊢
  unfold Process.notifyReply at hinv ⊢
  cases hreg : s.process.replyCh[index]? with
  | none =>
    rw [hreg] at hinv
    refine { h with inv := hinv, ahead := fun i ch hi => (h.ahead_of_ne hu hi ?_).imp_right Or.inl }
    rintro rfl
    cases hreg.symm.trans (hregistered hi)
  | some ch =>
    rw [hreg] at hinv
    dsimp only at hinv ⊢
    have hroom := h.room index ch (Or.inl hreg)
    rw [if_pos (by rw [hroom]; rfl)] at hinv ⊢
    have hother : ∀ {i ch'}, (s.process.replyCh.erase index)[i]? = some ch' ∨
        s.submitting = some (.started i ch') → Claims s i ch' ∧ i ≠ index := by
      intro i ch' hi
      have hclaims : Claims s i ch' := hi.imp_left (erase_sub index i ch')
      refine ⟨hclaims, ?_⟩
      rintro rfl
      rcases hi with herased | hsubmitting
      · rw [GoMap.get_erase, if_pos rfl] at herased
        cases herased
      · rw [hsubmitting] at hunlocked
        exact hunlocked rfl
    refine { h with inv := hinv, held := ?_, room := ?_, started := ?_, ahead := ?_ }
    · intro ch' hmem call' hcall'
      dsimp only at hmem hcall' ⊢
      rw [GoMap.get_insert, GoMap.get_erase]
      by_cases hch : ch = ch'
      · exact Or.inl (by rw [if_pos hch]; rfl)
      · rw [if_neg hch]
        refine (h.held ch' hmem call' hcall').imp_right fun hreg' => ?_
        rw [if_neg]
        · exact hreg'
        · intro heq
          rw [← heq, hreg] at hreg'
          exact hch (Option.some.inj hreg')
    · intro i ch' hi
      obtain ⟨hclaims, hne⟩ := hother hi
      dsimp only
      rw [GoMap.get_insert, if_neg]
      · exact h.room i ch' hclaims
      · rintro rfl
        exact hne (h.claimed_once hclaims (Or.inl hreg))
    · exact fun i ch' hi => h.started i ch' (hother hi).1
    · exact fun i ch' hi => (h.ahead_of_ne hu (hother hi).1 (hother hi).2).imp_right Or.inl

section Word
open scoped Word64

theorem start (h : Tracked s) (hroom : s.process.rf.log.lastLogIndex + 1 < 2 ^ 63 - 1)
    (hs : s.start = some t) : Tracked t := by
  have hinv := start_inv h.inv hroom hs
  unfold Session.start at hs
  split at hs
  · rename_i cmd hsubmitting
    have hnobody : s.unregistered = [] := by rw [Session.unregistered, hsubmitting]
    by_cases hlead : s.process.rf.state = .leader
    · obtain ⟨rf, hstart, _, happlied, hhelper, _, _⟩ := Raft.start_spec h.inv.ordered hlead (.typed cmd)
      rw [Raft.start_unbounded h.inv.sized.log (by omega), hstart] at hs
      cases hs
      exact h.next hnobody hinv happlied hhelper
    · rw [Raft.start, if_pos hlead] at hs
      cases hs
      exact h.fewer hinv rfl rfl rfl (fun i ch => Claims.of_unstarted (by simp)) (fun _ hch => hch)
        ((List.sublist_append_right ..).subperm) h.held
  · cases hs

/-- An entry for which somebody waits is not passed over: it is put into the queue. -/
theorem raft (h : Tracked s) {action : Leadership.Action Payload} (hskip : Unskipped (.raft action) s)
    (hb : Raft.InBounds action s.process.rf) (hinv : Inv t) (hs : s.raft action = some t) : Tracked t := by
  obtain ⟨_, tenure, htenure, rfl⟩ := raft_step hs
  have hhanded := (Raft.step_unbounded h.inv.sized hb htenure).1.handed h.inv.ordered
  refine { h with inv := hinv, begun := h.begun.trans hhanded.applied, ahead := ?_ }
  intro i ch hclaims
  replace hclaims : Claims s i ch := hclaims
  dsimp only
  by_cases hnext : tenure.node.lastApplied < i
  · exact Or.inl hnext
  refine Or.inr ?_
  rcases h.ahead i ch hclaims with hlater | hqueued | hloop
  · rcases hhanded.passed i hlater (not_lt.mp hnext) with ⟨args, rfl, hindex⟩ | ⟨command, hqueued⟩
    · -- the rule about snapshots; without the term the message is turned away
      refine absurd ?_ hnext
      by_cases hterm : s.process.rf.currentTerm ≤ args.term
      · rw [hindex]
        exact hskip hterm i ch hclaims hlater
      · cases htenure
        rcases Raft.requestInstallSnapshot_cases s.process.rf args with hsame | ⟨hge, _⟩
        · dsimp only
          rw [hsame]
          exact hlater
        · exact absurd hge hterm
    · exact Or.inl (mem_commandIndices hqueued)
  · exact Or.inl (commandIndices_subset hhanded.queue hqueued)
  · exact Or.inr hloop

theorem step (action : Action) (s t : Session) (h : Tracked s) (hr : Honest action s ∧ Unskipped action s)
    (hs : Submit.step action s = some t) : Tracked t := by
  obtain ⟨⟨hfinal, hund, hb⟩, hskip⟩ := hr
  cases action with
  | submit now cmd => exact h.submit hs
  | start => exact h.start hb hs
  | register => exact h.register hs
  | raft action => exact h.raft hskip hb (raft_inv h.inv hfinal hund hb hs) hs
  | perform env writeErr => exact h.perform hs
  | conclude => exact h.conclude hs
  | receive ch => exact h.receive hs
  | timeout ch => exact h.timeout hs
  | forget ch => exact h.forget hs

/-- Where the answer is. -/
theorem attended (h : Tracked s) {ch : Nat} (hch : ch ∈ s.waiting) :
    ∃ call, s.calls[ch]? = some call ∧ (Answered s ch call ∨ Awaits s ch call) := by
  have hmem : ch ∈ s.waiting ++ s.expired := List.mem_append_left _ hch
  obtain ⟨call, hcall⟩ : ∃ call, s.calls[ch]? = some call :=
    ⟨_, List.getElem?_eq_getElem (h.known ch (List.mem_append_right _ hmem))⟩
  refine ⟨call, hcall, ?_⟩
  rcases h.held ch hmem call hcall with hbuffer | hreg
  · obtain ⟨reply, hreply⟩ := Option.isSome_iff_exists.mp hbuffer
    exact Or.inl ⟨reply, hreply, h.inv.result_of hreply hcall⟩
  · have hclaims : Claims s call.index ch := Or.inl hreg
    have hregistered : Registered s call.index call := ⟨ch, hclaims, hcall⟩
    refine Or.inr ⟨hreg, ?_⟩
    rcases h.ahead call.index ch hclaims with hlater | hqueued | ⟨type, iteration, hloop⟩
    · obtain ⟨term, hentry⟩ := h.inv.logged call.index call hregistered hlater
      have hlow := h.started call.index ch hclaims
      have hhigh := (h.inv.ordered.shaped.bounds hentry).2
      have hlast : s.process.rf.log.lastLogIndex < 2 ^ 63 - 1 := h.inv.sized.log.last.2
      exact .logged term hlater
        ((h.inv.sized.log.getOneEntry_unbounded (by omega) (by omega)).trans hentry)
    · obtain ⟨payload, hmem⟩ := mem_of_commandIndices hqueued
      obtain rfl := h.inv.queued call.index payload hmem call hregistered
      exact .queued hmem
    · exact .executed type iteration hloop ((h.inv.answering _ type iteration hloop).2 call hregistered)

end Word
end Tracked
end Steps

section Word
open scoped Word64

/-- **No answer is lost.** In every run in which no message cuts the log where it has been handed over
or at an index that a call has got and is not answered for, no snapshot reaches such an index, and every index
is below the largest `int`: a call that waits has the result of its own command in its channel, or is
registered while the command is on the way. Once its index has been applied and the loop has nothing
left to do, it is in the channel. -/
theorem no_reply_lost (server : Server) (peers : List String) (id : Int) (actions : List Action) (s : Session)
    (hr : Along step (fun action s => Honest action s ∧ Unskipped action s) (boot server peers id) actions)
    (hs : run step (boot server peers id) actions = some s) (ch : Nat) (hch : ch ∈ s.waiting) :
    ∃ call, s.calls[ch]? = some call ∧ (Answered s ch call ∨ Awaits s ch call) ∧
      (call.index ≤ s.process.rf.lastApplied → s.process.rf.applyHelper.q = [] → s.unanswered = none →
        Answered s ch call) := by
  have htracked : Tracked s := run_invariant Tracked.step actions _ _ (boot_tracked server peers id) hr hs
  obtain ⟨call, hcall, hattended⟩ := htracked.attended hch
  refine ⟨call, hcall, hattended, fun happlied hempty hidle => ?_⟩
  rcases hattended with hanswered | ⟨_, hway⟩
  · exact hanswered
  · cases hway with
    | logged term later entry => omega
    | queued hmem =>
      rw [hempty] at hmem
      cases hmem
    | executed type iteration hloop _ =>
      rw [hidle] at hloop
      cases hloop

/-- The loop is handed index 0 and sends the result. -/
def sendingFirst : List Action := [.raft .applyNext, .perform (Env.at 0) none, .conclude]

/-- The put has been executed, and its result is in the channel. -/
theorem no_reply_lost_put :
    ∃ s, run step (boot Server.fresh ["a", "b", "c"] 1) (putting (ascii "a") ++ sendingFirst) = some s ∧
      0 ∈ s.waiting ∧ ∃ call, s.calls[0]? = some call ∧ Answered s 0 call :=
  ⟨_, rfl, List.mem_cons_self,
    (no_reply_lost Server.fresh ["a", "b", "c"] 1 (putting (ascii "a") ++ sendingFirst) _
      ⟨⟨⟨trivial, trivial, trivial⟩, trivial⟩, ⟨⟨trivial, trivial, trivial⟩, trivial⟩,
        ⟨⟨trivial, trivial, trivial⟩, trivial⟩,
        ⟨⟨trivial, trivial, (by decide : (-1 : Int) + 1 < 2 ^ 63 - 1)⟩, trivial⟩,
        ⟨⟨trivial, trivial, trivial⟩, trivial⟩, ⟨⟨trivial, trivial, trivial⟩, trivial⟩,
        ⟨⟨trivial, trivial, trivial⟩, trivial⟩, ⟨⟨trivial, trivial, trivial⟩, trivial⟩, trivial⟩ rfl 0
      List.mem_cons_self).imp fun _ h =>
        ⟨h.1, h.2.2 (le_of_eq (Option.some.inj ((indexOf_eq h.1).symm.trans rfl))) rfl rfl⟩⟩

/-- Another put is submitted, and the leader of term 2 has a snapshot up to its index. -/
def overtaking : List Action :=
  submitting (ascii "b") ++ [.raft (.requestInstallSnapshot ⟨2, 2, 1, 2, []⟩)]

/-- The two puts are still waited for, but nothing is on the way any more. -/
theorem overtaken_lost :
    ¬∀ server peers id actions s,
      Along step Honest (boot server peers id) actions →
      run step (boot server peers id) actions = some s → ∀ ch ∈ s.waiting, ∃ call, s.calls[ch]? = some call ∧
        (Answered s ch call ∨ Awaits s ch call) := by
  intro h
  obtain ⟨call, hcall, hattended⟩ := h Server.fresh ["a", "b", "c"] 1 (putting (ascii "a") ++ overtaking) _
    ⟨⟨trivial, trivial, trivial⟩, ⟨trivial, trivial, trivial⟩, ⟨trivial, trivial, trivial⟩,
      ⟨trivial, trivial, (by decide : (-1 : Int) + 1 < 2 ^ 63 - 1)⟩, ⟨trivial, trivial, trivial⟩,
      ⟨trivial, trivial, trivial⟩, ⟨trivial, trivial, (by decide : (0 : Int) + 1 < 2 ^ 63 - 1)⟩,
      ⟨trivial, trivial, trivial⟩, ⟨trivial, trivial, (by decide : (1 : Int) < 2 ^ 63 - 1)⟩, trivial⟩
    rfl 1 List.mem_cons_self
  cases hcall
  rcases hattended with ⟨reply, hreply, _⟩ | ⟨_, hway⟩
  · cases hreply
  · cases hway with
    | logged term later entry => exact absurd later (by decide)
    | queued hmem => cases List.mem_singleton.mp hmem
    | executed type iteration hloop _ => cases hloop

end Word

end Wjetcd.Submit
