import Wjetcd.Raft.Handlers

/-! One replication step between a leader and a follower.

The leader sends what follows `nextIndex - 1`, and records on success that the
follower holds everything up to the last entry sent. `Justified` says that the
follower then does. What makes it true is Log Matching and the check of the
entry before the new ones: where they agree, the loop of `handleAppendEntriesRPC`
extends the agreement by one index a turn (`overwrite_extends`).

The check is skipped at `PrevLogIndex = 0`, which is an entry like any other in a
0-based log. `replication_justified` gives the exact condition: the step is right
unless the leader sends from index 1 to a follower that does not hold an entry
of the same term at index 0. -/
namespace Wjetcd.Replication

variable {C : Type}

/-- Where both logs hold an entry of the same term, they agree up to it. -/
def Matching (l f : Log C) : Prop :=
  ∀ (i : Int) (a b : Entry C), l.getOneEntry i = some a → f.getOneEntry i = some b →
    a.term = b.term → ∀ j ≤ i, l.getOneEntry j = f.getOneEntry j

/-- `f` holds the entry of `l` at every index from 0 to `last`. -/
def HoldsUpTo (f l : Log C) (last : Int) : Prop :=
  ∀ i, 0 ≤ i → i ≤ last → ∃ entry, l.getOneEntry i = some entry ∧ f.getOneEntry i = some entry

/-- If the follower `rf` accepts what `ld` has for the peer at `target`, it then holds
everything the leader records for it. -/
def Justified (ld rf : Raft C) (target : Nat) : Prop :=
  ∀ args reply, ld.appendEntriesArgs target = .entries args →
    (rf.handleAppendEntriesRPC args).2 = some reply → reply.success = true →
    HoldsUpTo (rf.handleAppendEntriesRPC args).1.log ld.log (args.prevLogIndex + args.entries.length)

/-- Both logs have a first entry, of the same term. -/
def SameStart (l f : Log C) : Prop :=
  ∃ a b, l.getOneEntry 0 = some a ∧ f.getOneEntry 0 = some b ∧ a.term = b.term

/-! ### Logs as lists -/

/-- Log Matching over the slices. -/
def Matches (l f : List (Entry C)) : Prop :=
  ∀ (i : Nat) (a b : Entry C), l[i]? = some a → f[i]? = some b → a.term = b.term →
    f.take (i + 1) = l.take (i + 1)

theorem Matching.matches {l f : Log C} (hl : l.Indexed) (hf : f.Indexed) (h : Matching l f) :
    Matches l.entries f.entries := by
  intro i a b ha hb ht
  rw [← hl.getOneEntry_nat] at ha
  rw [← hf.getOneEntry_nat] at hb
  apply List.ext_getElem?
  intro j
  by_cases hj : j < i + 1
  · rw [List.getElem?_take_of_lt hj, List.getElem?_take_of_lt hj, ← hl.getOneEntry_nat,
      ← hf.getOneEntry_nat]
    exact (h i a b ha hb ht j (by omega)).symm
  · rw [List.getElem?_take_eq_none (by omega), List.getElem?_take_eq_none (by omega)]

/-- A beginning of `l` agrees with `l`. -/
theorem matches_take (l : List (Entry C)) (k : Nat) : Matches l (l.take k) := by
  intro i a b _ hb _
  have hi : i < (l.take k).length := (List.getElem?_eq_some_iff.mp hb).1
  rw [List.length_take] at hi
  rw [List.take_take, Nat.min_eq_left (by omega)]

theorem holdsUpTo_iff {f l : Log C} (hf : f.Indexed) (hl : l.Indexed) :
    HoldsUpTo f l (l.entries.length - 1) ↔ f.entries.take l.entries.length = l.entries := by
  constructor
  · intro h
    apply List.ext_getElem?
    intro j
    by_cases hj : j < l.entries.length
    · obtain ⟨entry, hle, hfe⟩ := h j (by omega) (by omega)
      rw [hl.getOneEntry_nat] at hle
      rw [hf.getOneEntry_nat] at hfe
      rw [List.getElem?_take_of_lt hj, hle, hfe]
    · rw [List.getElem?_take_eq_none (by omega), List.getElem?_eq_none (by omega)]
  · intro h i hi hlast
    obtain ⟨j, rfl⟩ := Int.eq_ofNat_of_zero_le hi
    have hj : j < l.entries.length := by omega
    refine ⟨l.entries[j], ?_, ?_⟩
    · rw [hl.getOneEntry_nat, List.getElem?_eq_getElem hj]
    · rw [hf.getOneEntry_nat, ← List.getElem?_take_of_lt hj, h, List.getElem?_eq_getElem hj]

/-! ### The loop of `handleAppendEntriesRPC` -/

/-- One turn where the logs agree below: they then agree one index further. -/
theorem overwrite_extends {log : Log C} (h : log.Indexed) {l : List (Entry C)} {k : Nat}
    {entry : Entry C} (hm : Matches l log.entries) (hk : k ≤ log.entries.length)
    (hl : l[k]? = some entry) (hagree : log.entries.take k = l.take k) :
    ∃ log', log.overwrite k entry = some log' ∧ log'.Indexed ∧ Matches l log'.entries ∧
      k + 1 ≤ log'.entries.length ∧ log'.entries.take (k + 1) = l.take (k + 1) := by
  have hsnoc : l.take k ++ [entry] = l.take (k + 1) := by
    rw [List.take_add_one, hl]
    rfl
  have hlen : k + 1 ≤ (l.take (k + 1)).length := by
    have := (List.getElem?_eq_some_iff.mp hl).1
    rw [List.length_take]
    omega
  rcases Nat.lt_or_eq_of_le hk with hlt | heq
  · obtain ⟨held, hheld⟩ : ∃ held, log.entries[k]? = some held :=
      ⟨log.entries[k], List.getElem?_eq_getElem hlt⟩
    by_cases ht : held.term = entry.term
    · exact ⟨log, h.overwrite_same hheld ht, h, hm, hlt, hm k entry held hl hheld ht.symm⟩
    · -- the log is cut down to a beginning of the leader's
      have ho := h.overwrite_conflict hheld ht
      refine ⟨_, ho, h.overwrite_indexed hk ho, ?_⟩
      simp only [hagree, hsnoc]
      exact ⟨matches_take l _, hlen, by rw [List.take_take, Nat.min_self]⟩
  · have ho := h.overwrite_end entry
    rw [← heq] at ho
    refine ⟨_, ho, h.overwrite_indexed hk ho, ?_⟩
    have hall : log.entries = l.take k := by
      rw [← hagree, List.take_of_length_le (by omega)]
    simp only [hall, hsnoc]
    exact ⟨matches_take l _, hlen, by rw [List.take_take, Nat.min_self]⟩

theorem overwriteFrom_cons {log log' : Log C} {idx : Int} {entry : Entry C}
    {rest : List (Entry C)} (h : log.overwrite (idx + 1) entry = some log') :
    log.overwriteFrom idx (entry :: rest) = log'.overwriteFrom (idx + 1) rest := by
  simp only [Log.overwriteFrom, Width.wrap_unbounded, h]

/-- The whole loop, given everything `l` has from `k` on. -/
theorem overwriteFrom_extends {l : List (Entry C)} (rest : List (Entry C)) :
    ∀ (log : Log C) (k : Nat) (idx : Int), log.Indexed → Matches l log.entries → idx + 1 = k →
      k ≤ log.entries.length → k ≤ l.length → l.drop k = rest → log.entries.take k = l.take k →
      ∃ log', log.overwriteFrom idx rest = (log', true) ∧ log'.Indexed ∧
        log'.entries.take l.length = l := by
  induction rest with
  | nil =>
    intro log k idx h _ _ _ hkl hdrop hagree
    have hend : k = l.length := by
      have := List.drop_eq_nil_iff.mp hdrop
      omega
    refine ⟨log, rfl, h, ?_⟩
    rw [← hend, hagree, hend, List.take_length]
  | cons entry rest ih =>
    intro log k idx h hm hidx hk hkl hdrop hagree
    have hlt : k < l.length := by
      by_contra hge
      rw [List.drop_eq_nil_of_le (by omega)] at hdrop
      cases hdrop
    rw [List.drop_eq_getElem_cons hlt] at hdrop
    cases hdrop
    obtain ⟨log', ho, h', hm', hk', hagree'⟩ :=
      overwrite_extends h hm hk (List.getElem?_eq_getElem hlt) hagree
    obtain ⟨log'', hfrom, h'', hall⟩ :=
      ih log' (k + 1) (idx + 1) h' hm' (by omega) hk' hlt rfl hagree'
    refine ⟨log'', ?_, h'', hall⟩
    rw [← hidx] at ho
    rw [overwriteFrom_cons ho, hfrom]

/-- Above the first entry, whatever a turn does leaves that entry alone. -/
theorem overwrite_keeps_first {log : Log C} (h : log.Indexed) {k : Nat} (hpos : 0 < k)
    (hk : k ≤ log.entries.length) (entry : Entry C) :
    ∃ log', log.overwrite k entry = some log' ∧ log'.Indexed ∧ k + 1 ≤ log'.entries.length ∧
      log'.entries[0]? = log.entries[0]? := by
  rcases Nat.lt_or_eq_of_le hk with hlt | heq
  · obtain ⟨held, hheld⟩ : ∃ held, log.entries[k]? = some held :=
      ⟨log.entries[k], List.getElem?_eq_getElem hlt⟩
    by_cases ht : held.term = entry.term
    · exact ⟨log, h.overwrite_same hheld ht, h, hlt, rfl⟩
    · have ho := h.overwrite_conflict hheld ht
      refine ⟨_, ho, h.overwrite_indexed hk ho, ?_, ?_⟩
      · rw [List.length_append, List.length_take, List.length_singleton]
        omega
      · rw [List.getElem?_append_left (by rw [List.length_take]; omega),
          List.getElem?_take_of_lt hpos]
  · have ho := h.overwrite_end entry
    rw [← heq] at ho
    refine ⟨_, ho, h.overwrite_indexed hk ho, ?_, ?_⟩
    · rw [List.length_append, List.length_singleton]
      omega
    · rw [List.getElem?_append_left (by omega)]

theorem overwriteFrom_keeps_first (rest : List (Entry C)) :
    ∀ (log : Log C) (k : Nat) (idx : Int), log.Indexed → idx + 1 = k → 0 < k →
      k ≤ log.entries.length →
      ∃ log', log.overwriteFrom idx rest = (log', true) ∧ log'.Indexed ∧
        log'.entries[0]? = log.entries[0]? := by
  induction rest with
  | nil =>
    intro log _ _ h _ _ _
    exact ⟨log, rfl, h, rfl⟩
  | cons entry rest ih =>
    intro log k idx h hidx hpos hk
    obtain ⟨log', ho, h', hk', hfirst⟩ := overwrite_keeps_first h hpos hk entry
    obtain ⟨log'', hfrom, h'', hfirst'⟩ := ih log' (k + 1) (idx + 1) h' (by omega) (by omega) hk'
    rw [← hidx] at ho
    exact ⟨log'', by rw [overwriteFrom_cons ho, hfrom], h'', hfirst'.trans hfirst⟩

/-- Behind a gap the entries are appended all the same, one index too low. -/
theorem overwriteFrom_gap (rest : List (Entry C)) :
    ∀ (log : Log C) (idx : Int), log.Indexed → idx = log.entries.length →
      ∃ log', log.overwriteFrom idx rest = (log', true) ∧ log'.Indexed ∧
        log'.entries = log.entries ++ rest := by
  induction rest with
  | nil =>
    intro log _ h _
    exact ⟨log, rfl, h, (List.append_nil _).symm⟩
  | cons entry rest ih =>
    intro log idx h hidx
    have ho : log.overwrite (idx + 1) entry =
        some {log with entries := log.entries ++ [entry], lastLogIndex := log.lastLogIndex + 1} := by
      unfold Log.overwrite
      rw [if_neg (by rw [h.first]; omega), if_neg (by rw [h.last]; omega), Width.wrap_unbounded]
    obtain ⟨log', hfrom, h', hall⟩ := ih
      {log with entries := log.entries ++ [entry], lastLogIndex := log.lastLogIndex + 1} (idx + 1)
      ⟨h.first, by simp [h.last]⟩ (by simp [hidx])
    refine ⟨log', by rw [overwriteFrom_cons ho, hfrom], h', ?_⟩
    rw [hall, List.append_assoc]
    rfl

/-! ### The message and the reply -/

/-- The term at an index the log has. -/
theorem getEntryTerm_nat {ld : Raft C} (hl : ld.log.Indexed) {k : Nat} {entry : Entry C}
    (hk : ld.log.entries[k]? = some entry) : ld.getEntryTerm k = some entry.term := by
  have hlt : k < ld.log.entries.length := (List.getElem?_eq_some_iff.mp hk).1
  unfold Raft.getEntryTerm
  rw [Width.wrap_unbounded, hl.first, hl.last, if_neg (by omega), if_neg (by omega), hl.getOneEntry_nat, hk]
  rfl

/-- What the leader sends to a peer whose `nextIndex` is `k`. -/
theorem appendEntriesArgs_eq {ld : Raft C} (hl : ld.log.Indexed) (hlead : ld.state = .leader)
    {target : Nat} {tracker : PeerTracker} (ht : ld.peerTrackers[target]? = some tracker) {k : Nat}
    (hk : tracker.nextIndex = k) (hlast : k ≤ ld.log.entries.length) :
    ∃ prevLogTerm, ld.appendEntriesArgs target =
        .entries ⟨ld.currentTerm, ld.me, k - 1, prevLogTerm, ld.log.entries.drop k, ld.commitIndex⟩ ∧
      ∀ entry, 0 < k → ld.log.entries[k - 1]? = some entry → prevLogTerm = entry.term := by
  have hmin : min ld.log.lastLogIndex (tracker.nextIndex - 1) = (k : Int) - 1 := by
    rw [hl.last, hk]
    omega
  have hsend : ld.log.getAppendEntries ((k : Int) - 1 + 1) = ld.log.entries.drop k := by
    rw [Int.sub_add_cancel]
    exact hl.getAppendEntries_nat k
  have hterm : ∃ t, ld.getEntryTerm ((k : Int) - 1) = some t ∧
      ∀ entry, 0 < k → ld.log.entries[k - 1]? = some entry → t = entry.term := by
    rcases Nat.eq_zero_or_pos k with rfl | hpos
    · -- in front of the log stands the snapshot
      refine ⟨ld.snapshotLastIncludeTerm, ?_, fun _ h0 => absurd h0 (by decide)⟩
      unfold Raft.getEntryTerm
      rw [hl.first]
      exact if_pos rfl
    · have hidx : (k : Int) - 1 = ((k - 1 : Nat) : Int) := by omega
      have hentry := List.getElem?_eq_getElem (show k - 1 < ld.log.entries.length by omega)
      rw [hidx, getEntryTerm_nat hl hentry]
      refine ⟨_, rfl, fun entry _ hsame => ?_⟩
      rw [hentry] at hsame
      rw [Option.some.inj hsame]
  obtain ⟨t, hget, ht'⟩ := hterm
  refine ⟨t, ?_, ht'⟩
  unfold Raft.appendEntriesArgs
  rw [if_neg (not_not_intro hlead), ht]
  simp only [Width.wrap_unbounded, hmin, hget, hsend]
  rw [if_neg (by rw [hl.first]; omega)]

theorem observeLeader_log (rf : Raft C) (term : Int) : (rf.observeLeader term).log = rf.log :=
  (rf.observeLeader_kept term).1

theorem followCommit_log (rf : Raft C) (commit : Int) : (rf.followCommit commit).log = rf.log := by
  unfold Raft.followCommit
  split <;> rfl

/-- What a success reply says, and the log it leaves. -/
theorem handle_success {rf : Raft C} {args : RequestAppendEntriesArgs C}
    {reply : RequestAppendEntriesReply} (h : (rf.handleAppendEntriesRPC args).2 = some reply)
    (hs : reply.success = true) :
    rf.dead = false ∧ rf.currentTerm ≤ args.leaderTerm ∧ rf.matchesPrev args = some true ∧
      (rf.handleAppendEntriesRPC args).1.log =
        (rf.log.overwriteFrom args.prevLogIndex args.entries).1 := by
  unfold Raft.handleAppendEntriesRPC at h ⊢
  cases hd : rf.dead
  · by_cases ht : args.leaderTerm < rf.currentTerm
    · simp only [hd, ht, if_true, Bool.false_eq_true, if_false] at h
      cases h
      cases hs
    · simp only [hd, ht, Bool.false_eq_true, if_false, Raft.matchesPrev_observeLeader,
        observeLeader_log] at h ⊢
      cases hp : rf.matchesPrev args with
      | none => simp [hp] at h
      | some ok =>
        cases ok
        · simp only [hp] at h
          cases h
          cases hs
        · simp only [hp] at h ⊢
          refine ⟨trivial, by omega, trivial, ?_⟩
          split
          · exact followCommit_log _ _
          · rfl
  · simp only [hd, if_true] at h
    cases h
    cases hs

/-- A live follower that passes the check and the loop replies with success. -/
theorem handle_accepts {rf : Raft C} {args : RequestAppendEntriesArgs C} {log' : Log C}
    (hd : rf.dead = false) (ht : ¬args.leaderTerm < rf.currentTerm)
    (hp : rf.matchesPrev args = some true)
    (hloop : rf.log.overwriteFrom args.prevLogIndex args.entries = (log', true)) :
    (∃ reply, (rf.handleAppendEntriesRPC args).2 = some reply ∧ reply.success = true) ∧
      (rf.handleAppendEntriesRPC args).1.log = log' := by
  unfold Raft.handleAppendEntriesRPC
  simp only [hd, ht, Bool.false_eq_true, if_false, Raft.matchesPrev_observeLeader, hp,
    observeLeader_log, hloop, if_true]
  exact ⟨⟨_, rfl, rfl⟩, followCommit_log _ _⟩

/-! ### The step -/

section Step
variable {ld rf : Raft C} (hl : ld.log.Indexed) (hf : rf.log.Indexed)
  (hlead : ld.state = .leader) {target : Nat} {tracker : PeerTracker}
  (ht : ld.peerTrackers[target]? = some tracker) {k : Nat} (hk : tracker.nextIndex = k)
  (hlast : k ≤ ld.log.entries.length)
include hl hf hlead ht hk hlast

/-- With the entry before the new ones agreed on, an accepted message is justified. -/
theorem justified_of_agree (hm : Matching ld.log rf.log)
    (hagree : ∀ args reply, ld.appendEntriesArgs target = .entries args →
      (rf.handleAppendEntriesRPC args).2 = some reply → reply.success = true →
      k ≤ rf.log.entries.length ∧ rf.log.entries.take k = ld.log.entries.take k) :
    Justified ld rf target := by
  intro args reply hargs hreply hs
  obtain ⟨hlen, htake⟩ := hagree args reply hargs hreply hs
  obtain ⟨_, _, _, hlog⟩ := handle_success hreply hs
  obtain ⟨prevLogTerm, heq, _⟩ := appendEntriesArgs_eq hl hlead ht hk hlast
  rw [heq] at hargs
  cases hargs
  obtain ⟨log', hloop, hi, hall⟩ := overwriteFrom_extends (ld.log.entries.drop k) rf.log k (k - 1) hf
    (hm.matches hl hf) (by omega) hlen hlast rfl htake
  have hend : (k : Int) - 1 + ((ld.log.entries.drop k).length : Int) = ld.log.entries.length - 1 := by
    rw [List.length_drop]
    omega
  rw [hlog, hloop]
  show HoldsUpTo log' ld.log ((k : Int) - 1 + ((ld.log.entries.drop k).length : Int))
  rw [hend]
  exact (holdsUpTo_iff hi hl).mpr hall

/-- Past index 1 the check has established that. -/
theorem agree_of_check (hm : Matching ld.log rf.log) (hne : k ≠ 1)
    {args : RequestAppendEntriesArgs C} {reply : RequestAppendEntriesReply}
    (hargs : ld.appendEntriesArgs target = .entries args)
    (hreply : (rf.handleAppendEntriesRPC args).2 = some reply) (hs : reply.success = true) :
    k ≤ rf.log.entries.length ∧ rf.log.entries.take k = ld.log.entries.take k := by
  obtain ⟨prevLogTerm, heq, hterm⟩ := appendEntriesArgs_eq hl hlead ht hk hlast
  obtain ⟨_, _, hprev, _⟩ := handle_success hreply hs
  rw [heq] at hargs
  cases hargs
  rcases Nat.eq_zero_or_pos k with rfl | hpos
  · exact ⟨Nat.zero_le _, rfl⟩
  · obtain ⟨j, rfl⟩ : ∃ j, k = j + 1 := ⟨k - 1, by omega⟩
    have hj : ((j + 1 : Nat) : Int) - 1 = (j : Int) := by omega
    simp only [Raft.matchesPrev, hj] at hprev
    rw [if_pos (by omega)] at hprev
    split at hprev
    · cases hprev
    · rename_i hin
      rw [hf.last] at hin
      have hlt : j < rf.log.entries.length := by omega
      rw [hf.getOneEntry_nat, List.getElem?_eq_getElem hlt] at hprev
      have hsame := of_decide_eq_true (Option.some.inj hprev)
      have hheld : ld.log.entries[j]? = some ld.log.entries[j] := List.getElem?_eq_getElem hlast
      rw [hterm _ hpos hheld] at hsame
      exact ⟨hlt, hm.matches hl hf j _ _ hheld (List.getElem?_eq_getElem hlt) hsame.symm⟩

/-- Sent from index 1, the entries land beside or above a different first entry. -/
theorem unjustified_start (hone : k = 1) (hd : rf.dead = false)
    (hterm : ¬ld.currentTerm < rf.currentTerm) (hstart : ¬SameStart ld.log rf.log) :
    ¬Justified ld rf target := by
  subst hone
  intro h
  obtain ⟨prevLogTerm, heq, _⟩ := appendEntriesArgs_eq hl hlead ht hk hlast
  have hprev : rf.matchesPrev ⟨ld.currentTerm, ld.me, ((1 : Nat) : Int) - 1, prevLogTerm,
      ld.log.entries.drop 1, ld.commitIndex⟩ = some true := rfl
  have hend : ((1 : Nat) : Int) - 1 + ((ld.log.entries.drop 1).length : Int) =
      ld.log.entries.length - 1 := by
    rw [List.length_drop]
    omega
  rcases Nat.eq_zero_or_pos rf.log.entries.length with hempty | hpos
  · obtain ⟨log', hloop, hi, hall⟩ :=
      overwriteFrom_gap (ld.log.entries.drop 1) rf.log (((1 : Nat) : Int) - 1) hf (by omega)
    obtain ⟨⟨reply, hreply, hs⟩, hlog⟩ := handle_accepts hd hterm hprev hloop
    have hholds := h _ reply heq hreply hs
    rw [hlog] at hholds
    simp only [hend] at hholds
    -- the follower ends up one entry short
    have hlen := congrArg List.length ((holdsUpTo_iff hi hl).mp hholds)
    rw [hall, List.length_take, List.length_append, List.length_drop, hempty] at hlen
    omega
  · obtain ⟨log', hloop, hi, hfirst⟩ := overwriteFrom_keeps_first (ld.log.entries.drop 1) rf.log 1
      (((1 : Nat) : Int) - 1) hf (by omega) (by omega) hpos
    obtain ⟨⟨reply, hreply, hs⟩, hlog⟩ := handle_accepts hd hterm hprev hloop
    have hholds := h _ reply heq hreply hs
    rw [hlog] at hholds
    simp only [hend] at hholds
    obtain ⟨entry, hle, hfe⟩ := hholds 0 (Int.le_refl _) (by omega)
    refine hstart ⟨entry, entry, hle, ?_, rfl⟩
    have hzero := hi.getOneEntry_nat 0
    rw [hfirst, ← hf.getOneEntry_nat 0] at hzero
    exact hzero.symm.trans hfe

end Step

/-- **An accepted replication message is justified exactly if** it does not start at
index 1, or the follower rejects the leader outright, or both logs have a first
entry of the same term. -/
theorem replication_justified (ld rf : Raft C) (hl : ld.log.Indexed) (hf : rf.log.Indexed)
    (hm : Matching ld.log rf.log) (hlead : ld.state = .leader) (target : Nat)
    (tracker : PeerTracker) (ht : ld.peerTrackers[target]? = some tracker)
    (h0 : 0 ≤ tracker.nextIndex) (hlast : tracker.nextIndex ≤ ld.log.lastLogIndex + 1) :
    Justified ld rf target ↔
      tracker.nextIndex ≠ 1 ∨ rf.dead = true ∨ ld.currentTerm < rf.currentTerm ∨
        SameStart ld.log rf.log := by
  obtain ⟨k, hk⟩ := Int.eq_ofNat_of_zero_le h0
  have hkl : k ≤ ld.log.entries.length := by
    rw [hl.last] at hlast
    omega
  constructor
  · intro h
    by_contra hno
    push Not at hno
    obtain ⟨hone, hd, hterm, hstart⟩ := hno
    exact unjustified_start hl hf hlead ht hk hkl (by omega) (Bool.eq_false_iff.mpr hd)
      (by omega) hstart h
  · intro h
    apply justified_of_agree hl hf hlead ht hk hkl hm
    intro args reply hargs hreply hs
    by_cases hone : k = 1
    · obtain ⟨hd, hterm, _, _⟩ := handle_success hreply hs
      obtain ⟨_, heq, _⟩ := appendEntriesArgs_eq hl hlead ht hk hkl
      rw [heq] at hargs
      cases hargs
      rcases h with h | h | h | ⟨a, b, ha, hb, hab⟩
      · exact absurd (by omega) h
      · rw [hd] at h
        cases h
      · exact absurd hterm (Int.not_le.mpr h)
      · subst hone
        have hb' := hf.getOneEntry_nat 0
        have ha' := hl.getOneEntry_nat 0
        exact ⟨(List.getElem?_eq_some_iff.mp (hb'.symm.trans hb)).1,
          hm.matches hl hf 0 a b (ha'.symm.trans ha) (hb'.symm.trans hb) hab⟩
    · exact agree_of_check hl hf hlead ht hk hkl hm hone hargs hreply hs

/-- A node elected for term 2 over a log of one entry, after one `Start`; `next` is
what it tracks for its peer. -/
def leaderOfTwo (next : Int) : Raft Nat :=
  {Raft.make ["a", "b"] 1 makePersister with
    state := .leader
    currentTerm := 2
    log := ⟨[⟨1, 10⟩, ⟨2, 20⟩], 0, 1⟩
    peerTrackers := [⟨1, 0⟩, ⟨next, 0⟩]}

theorem matching_newLog (l : Log C) : Matching l Log.newLog := by
  intro i a b _ hb
  have hnone : (Log.newLog : Log C).getOneEntry i = none := by
    by_cases hi : i < 0
    · exact Log.newLog_indexed.getOneEntry_neg hi
    · obtain ⟨k, rfl⟩ := Int.eq_ofNat_of_zero_le (Int.not_lt.mp hi)
      exact Log.newLog_indexed.getOneEntry_nat k
  rw [hnone] at hb
  cases hb

/-- Sent from index 0, both entries reach a fresh follower. -/
theorem replication_justified_fresh :
    (∃ args, (leaderOfTwo 0).appendEntriesArgs 1 = .entries args ∧
      ((Raft.make ["a", "b"] 2 makePersister).handleAppendEntriesRPC args).2 =
        some ⟨2, true, 0, 0⟩) ∧
      Justified (leaderOfTwo 0) (Raft.make ["a", "b"] 2 makePersister) 1 :=
  ⟨⟨_, rfl, by decide⟩,
    (replication_justified (leaderOfTwo 0) (Raft.make ["a", "b"] 2 makePersister) ⟨rfl, rfl⟩
      ⟨rfl, rfl⟩ (matching_newLog _) rfl 1 ⟨0, 0⟩ rfl (by decide) (by decide)).mpr
      (Or.inl (by decide))⟩

/-- With `nextIndex` as the election left it, a fresh follower takes the second entry
for its first and reports success. -/
theorem unjustified_success :
    ¬∀ (ld rf : Raft Nat) (target : Nat) (tracker : PeerTracker), ld.log.Indexed → rf.log.Indexed →
      (∀ entry ∈ ld.log.entries ++ rf.log.entries, 1 ≤ entry.term) → Matching ld.log rf.log →
      ld.state = .leader → ld.peerTrackers[target]? = some tracker →
      0 ≤ tracker.nextIndex → tracker.nextIndex ≤ ld.log.lastLogIndex + 1 →
      Justified ld rf target := by
  intro h
  have hholds := h (leaderOfTwo 1) (Raft.make ["a", "b"] 2 makePersister) 1 ⟨1, 0⟩ ⟨rfl, rfl⟩
    ⟨rfl, rfl⟩ (by decide) (matching_newLog _) rfl rfl (by decide) (by decide) _ _ rfl rfl rfl
  obtain ⟨entry, hl, hf⟩ := hholds 0 (by decide) (by decide)
  have h1 : some entry = some ⟨1, 10⟩ := hl.symm.trans (by decide)
  have h2 : some entry = some ⟨2, 20⟩ := hf.symm.trans (by decide)
  exact absurd (h1.symm.trans h2) (by decide)

end Wjetcd.Replication
