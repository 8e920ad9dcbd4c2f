import Wjetcd.Raft.Replication
import Wjetcd.Raft.Outcomes

/-! What a follower makes of messages that come too early or too late.

A message for which the follower's log is too short, or holds another entry before
the new ones, is rejected, and the leader has to back off. Its failure branch is
written for a reply that names the conflicting entry, and `handleAppendEntriesRPC`
leaves both fields zero: read as a hint, the reply says that the follower's entry
at index 0 has term 0, so the loop over the leader's own first term goes below the
log's start and the next message carries the whole log (`retryIndex_zero`). It is
not checked against anything, so the follower accepts it and ends with the
leader's log (`catch_up_after_rejection`).

A message the follower has handled before, or one sent before it learned more, is
accepted again. Every turn of the loop finds an entry of the term it brings, so
nothing is cut or appended, however often it comes (`late_append_harmless`). -/
namespace Wjetcd.Replication

variable {C : Type}

/-! ### The loop over a beginning -/

/-- A turn changes nothing, or makes the entry the last one. -/
theorem overwrite_length {log log' : Log C} (h : log.Indexed) {k : Nat} {entry : Entry C}
    (hk : k ≤ log.entries.length) (ho : log.overwrite k entry = some log') :
    log' = log ∨ log'.entries.length = k + 1 := by
  rcases Nat.lt_or_eq_of_le hk with hlt | heq
  · obtain ⟨held, hheld⟩ : ∃ held, log.entries[k]? = some held :=
      ⟨log.entries[k], List.getElem?_eq_getElem hlt⟩
    by_cases ht : held.term = entry.term
    · rw [h.overwrite_same hheld ht] at ho
      exact Or.inl (Option.some.inj ho).symm
    · rw [h.overwrite_conflict hheld ht] at ho
      cases ho
      right
      rw [List.length_append, List.length_take, List.length_singleton]
      omega
  · rw [heq, h.overwrite_end] at ho
    cases ho
    right
    rw [List.length_append, List.length_singleton, heq]

/-- The loop over everything `l` has from `k` on changes nothing, or ends where `l` does. -/
theorem overwriteFrom_length {l : List (Entry C)} (rest : List (Entry C)) :
    ∀ (log : Log C) (k : Nat) (idx : Int), log.Indexed → Matches l log.entries → idx + 1 = k →
      k ≤ log.entries.length → l.drop k = rest → log.entries.take k = l.take k →
      (log.overwriteFrom idx rest).1 = log ∨
        (log.overwriteFrom idx rest).1.entries.length = l.length := by
  induction rest with
  | nil => exact fun log _ _ _ _ _ _ _ _ => Or.inl rfl
  | cons entry rest ih =>
    intro log k idx h hm hidx hk hdrop hagree
    have hlt : k < l.length := by
      by_contra hge
      rw [List.drop_eq_nil_of_le (by omega)] at hdrop
      cases hdrop
    rw [List.drop_eq_getElem_cons hlt] at hdrop
    cases hdrop
    obtain ⟨log', ho, h', hm', hk', hagree'⟩ :=
      overwrite_extends h hm hk (List.getElem?_eq_getElem hlt) hagree
    have hturn := overwrite_length h hk ho
    rw [← hidx] at ho
    rw [overwriteFrom_cons ho]
    rcases ih log' (k + 1) (idx + 1) h' hm' (by omega) hk' rfl hagree' with hsame | hend
    · rw [hsame]
      rcases hturn with heq | hlen
      · exact Or.inl heq
      · -- nothing came after the turn that set the end, so it was the last one
        obtain ⟨log'', hfrom, _, hall⟩ := overwriteFrom_extends (l.drop (k + 1)) log' (k + 1) (idx + 1)
          h' hm' (by omega) hk' hlt rfl hagree'
        have heq : log'' = log' := by rw [hfrom] at hsame; exact hsame
        have hle := congrArg List.length hall
        rw [List.length_take, heq] at hle
        exact Or.inr (by omega)
    · exact Or.inr hend

/-! ### Backing off -/

/-- A reply that names nothing sends the leader back to the start of its log. -/
theorem retryIndex_zero {ld : Raft C} (hl : ld.log.Indexed) {entry : Entry C}
    (hfirst : ld.log.entries[0]? = some entry) (hterm : 1 ≤ entry.term) (followerTerm : Int)
    (success : Bool) : ld.retryIndex ⟨followerTerm, success, 0, 0⟩ = some (some 0) := by
  have hlen : 0 < ld.log.entries.length := (List.getElem?_eq_some_iff.mp hfirst).1
  have hget : ld.getEntryTerm 0 = some entry.term := getEntryTerm_nat hl hfirst
  have hempty : ld.log.empty = false := by
    rw [Log.empty, hl.first, hl.last, decide_eq_false_iff_not]
    omega
  have hskip : ld.skipTerm entry.term ((0 : Int) - 0 + 1).toNat 0 = some (-1) := by
    show ld.skipTerm entry.term 1 0 = some (-1)
    simp only [Raft.skipTerm, hl.first, hget, ge_iff_le, Int.le_refl, if_true, Int.zero_sub, Width.wrap_unbounded]
  unfold Raft.retryIndex
  simp only [hempty, hl.first, hl.last, hget, hskip, Bool.false_eq_true, if_false, Width.wrap_unbounded]
  rw [if_neg (by omega), if_neg (by omega), if_neg (by omega), if_neg (by omega)]
  rfl

/-- A live follower that rejects a message in the leader's term names nothing, and
keeps its log. -/
theorem handle_rejects {rf : Raft C} {args : RequestAppendEntriesArgs C}
    {reply : RequestAppendEntriesReply} (hd : rf.dead = false)
    (h : (rf.handleAppendEntriesRPC args).2 = some reply) (hs : reply.success = false)
    (hterm : reply.followerTerm = args.leaderTerm) :
    rf.currentTerm ≤ args.leaderTerm ∧ reply = ⟨args.leaderTerm, false, 0, 0⟩ ∧
      (rf.handleAppendEntriesRPC args).1 = rf.observeLeader args.leaderTerm := by
  have hle : rf.currentTerm ≤ args.leaderTerm := by
    by_contra hlt
    have hgt : args.leaderTerm < rf.currentTerm := by omega
    simp only [Raft.handleAppendEntriesRPC, hd, hgt, Bool.false_eq_true, if_false, if_true] at h
    cases h
    exact hlt (Int.le_of_eq hterm)
  have hlt : ¬args.leaderTerm < rf.currentTerm := by omega
  simp only [Raft.handleAppendEntriesRPC, hd, hlt, Bool.false_eq_true, if_false] at h ⊢
  refine ⟨hle, ?_⟩
  cases hprev : (rf.observeLeader args.leaderTerm).matchesPrev args with
  | none =>
    rw [hprev] at h
    cases h
  | some agrees =>
    cases agrees with
    | false =>
      rw [hprev] at h
      cases h
      refine ⟨?_, rfl⟩
      rw [RequestAppendEntriesReply.mk.injEq]
      exact ⟨hterm, rfl, rfl, rfl⟩
    | true =>
      rw [hprev] at h
      dsimp only at h
      split at h
      · cases h
        cases hs
      · cases h

theorem observeLeader_term (rf : Raft C) {term : Int} (h : rf.currentTerm ≤ term) :
    (rf.observeLeader term).currentTerm = term ∧ (rf.observeLeader term).dead = rf.dead := by
  unfold Raft.observeLeader
  dsimp only
  split
  · exact ⟨Raft.persist_currentTerm _, Raft.persist_dead _⟩
  · exact ⟨by omega, rfl⟩

/-- The leader's branch for such a reply: only `nextIndex` changes, to 0. -/
theorem appendReply_rejected {ld : Raft C} (hl : ld.log.Indexed) (hlead : ld.state = .leader)
    {entry : Entry C} (hfirst : ld.log.entries[0]? = some entry) (hterm : 1 ≤ entry.term)
    {target : Nat} {tracker : PeerTracker} (ht : ld.peerTrackers[target]? = some tracker)
    (args : RequestAppendEntriesArgs C) :
    ld.appendReply target args ⟨ld.currentTerm, false, 0, 0⟩ =
      some (ld.setTracker target {tracker with nextIndex := 0}) := by
  unfold Raft.appendReply
  rw [if_neg (not_not_intro hlead), if_neg (Int.lt_irrefl _), if_neg (Int.lt_irrefl _), ht,
    retryIndex_zero hl hfirst hterm]
  rfl

/-- What it sends from there is its whole log. -/
theorem appendEntriesArgs_start {ld : Raft C} (hl : ld.log.Indexed) (hlead : ld.state = .leader)
    {target : Nat} {tracker : PeerTracker} (ht : ld.peerTrackers[target]? = some tracker) :
    ∃ prevLogTerm, (ld.setTracker target {tracker with nextIndex := 0}).appendEntriesArgs target =
      .entries ⟨ld.currentTerm, ld.me, -1, prevLogTerm, ld.log.entries, ld.commitIndex⟩ := by
  have hlt : target < ld.peerTrackers.length := (List.getElem?_eq_some_iff.mp ht).1
  have hset : (ld.setTracker target {tracker with nextIndex := 0}).peerTrackers[target]? =
      some {tracker with nextIndex := 0} := List.getElem?_set_self hlt
  have hl' : (ld.setTracker target {tracker with nextIndex := 0}).log.Indexed := hl
  have hlead' : (ld.setTracker target {tracker with nextIndex := 0}).state = .leader := hlead
  have hzero : ({tracker with nextIndex := 0} : PeerTracker).nextIndex = (0 : Nat) := rfl
  obtain ⟨prevLogTerm, heq, _⟩ := appendEntriesArgs_eq hl' hlead' hset hzero (Nat.zero_le _)
  exact ⟨prevLogTerm, heq⟩

/-- Sent the whole log, a follower whose log matches keeps what it has if that reaches
as far, and is left with the leader's log otherwise. -/
theorem overwriteFrom_start {l f : Log C} (hl : l.Indexed) (hf : f.Indexed) (hm : Matching l f) :
    ∃ log', f.overwriteFrom (-1) l.entries = (log', true) ∧ HoldsUpTo log' l l.lastLogIndex ∧
      (l.lastLogIndex < log'.lastLogIndex → log' = f) := by
  obtain ⟨log', hfrom, hi, hall⟩ := overwriteFrom_extends l.entries f 0 (-1) hf (hm.matches hl hf) rfl
    (Nat.zero_le _) (Nat.zero_le _) rfl rfl
  have hend := overwriteFrom_length l.entries f 0 (-1) hf (hm.matches hl hf) rfl
    (Nat.zero_le _) rfl rfl
  rw [hfrom] at hend
  refine ⟨log', hfrom, ?_, ?_⟩
  · rw [hl.last]
    exact (holdsUpTo_iff hi hl).mpr hall
  · intro hbeyond
    rcases hend with hsame | hlen
    · exact hsame
    · rw [hl.last, hi.last, hlen] at hbeyond
      omega

/-- **After a rejection the next message goes through**: the leader's failure branch
leaves a `nextIndex` from which it sends what the follower accepts, and the follower
then holds the leader's entry at every index of the leader's log. It has entries
beyond only if it agreed on all of those before and was left as it was. -/
theorem catch_up_after_rejection (ld rf : Raft C) (hl : ld.log.Indexed) (hf : rf.log.Indexed)
    (hne : ld.log.entries ≠ []) (hterms : ∀ entry ∈ ld.log.entries, 1 ≤ entry.term)
    (hm : Matching ld.log rf.log) (hd : rf.dead = false) (target : Nat) (tracker : PeerTracker)
    (ht : ld.peerTrackers[target]? = some tracker) (h0 : 0 ≤ tracker.nextIndex)
    (hlast : tracker.nextIndex ≤ ld.log.lastLogIndex + 1) (args : RequestAppendEntriesArgs C)
    (hargs : ld.appendEntriesArgs target = .entries args) (reply : RequestAppendEntriesReply)
    (hreply : (rf.handleAppendEntriesRPC args).2 = some reply) (hs : reply.success = false)
    (hterm : reply.followerTerm = ld.currentTerm) :
    ∃ ld' args' reply', ld.appendReply target args reply = some ld' ∧
      ld'.appendEntriesArgs target = .entries args' ∧
      ((rf.handleAppendEntriesRPC args).1.handleAppendEntriesRPC args').2 = some reply' ∧
      reply'.success = true ∧
      HoldsUpTo ((rf.handleAppendEntriesRPC args).1.handleAppendEntriesRPC args').1.log ld.log
        ld.log.lastLogIndex ∧
      (ld.log.lastLogIndex <
          ((rf.handleAppendEntriesRPC args).1.handleAppendEntriesRPC args').1.log.lastLogIndex →
        HoldsUpTo rf.log ld.log ld.log.lastLogIndex ∧
          ((rf.handleAppendEntriesRPC args).1.handleAppendEntriesRPC args').1.log = rf.log) := by
  have hlead : ld.state = .leader := by
    by_contra hno
    rw [Raft.appendEntriesArgs, if_pos hno] at hargs
    cases hargs
  obtain ⟨k, hk⟩ := Int.eq_ofNat_of_zero_le h0
  have hkl : k ≤ ld.log.entries.length := by
    rw [hl.last] at hlast
    omega
  obtain ⟨prevLogTerm, heq, _⟩ := appendEntriesArgs_eq hl hlead ht hk hkl
  have hleader : args.leaderTerm = ld.currentTerm := by
    rw [heq] at hargs
    cases hargs
    rfl
  obtain ⟨hle, rfl, hnode⟩ := handle_rejects hd hreply hs (hterm.trans hleader.symm)
  obtain ⟨hnow, hdead⟩ := observeLeader_term rf hle
  have hfirst : ld.log.entries[0]? = some (ld.log.entries.head hne) := by
    rw [← List.head?_eq_getElem?, List.head?_eq_some_head hne]
  have hretry := appendReply_rejected hl hlead hfirst (hterms _ (List.head_mem hne)) ht args
  obtain ⟨prevLogTerm', hsecond⟩ := appendEntriesArgs_start hl hlead ht
  obtain ⟨log', hloop, hholds, hbeyond⟩ := overwriteFrom_start hl hf hm
  rw [← observeLeader_log rf args.leaderTerm] at hloop
  -- nothing is checked before index 0
  have hprev : (rf.observeLeader args.leaderTerm).matchesPrev
      ⟨ld.currentTerm, ld.me, -1, prevLogTerm', ld.log.entries, ld.commitIndex⟩ = some true := rfl
  obtain ⟨⟨reply', hreply', hs'⟩, hlog⟩ := handle_accepts (hdead.trans hd)
    (by rw [hnow, hleader]; exact Int.lt_irrefl _) hprev hloop
  rw [hnode]
  refine ⟨_, _, reply', by rw [hleader]; exact hretry, hsecond, hreply', hs', ?_, ?_⟩
  · rw [hlog]
    exact hholds
  · rw [hlog]
    intro hlonger
    have hsame := hbeyond hlonger
    rw [hsame] at hholds
    exact ⟨hholds, hsame⟩

/-- A fresh follower rejects the third message of a leader with two entries, and takes
both entries from the next one. -/
theorem catch_up_after_rejection_fresh :
    ∃ args, (leaderOfTwo 2).appendEntriesArgs 1 = .entries args ∧
      ((Raft.make ["a", "b"] 2 makePersister).handleAppendEntriesRPC args).2 =
        some ⟨2, false, 0, 0⟩ ∧
      ∃ ld' args' reply', (leaderOfTwo 2).appendReply 1 args ⟨2, false, 0, 0⟩ = some ld' ∧
        ld'.appendEntriesArgs 1 = .entries args' ∧
        (((Raft.make ["a", "b"] 2 makePersister).handleAppendEntriesRPC args).1.handleAppendEntriesRPC
          args').2 = some reply' ∧ reply'.success = true := by
  refine ⟨_, rfl, by decide, ?_⟩
  obtain ⟨ld', args', reply', hretry, hsecond, hreply, hs, _⟩ :=
    catch_up_after_rejection (leaderOfTwo 2) (Raft.make ["a", "b"] 2 makePersister) ⟨rfl, rfl⟩
      ⟨rfl, rfl⟩ (by decide) (by decide) (matching_newLog _) rfl 1 ⟨2, 0⟩ rfl (by decide) (by decide)
      _ rfl ⟨2, false, 0, 0⟩ (by decide) rfl rfl
  exact ⟨ld', args', reply', hretry, hsecond, hreply, hs⟩

/-! ### Messages that come late -/

/-- What a message says about the log it was built from. -/
theorem appendEntriesArgs_built {ld : Raft C} (hl : ld.log.Indexed) {target : Nat}
    {args : RequestAppendEntriesArgs C} (h : ld.appendEntriesArgs target = .entries args) :
    ∃ k : Nat, k ≤ ld.log.entries.length ∧ args.prevLogIndex = (k : Int) - 1 ∧
      args.entries = ld.log.entries.drop k ∧
      ∀ entry, 0 < k → ld.log.entries[k - 1]? = some entry → args.prevLogTerm = entry.term := by
  unfold Raft.appendEntriesArgs at h
  split at h
  · cases h
  cases ht : ld.peerTrackers[target]? with
  | none =>
    rw [ht] at h
    cases h
  | some tracker =>
    simp only [ht, Width.wrap_unbounded] at h
    split at h
    · cases h
    rename_i hstart
    have hlast : min ld.log.lastLogIndex (tracker.nextIndex - 1) ≤ ld.log.entries.length - 1 := by
      rw [← hl.last]
      exact Int.min_le_left _ _
    rw [hl.first] at hstart
    obtain ⟨k, hk⟩ := Int.eq_ofNat_of_zero_le (Int.not_lt.mp hstart)
    have hprev : min ld.log.lastLogIndex (tracker.nextIndex - 1) = (k : Int) - 1 := by omega
    rw [hprev] at h hlast
    cases hterm : ld.getEntryTerm ((k : Int) - 1) with
    | none =>
      simp only [hterm] at h
      cases h
    | some prevLogTerm =>
      simp only [hterm] at h
      cases h
      refine ⟨k, by omega, rfl, ?_, ?_⟩
      · show ld.log.getAppendEntries ((k : Int) - 1 + 1) = _
        rw [Int.sub_add_cancel]
        exact hl.getAppendEntries_nat k
      · intro entry hpos hentry
        have hidx : (k : Int) - 1 = ((k - 1 : Nat) : Int) := by omega
        rw [hidx, getEntryTerm_nat hl hentry] at hterm
        exact (Option.some.inj hterm).symm

/-- A loop that finds an entry of the term it brings at every turn changes nothing. -/
theorem overwriteFrom_held {log : Log C} (entries : List (Entry C)) : ∀ idx : Int,
    idx + entries.length ≤ log.lastLogIndex →
    (∀ (i : Nat) (entry : Entry C), entries[i]? = some entry →
      ∃ held, log.getOneEntry (idx + 1 + i) = some held ∧ held.term = entry.term) →
    log.overwriteFrom idx entries = (log, true) := by
  induction entries with
  | nil => exact fun _ _ _ => rfl
  | cons entry rest ih =>
    intro idx hlast hheld
    obtain ⟨held, hget, ht⟩ := hheld 0 entry rfl
    rw [Int.natCast_zero, Int.add_zero] at hget
    rw [List.length_cons] at hlast
    have hturn : log.overwrite (idx + 1) entry = some log := by
      unfold Log.overwrite
      split
      · rfl
      · rw [if_pos (by omega), hget]
        simp only [ht, ne_eq, not_true, if_false]
    rw [overwriteFrom_cons hturn]
    refine ih (idx + 1) (by omega) ?_
    intro i entry' hi
    obtain ⟨held', hget', ht'⟩ := hheld (i + 1) entry' hi
    exact ⟨held', by rw [← hget']; congr 1; omega, ht'⟩

/-- A message whose entries are all there is accepted, and raises `CommitIndex` at most. -/
theorem handle_held {rf : Raft C} {args : RequestAppendEntriesArgs C} (hd : rf.dead = false)
    (hterm : rf.currentTerm = args.leaderTerm) (hprev : rf.matchesPrev args = some true)
    (hloop : rf.log.overwriteFrom args.prevLogIndex args.entries = (rf.log, true))
    (hcommit : args.leaderCommit ≤ rf.log.lastLogIndex) :
    rf.handleAppendEntriesRPC args =
      ({rf with state := .follower, commitIndex := max rf.commitIndex args.leaderCommit},
        some ⟨args.leaderTerm, true, 0, 0⟩) := by
  have hobserve : rf.observeLeader args.leaderTerm = {rf with state := .follower} := by
    rw [Raft.observeLeader, if_neg (by omega)]
  have hfollow : ({rf with state := .follower} : Raft C).followCommit args.leaderCommit =
      {rf with state := .follower, commitIndex := max rf.commitIndex args.leaderCommit} := by
    unfold Raft.followCommit
    split
    · rename_i hgt
      rw [Int.min_eq_left hcommit, Int.max_eq_right (Int.le_of_lt hgt)]
    · rename_i hgt
      rw [Int.max_eq_left (Int.not_lt.mp hgt)]
  unfold Raft.handleAppendEntriesRPC
  rw [if_neg (by rw [hd]; decide), if_neg (by omega)]
  simp only [Raft.matchesPrev_observeLeader, hprev]
  rw [hobserve]
  simp only [hloop, if_true]
  rw [hfollow, hterm]

/-- The follower after the same message has been handled `n` times. -/
def redelivered (rf : Raft C) (args : RequestAppendEntriesArgs C) : Nat → Raft C
  | 0 => rf
  | n + 1 => ((redelivered rf args n).handleAppendEntriesRPC args).1

/-- From the second time on it changes nothing at all. -/
theorem redelivered_held {rf : Raft C} {args : RequestAppendEntriesArgs C} (hd : rf.dead = false)
    (hterm : rf.currentTerm = args.leaderTerm) (hprev : rf.matchesPrev args = some true)
    (hloop : rf.log.overwriteFrom args.prevLogIndex args.entries = (rf.log, true))
    (hcommit : args.leaderCommit ≤ rf.log.lastLogIndex) (n : Nat) :
    ((redelivered rf args n).handleAppendEntriesRPC args).2 = some ⟨args.leaderTerm, true, 0, 0⟩ ∧
      redelivered rf args (n + 1) =
        {rf with state := .follower, commitIndex := max rf.commitIndex args.leaderCommit} := by
  induction n with
  | zero =>
    have hone := handle_held hd hterm hprev hloop hcommit
    exact ⟨congrArg Prod.snd hone, congrArg Prod.fst hone⟩
  | succ n ih =>
    have hagain : ({rf with
        state := .follower
        commitIndex := max rf.commitIndex args.leaderCommit} : Raft C).handleAppendEntriesRPC args =
        ({rf with
          state := .follower
          commitIndex := max (max rf.commitIndex args.leaderCommit) args.leaderCommit},
          some ⟨args.leaderTerm, true, 0, 0⟩) :=
      handle_held hd hterm hprev hloop hcommit
    have hmax : max (max rf.commitIndex args.leaderCommit) args.leaderCommit =
        max rf.commitIndex args.leaderCommit := Int.max_eq_left (Int.le_max_right _ _)
    rw [hmax] at hagain
    have hnext : redelivered rf args (n + 1 + 1) =
        ((redelivered rf args (n + 1)).handleAppendEntriesRPC args).1 := rfl
    rw [hnext, ih.2, hagain]
    exact ⟨rfl, rfl⟩

/-- A follower that holds the entries of the log from which a message was built agrees with
it before the message's entries and finds nothing to overwrite in them. -/
theorem built_held {ld rf : Raft C} (hl : ld.log.Indexed) {target : Nat} {args : RequestAppendEntriesArgs C}
    (hargs : ld.appendEntriesArgs target = .entries args)
    (hlast : ld.log.lastLogIndex ≤ rf.log.lastLogIndex)
    (hheld : ∀ (i : Nat) (entry : Entry C), ld.log.entries[i]? = some entry →
      rf.log.getOneEntry i = some entry) :
    rf.matchesPrev args = some true ∧
      rf.log.overwriteFrom args.prevLogIndex args.entries = (rf.log, true) ∧
      args.prevLogIndex + args.entries.length ≤ rf.log.lastLogIndex := by
  obtain ⟨k, hk, hprev, hentries, hprevTerm⟩ := appendEntriesArgs_built hl hargs
  rw [hl.last] at hlast
  have hend : args.prevLogIndex + args.entries.length ≤ rf.log.lastLogIndex := by
    rw [hentries, List.length_drop]
    omega
  refine ⟨?_, overwriteFrom_held args.entries args.prevLogIndex hend ?_, hend⟩
  · unfold Raft.matchesPrev
    by_cases hpos : args.prevLogIndex > 0
    · have hentry : ld.log.entries[k - 1]? = some ld.log.entries[k - 1] :=
        List.getElem?_eq_getElem (by omega)
      have hidx : args.prevLogIndex = ((k - 1 : Nat) : Int) := by omega
      rw [if_pos hpos, if_neg (by omega), hidx, hheld _ _ hentry, hprevTerm _ (by omega) hentry]
      simp
    · rw [if_neg hpos]
  · intro i entry hi
    rw [hentries, List.getElem?_drop] at hi
    have hidx : args.prevLogIndex + 1 + i = ((k + i : Nat) : Int) := by omega
    exact ⟨entry, by rw [hidx]; exact hheld _ _ hi, rfl⟩

/-- **A message built from an earlier log is harmless however often it comes**: a
follower of the same term that holds the entries of that log replies with success
each time, keeps its log as it is, and changes `CommitIndex` only to raise it to at
most `LeaderCommit`. The leader's log may have grown to `l` since. -/
theorem late_append_harmless (ld rf : Raft C) (l : List (Entry C)) (hl : ld.log.Indexed)
    (hearlier : ld.log.entries <+: l) (target : Nat) (args : RequestAppendEntriesArgs C)
    (hargs : ld.appendEntriesArgs target = .entries args)
    (hcommit : args.leaderCommit ≤ args.prevLogIndex + args.entries.length)
    (hd : rf.dead = false) (hterm : rf.currentTerm = args.leaderTerm)
    (hlast : ld.log.lastLogIndex ≤ rf.log.lastLogIndex)
    (hholds : ∀ i : Nat, (i : Int) ≤ ld.log.lastLogIndex → rf.log.getOneEntry i = l[i]?) (n : Nat) :
    ((redelivered rf args n).handleAppendEntriesRPC args).2 = some ⟨args.leaderTerm, true, 0, 0⟩ ∧
      (redelivered rf args n).log = rf.log ∧
      ((redelivered rf args n).commitIndex = rf.commitIndex ∨
        rf.commitIndex < (redelivered rf args n).commitIndex ∧
          (redelivered rf args n).commitIndex ≤ args.leaderCommit) := by
  have hheld : ∀ (i : Nat) (entry : Entry C), ld.log.entries[i]? = some entry →
      rf.log.getOneEntry i = some entry := by
    intro i entry hi
    have hlt : i < ld.log.entries.length := (List.getElem?_eq_some_iff.mp hi).1
    obtain ⟨later, rfl⟩ := hearlier
    rw [hholds i (by rw [hl.last]; omega), List.getElem?_append_left hlt]
    exact hi
  obtain ⟨hmatches, hloop, hend⟩ := built_held hl hargs hlast hheld
  have hrun := redelivered_held hd hterm hmatches hloop (Int.le_trans hcommit hend)
  refine ⟨(hrun n).1, ?_⟩
  cases n with
  | zero => exact ⟨rfl, Or.inl rfl⟩
  | succ n =>
    rw [(hrun n).2]
    refine ⟨rfl, ?_⟩
    show max rf.commitIndex args.leaderCommit = rf.commitIndex ∨
      rf.commitIndex < max rf.commitIndex args.leaderCommit ∧
        max rf.commitIndex args.leaderCommit ≤ args.leaderCommit
    omega

/-- A follower of term 2 that holds one entry more than `leaderOfTwo`. -/
def followerOfThree : Raft Nat :=
  {Raft.make ["a", "b"] 2 makePersister with
    currentTerm := 2
    log := ⟨[⟨1, 10⟩, ⟨2, 20⟩, ⟨2, 30⟩], 0, 2⟩}

/-- It keeps the third entry when a message with the first two comes twice. -/
theorem late_append_harmless_twice :
    ∃ args, (leaderOfTwo 0).appendEntriesArgs 1 = .entries args ∧ args.entries.length = 2 ∧
      (redelivered followerOfThree args 2).log = followerOfThree.log :=
  ⟨_, rfl, by decide,
    (late_append_harmless (leaderOfTwo 0) followerOfThree followerOfThree.log.entries ⟨rfl, rfl⟩
      (by decide) 1 _ rfl (by decide) rfl rfl (by decide)
      (fun i _ => Log.Indexed.getOneEntry_nat ⟨rfl, rfl⟩ i) 2).2.1⟩

end Wjetcd.Replication
