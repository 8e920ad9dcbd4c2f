import Wjetcd.Raft.Ballots

/-! Replication in the cluster is replication in the abstract protocol.

A message has what its leader held when it sent it, from some index on (`Carried`). Where the
follower agrees up to that index, the loop of `handleAppendEntriesRPC` leaves it with all the
leader held, or with more if it had more (`overwriteFrom_adopt`); that is what `adopt` does.
What a reply confirms is what the follower holds from then on (`Confirms`). -/
namespace Wjetcd.Network
open Runs Consensus

variable {C D : Type} {n : Nat} {canon : C → D} {s : Cluster C n} {a : Abstract n D} {i : Fin n}

/-! ### The log of a follower -/

theorem appendL_indexed {log : Log C} (h : log.Indexed) (e : Entry C) : log.appendL [e] =
    some {log with entries := log.entries ++ [e], lastLogIndex := log.lastLogIndex + 1} := by
  have hslice : log.slice (log.getRealIndex log.lastLogIndex + 1) = some log.entries := by
    unfold Log.slice Log.getRealIndex
    simp only [Width.wrap_unbounded]
    rw [h.first, h.last, if_pos (by omega)]
    congr 1
    exact List.take_of_length_le (by omega)
  rw [Log.appendL, Width.wrap_unbounded, Width.wrap_unbounded, hslice]
  rfl

/-- The loop of `handleAppendEntriesRPC`, given the leader's entries from where the logs still
agree, adopts them. -/
theorem overwriteFrom_adopt {whole : List (Int × D)} (rest : List (Entry C)) :
    ∀ (log : Log C) (k : Nat) (idx : Int), log.Indexed → idx + 1 = k → k ≤ log.entries.length →
      k ≤ whole.length → rest.map (view canon) = whole.drop k →
      (log.entries.map (view canon)).take k = whole.take k →
      (∀ j x y, whole[j]? = some x → (log.entries.map (view canon))[j]? = some y → x.1 = y.1 →
        (log.entries.map (view canon)).take (j + 1) = whole.take (j + 1)) →
      ∃ log', log.overwriteFrom idx rest = (log', true) ∧ log'.Indexed ∧
        log'.entries.map (view canon) = adopt (log.entries.map (view canon)) whole := by
  induction rest with
  | nil =>
    intro log k idx h _ _ hkw hdrop hagree _
    have hend : k = whole.length := by
      have := List.drop_eq_nil_iff.mp hdrop.symm
      omega
    refine ⟨log, rfl, h, (adopt_of_begins ?_).symm⟩
    rw [hend, List.take_length] at hagree
    rw [← hagree]
    exact List.take_prefix _ _
  | cons entry rest ih =>
    intro log k idx h hidx hk hkw hdrop hagree hmatch
    have hlt : k < whole.length := by
      by_contra hge
      rw [List.drop_eq_nil_of_le (by omega)] at hdrop
      cases hdrop
    rw [List.drop_eq_getElem_cons hlt, List.map_cons, List.cons.injEq] at hdrop
    obtain ⟨hentry, hrest⟩ := hdrop
    have hget : whole[k]? = some (view canon entry) := by rw [hentry, List.getElem?_eq_getElem hlt]
    have hsnoc : whole.take k ++ [view canon entry] = whole.take (k + 1) := by
      rw [List.take_add_one, hget]
      rfl
    -- a log that has become a beginning of the leader's goes on to be all of it
    have hon : ∀ log₁ : Log C, log.overwrite (idx + 1) entry = some log₁ →
        log₁.entries.map (view canon) = whole.take (k + 1) →
        ¬ whole <+: log.entries.map (view canon) →
        ∃ log', log.overwriteFrom idx (entry :: rest) = (log', true) ∧ log'.Indexed ∧
          log'.entries.map (view canon) = adopt (log.entries.map (view canon)) whole := by
      intro log₁ ho hview hnot
      have hlen : k + 1 ≤ log₁.entries.length := by
        have := congrArg List.length hview
        rw [List.length_map, List.length_take] at this
        omega
      obtain ⟨log', hfrom, hindexed, hadopt⟩ := ih log₁ (k + 1) (idx + 1)
        (h.overwrite_indexed hk (hidx ▸ ho)) (by omega) hlen hlt hrest
        (by rw [hview, List.take_take, Nat.min_self]) (by
          intro j x y _ hy _
          have hj := (List.getElem?_eq_some_iff.mp hy).1
          rw [hview, List.length_take] at hj
          rw [hview, List.take_take, Nat.min_eq_left (by omega)])
      refine ⟨log', by rw [Replication.overwriteFrom_cons ho, hfrom], hindexed, ?_⟩
      rw [hadopt, hview, adopt_of_le (List.take_prefix _ _), adopt_of_not_begins hnot]
    rcases Nat.lt_or_eq_of_le hk with hklog | heq
    · obtain ⟨held, hheld⟩ : ∃ held, log.entries[k]? = some held :=
        ⟨log.entries[k], List.getElem?_eq_getElem hklog⟩
      have hheldv : (log.entries.map (view canon))[k]? = some (view canon held) := by
        rw [List.getElem?_map, hheld]
        rfl
      by_cases ht : held.term = entry.term
      · have ho := h.overwrite_same hheld ht
        rw [← hidx] at ho
        obtain ⟨log', hfrom, hindexed, hadopt⟩ := ih log (k + 1) (idx + 1) h (by omega) hklog hlt hrest
          (hmatch k _ _ hget hheldv ht.symm) hmatch
        exact ⟨log', by rw [Replication.overwriteFrom_cons ho, hfrom], hindexed, hadopt⟩
      · have ho := h.overwrite_conflict hheld ht
        rw [← hidx] at ho
        refine hon _ ho ?_ ?_
        · rw [List.map_append, List.map_take, hagree]
          exact hsnoc
        · intro hpre
          have hsame := getElem?_of_begins hpre hget
          rw [hheldv] at hsame
          exact ht (congrArg Prod.fst (Option.some.inj hsame))
    · have ho := h.overwrite_end entry
      rw [← heq, ← hidx] at ho
      refine hon _ ho ?_ ?_
      · rw [List.map_append]
        refine Eq.trans ?_ hsnoc
        rw [← hagree, List.take_of_length_le (by rw [List.length_map]; omega)]
        rfl
      · intro hpre
        have hle := hpre.length_le
        rw [List.length_map] at hle
        omega

/-! ### A leader's entries -/

theorem Mirrors.stream_le {campaign : Int} {delivered : List (ApplyMsg C)} {rf : Raft C}
    (h : Mirrors canon a campaign delivered i rf) :
    (delivered ++ rf.applyHelper.q).length ≤ (a.log i).length := by
  have hlen := congrArg List.length h.stream
  rw [List.length_map, messages_length, List.length_take] at hlen
  omega

theorem Mirrors.persist {campaign : Int} {delivered : List (ApplyMsg C)} {rf : Raft C}
    (h : Mirrors canon a campaign delivered i rf) : Mirrors canon a campaign delivered i rf.persist :=
  { indexed := by simpa using h.indexed, included := by simpa using h.included
    term := by simpa using h.term, started := by simpa using h.started, log := by simpa using h.log
    commit := by simpa using h.commit, item := by simpa using h.item
    count := by simpa using h.count, applied := by simpa using h.applied
    stream := by simpa using h.stream, standing := by simpa using h.standing
    reigning := by simpa using h.reigning, confirmed := by simpa using h.confirmed }

/-- A leader with one more entry. -/
theorem Mirrors.propose {campaign : Int} {delivered : List (ApplyMsg C)} {rf : Raft C}
    {r : Reign (Fin n) Int (Int × D)} (h : Mirrors canon a campaign delivered r.leader rf)
    (hlead : rf.state = .leader) (hterm : r.term = rf.currentTerm) (command : C) :
    Mirrors canon (a.propose r (r.term, canon command)) campaign delivered r.leader
      {rf with log := {rf.log with
        entries := rf.log.entries ++ [⟨rf.currentTerm, command⟩]
        lastLogIndex := rf.log.lastLogIndex + 1}} := by
  have hnew : (a.propose r (r.term, canon command)).log r.leader = a.log r.leader ++ [(r.term, canon command)] :=
    Function.update_self _ _ _
  refine
    { indexed := ⟨h.indexed.first, ?_⟩
      included := h.included, term := h.term, started := h.started
      log := ?_
      commit := h.commit, item := h.item, count := h.count, applied := h.applied
      stream := ?_
      standing := fun hc => absurd (hlead.symm.trans hc) (by decide)
      reigning := h.reigning, confirmed := h.confirmed }
  · have hlast := h.indexed.last
    simp only [List.length_append, List.length_singleton]
    omega
  · rw [hnew, h.log, hterm, List.map_append]
    rfl
  · rw [hnew, List.take_append_of_le_length h.stream_le]
    exact h.stream

theorem Sim.start (h : Sim canon s a) {command : C} {result : Raft C × Int × Int × Bool}
    (hstart : (s.node i).start command = some result) :
    ∃ a', Steps a a' ∧ Sim canon (s.setNode i result.1) a' := by
  have hmoves := Raft.start_moves hstart
  rcases Raft.start_cases hstart with heq | ⟨hlead, log, hlog, heq⟩
  · rw [heq]
    exact h.fades (Fades.refl _) rfl rfl
  · have hnode := h.nodes i
    obtain ⟨r, hr, rfl, hterm⟩ := hnode.reigning hlead
    rw [appendL_indexed hnode.indexed] at hlog
    cases hlog
    have hat : a.term r.leader = r.term := hnode.term.trans hterm.symm
    have hstep : AbstractStep a _ := Step.propose r hr hat (r.term, canon command) rfl
    have hself : (s.setNode r.leader result.1).node r.leader = result.1 := Function.update_self _ _ _
    refine ⟨_, .single hstep, h.step (Local.propose h.inv hr hat _) (hstep.inv h.inv) ?_ ?_
      (h.polls.node r.leader hmoves (by rw [heq, Raft.persist_peers]; rfl)
        (by rw [heq, Raft.persist_electionVotes]; rfl)) h.ballots
      (fun _ hc => .inl hc) (fun _ hp => .inl hp) (fun _ hq => .inl hq) (fun _ hp => .inl hp)
      (fun _ hc => .inl hc) (fun _ hd => .inl hd)⟩
    · exact Apart.setNode fun hd => (Applied.start_still hstart).dead.trans hd
    · rw [hself, heq]
      exact (hnode.propose hlead hterm command).persist

/-- What `AppendEntries` sends besides heartbeats. -/
theorem appendEntriesArgs_inv {rf : Raft C} (hi : rf.log.Indexed) {target : Nat}
    {args : RequestAppendEntriesArgs C} (h : rf.appendEntriesArgs target = .entries args) :
    rf.state = .leader ∧ args.leaderTerm = rf.currentTerm ∧ args.leaderCommit = rf.commitIndex ∧
      ∃ k ≤ rf.log.entries.length, args.prevLogIndex + 1 = k ∧ args.entries = rf.log.entries.drop k ∧
        ∀ e, 0 < k → rf.log.entries[k - 1]? = some e → args.prevLogTerm = e.term := by
  unfold Raft.appendEntriesArgs at h
  simp only [Width.wrap_unbounded] at h
  split_ifs at h with hlead
  split at h
  · cases h
  · rename_i tracker _
    split_ifs at h with hsnapshot
    rw [hi.first] at hsnapshot
    have hlast := hi.last
    obtain ⟨k, hk⟩ : ∃ k : Nat, min rf.log.lastLogIndex (tracker.nextIndex - 1) + 1 = k :=
      ⟨_, (Int.toNat_of_nonneg (by omega)).symm⟩
    split at h
    · cases h
    · rename_i prevLogTerm hprev
      cases h
      refine ⟨not_not.mp hlead, rfl, rfl, k, by omega, hk, ?_, ?_⟩
      · show rf.log.getAppendEntries _ = _
        rw [hk, hi.getAppendEntries_nat]
      · intro e hpos he
        rw [show min rf.log.lastLogIndex (tracker.nextIndex - 1) = ((k - 1 : Nat) : Int) by omega,
          Replication.getEntryTerm_nat hi he] at hprev
        exact (Option.some.inj hprev).symm

/-- A message that is sent has what its leader holds. -/
theorem Sim.carries (h : Sim canon s a) {target : Fin n} {heart : Bool} {args : RequestAppendEntriesArgs C}
    (hout : Applied.outgoing (s.node i) target heart = some args) :
    Carries canon a ⟨i, target, heart, args⟩ := by
  have hnode := h.nodes i
  have hme : (s.node i).me = Election.nodeId i := h.polls.me i
  unfold Applied.outgoing at hout
  split_ifs at hout with hself hheart
  · -- a heartbeat
    unfold Raft.heartbeatArgs at hout
    subst hheart
    split_ifs at hout with hlead
    cases hout
    exact ⟨rfl, rfl, rfl⟩
  · have hentries : (s.node i).appendEntriesArgs target = .entries args := by
      split at hout
      · rename_i heq
        cases hout
        exact heq
      · cases hout
    obtain ⟨hlead, hterm, hcommit, k, hk, hprev, hdrop, hprevTerm⟩ :=
      appendEntriesArgs_inv hnode.indexed hentries
    obtain ⟨r, hr, hleader, hrt⟩ := hnode.reigning hlead
    have hledger : a.ledger r.term = a.log i := by
      rw [← hleader]
      exact (h.inv.leader_log r hr (by rw [hleader, hrt]; exact hnode.term)).symm
    unfold Carries
    rw [if_neg hheart]
    refine ⟨?_, r, hr, a.log i, k, ?_⟩
    · intro hsame
      obtain rfl : i = target := hsame
      rw [hme] at hself
      exact hself (by unfold Election.nodeId; omega)
    · refine
        { held := hledger ▸ h.inv.ledger_held r hr
          ledger := hledger ▸ List.prefix_refl _
          term := hterm.trans hrt.symm
          from_le := by rw [hnode.log, List.length_map]; exact hk
          prev := hprev
          prevTerm := ?_
          entries := by rw [hdrop, hnode.log, List.map_drop]
          commit := ?_ }
      · intro e hpos he
        rw [hnode.log, List.getElem?_map] at he
        obtain ⟨x, hx, rfl⟩ := Option.map_eq_some_iff.mp he
        exact hprevTerm x hpos hx
      · rw [hcommit]
        rcases hnode.commit with ⟨hzero, _⟩ | ⟨_, hknown⟩
        · exact .inl hzero.le
        · rcases h.inv.known_kept i with hno | ⟨c, hc, hct, hle, hpre⟩
          · left
            omega
          · refine .inr ⟨c, hc, ?_, by omega, ?_⟩
            · rw [hrt, ← hnode.term]
              exact hct
            · rw [show ((s.node i).commitIndex + 1).toNat = a.known i by omega]
              exact hpre

/-! ### A follower -/

theorem observeLeader_fades (rf : Raft C) (term : Int) : Fades rf (rf.observeLeader term) := by
  refine Fades.follower (rf.observeLeader_quiet term) (rf.observeLeader_moves term) ?_ rfl
  unfold Raft.observeLeader
  dsimp only
  split
  · exact Raft.persist_snapshotLastIncludeTerm _
  · rfl

theorem observeLeader_polls (rf : Raft C) (term : Int) :
    (rf.observeLeader term).peers = rf.peers ∧ (rf.observeLeader term).electionVotes = rf.electionVotes := by
  unfold Raft.observeLeader
  dsimp only
  split
  · exact ⟨Raft.persist_peers _, Raft.persist_electionVotes _⟩
  · exact ⟨rfl, rfl⟩

theorem observeLeader_term {rf : Raft C} {term : Int} (h : rf.currentTerm ≤ term) :
    (rf.observeLeader term).currentTerm = term := by
  unfold Raft.observeLeader
  dsimp only
  split
  · exact Raft.persist_currentTerm _
  · show rf.currentTerm = term
    omega

/-- What a node takes for committed grows, within its log. -/
theorem Mirrors.learn {campaign : Int} {delivered : List (ApplyMsg C)} {rf : Raft C}
    (h : Mirrors canon a campaign delivered i rf) {m : Int} (hm : rf.commitIndex ≤ m) :
    a.known i ≤ (m + 1).toNat ∧
      Mirrors canon (a.learn i (m + 1).toNat) campaign delivered i {rf with commitIndex := m} := by
  have hnew : (a.learn i (m + 1).toNat).known i = (m + 1).toNat := Function.update_self _ _ _
  have hle : a.known i ≤ (m + 1).toNat := by
    rcases h.commit with ⟨_, hzero⟩ | ⟨_, hknown⟩
    · omega
    · omega
  have hpos : 0 ≤ m := by
    rcases h.commit with ⟨hzero, _⟩ | ⟨hnonneg, _⟩
    · omega
    · omega
  refine ⟨hle, ?_⟩
  refine
    { indexed := h.indexed, included := h.included, term := h.term, started := h.started, log := h.log
      commit := .inr ⟨hpos, ?_⟩
      item := h.item, count := h.count
      applied := ?_
      stream := h.stream, standing := h.standing, reigning := h.reigning, confirmed := h.confirmed }
  · show m + 1 = ((a.learn i (m + 1).toNat).known i : Int)
    rw [hnew]
    omega
  · rw [hnew]
    exact h.applied.trans hle

/-- A follower that has taken over a leader's entries. -/
theorem Mirrors.accept {campaign : Int} {delivered : List (ApplyMsg C)} {rf : Raft C}
    (h : Mirrors canon a campaign delivered i rf) (hinv : AbstractInv a) {r : Reign (Fin n) Int (Int × D)}
    (hr : r ∈ a.reigns) (hterm : a.term i = r.term) {whole : List (Int × D)}
    (hledger : whole <+: a.ledger r.term) (hstate : rf.state = .follower) {log : Log C}
    (hindexed : log.Indexed) (hlog : log.entries.map (view canon) = adopt (a.log i) whole) :
    Mirrors canon (a.accept i r.term whole) campaign delivered i {rf with log := log} := by
  have hnew : (a.accept i r.term whole).log i = adopt (a.log i) whole := Function.update_self _ _ _
  refine
    { indexed := hindexed, included := h.included, term := h.term, started := h.started
      log := hnew.trans hlog.symm
      commit := h.commit, item := h.item, count := h.count, applied := h.applied
      stream := ?_
      standing := fun hc => absurd (hstate.symm.trans hc) (by decide)
      reigning := fun hl => absurd (hstate.symm.trans hl) (by decide)
      confirmed := fun hl => absurd (hstate.symm.trans hl) (by decide) }
  -- what has been queued is known to be committed, and that stays
  have hkept := hinv.known_adopt hr hterm hledger
  have hpre : (a.log i).take (delivered ++ rf.applyHelper.q).length <+: adopt (a.log i) whole :=
    (List.take_prefix_take_left h.applied).trans hkept
  have hlen : ((a.log i).take (delivered ++ rf.applyHelper.q).length).length =
      (delivered ++ rf.applyHelper.q).length := by
    rw [List.length_take, Nat.min_eq_left h.stream_le]
  have hsame : (adopt (a.log i) whole).take (delivered ++ rf.applyHelper.q).length =
      (a.log i).take (delivered ++ rf.applyHelper.q).length := by
    rw [take_of_begins hpre hlen.ge, List.take_take, Nat.min_self]
  rw [hnew, hsame]
  exact h.stream

/-- Where the check before the entries passes, the logs agree up to there. -/
theorem Sim.agreed (h : Sim canon s a) {q : Applied.Request C n} {r : Reign (Fin n) Int (Int × D)}
    (hr : r ∈ a.reigns) {whole : List (Int × D)} {k : Nat} (hc : Carried canon a q.args r whole k)
    {wire : C → C} (hprev : (s.node q.target).matchesPrev (q.args.received wire) = some true)
    (hfirst : q.args.prevLogIndex = 0 →
      ∃ e ∈ (s.node q.target).log.getOneEntry 0, e.term = q.args.prevLogTerm) :
    k ≤ (s.node q.target).log.entries.length ∧ (a.log q.target).take k = whole.take k := by
  have hnode := h.nodes q.target
  rcases Nat.eq_zero_or_pos k with rfl | hpos
  · exact ⟨Nat.zero_le _, rfl⟩
  -- the entry before the new ones is there, with the leader's term
  obtain ⟨e, he, het⟩ : ∃ e, (s.node q.target).log.entries[k - 1]? = some e ∧ e.term = q.args.prevLogTerm := by
    have hidx : q.args.prevLogIndex = ((k - 1 : Nat) : Int) := by
      have := hc.prev
      omega
    rcases Nat.eq_zero_or_pos (k - 1) with hzero | hmore
    · obtain ⟨e, he, het⟩ := hfirst (by omega)
      refine ⟨e, ?_, het⟩
      rw [hzero, ← hnode.indexed.getOneEntry_nat]
      exact he
    · unfold Raft.matchesPrev at hprev
      rw [if_pos (show (q.args.received wire).prevLogIndex > 0 by
        show q.args.prevLogIndex > 0
        omega)] at hprev
      split_ifs at hprev with hshort
      · exact absurd hprev (by decide)
      obtain ⟨e, he, het⟩ := Option.map_eq_some_iff.mp hprev
      refine ⟨e, ?_, of_decide_eq_true het⟩
      rw [← hnode.indexed.getOneEntry_nat, ← hidx]
      exact he
  have hlt := (List.getElem?_eq_some_iff.mp he).1
  have hfrom := hc.from_le
  have hwhole : whole[k - 1]? = some whole[k - 1] := List.getElem?_eq_getElem (by omega)
  have hview : (a.log q.target)[k - 1]? = some (view canon e) := by
    rw [hnode.log, List.getElem?_map, he]
    rfl
  have hsame := (h.inv.log_sound q.target).matching
    ((h.inv.ledger_sound r hr).of_begins hc.ledger) hview hwhole
    (het.trans (hc.prevTerm _ hpos hwhole))
  rw [show k - 1 + 1 = k by omega] at hsame
  exact ⟨by omega, hsame⟩

theorem handleAppendEntriesRPC_accepted {rf : Raft C} {args : RequestAppendEntriesArgs C} (h : rf.Accepts args)
    (hok : (rf.log.overwriteFrom args.prevLogIndex args.entries).2 = true) :
    rf.handleAppendEntriesRPC args = ((rf.withEntries args).followCommit args.leaderCommit,
      some ⟨(rf.withEntries args).currentTerm, true, 0, 0⟩) := by
  obtain ⟨hdead, hterm, hprev⟩ := h
  unfold Raft.handleAppendEntriesRPC
  rw [if_neg (by rw [hdead]; decide), if_neg (by omega)]
  dsimp only
  rw [Raft.matchesPrev_observeLeader, hprev, (rf.observeLeader_kept args.leaderTerm).1]
  dsimp only
  rw [if_pos hok]
  rfl

/-- Following the leader's `CommitIndex`, where that is of what the follower holds. -/
theorem Mirrors.follow {campaign : Int} {delivered : List (ApplyMsg C)} {rf : Raft C}
    (h : Mirrors canon a campaign delivered i rf) {m : Int}
    (hcommit : m ≤ 0 ∨ ∃ c ∈ a.commits, c.term ≤ a.term i ∧ m + 1 ≤ c.length ∧
      (a.ledger c.term).take (m + 1).toNat <+: a.log i) (hinv : AbstractInv a) :
    ∃ a', Steps a a' ∧ Local i a a' ∧ Mirrors canon a' campaign delivered i (rf.followCommit m) ∧
      a'.ballots = a.ballots ∧ a'.campaigns = a.campaigns ∧ a'.acks = a.acks ∧ a'.commits = a.commits ∧
      (m ≤ rf.commitIndex ∨ 0 < a'.known i) := by
  unfold Raft.followCommit
  split
  · rename_i hgt
    have hnonneg := h.commit
    obtain ⟨c, hc, hterm, hlen, hpre⟩ := hcommit.resolve_left (by omega)
    obtain ⟨hknown, hlearnt⟩ := h.learn (show rf.commitIndex ≤ m by omega)
    have hlearn : AbstractStep a _ := Step.learn i (m + 1).toNat c hc hterm (by omega) hpre
    -- the log reaches that far
    have hmin : min m rf.log.lastLogIndex = m := by
      have hlong := hpre.length_le
      obtain ⟨last, e, hlast, hget, _⟩ := hinv.commit_own c hc
      have hlt := (List.getElem?_eq_some_iff.mp hget).1
      rw [List.length_take, h.log, List.length_map] at hlong
      rw [h.indexed.last]
      omega
    rw [hmin]
    refine ⟨_, .single hlearn, Local.learn hknown, hlearnt, rfl, rfl, rfl, rfl, .inr ?_⟩
    show 0 < Function.update a.known i (m + 1).toNat i
    rw [Function.update_self]
    omega
  · exact ⟨a, .refl, Local.refl i a, h, rfl, rfl, rfl, rfl, .inl (by omega)⟩

theorem followCommit_polls (rf : Raft C) (m : Int) : Raft.Moves rf (rf.followCommit m) ∧
    (rf.followCommit m).peers = rf.peers ∧ (rf.followCommit m).electionVotes = rf.electionVotes ∧
      (rf.followCommit m).dead = rf.dead := by
  unfold Raft.followCommit
  split
  · exact ⟨Raft.Moves.stay rfl rfl rfl, rfl, rfl, rfl⟩
  · exact ⟨Raft.Moves.refl rf, rfl, rfl, rfl⟩

/-- A reply that denies confirms nothing. -/
theorem Carries.denied {q : Applied.Request C n} (h : Carries canon a q) (a' : Abstract n D)
    {reply : RequestAppendEntriesReply} (hno : reply.success = false) : Confirms a' ⟨q, reply⟩ := by
  intro hheart
  have hheart' : ¬ q.heart = true := by rw [show q.heart = false from hheart]; decide
  unfold Carries at h
  rw [if_neg hheart'] at h
  exact ⟨h.1, fun hs => absurd (hno.symm.trans hs) (by decide)⟩

section Handle
variable {wire : C → C} (hcanon : ∀ c, canon (wire c) = canon c)
include hcanon

theorem received_view (args : RequestAppendEntriesArgs C) :
    (args.received wire).entries.map (view canon) = args.entries.map (view canon) := by
  unfold RequestAppendEntriesArgs.received
  rw [List.map_map]
  apply List.map_congr_left
  intro e _
  show (e.term, canon (wire e.command)) = (e.term, canon e.command)
  rw [hcanon]

/-- A message with entries that gets as far as the log is taken over as a whole. -/
theorem Sim.entered (h : Sim canon s a) {q : Applied.Request C n} {r : Reign (Fin n) Int (Int × D)}
    (hr : r ∈ a.reigns) {whole : List (Int × D)} {k : Nat} (hc : Carried canon a q.args r whole k)
    (haccepts : (s.node q.target).Accepts (q.args.received wire))
    (hfirst : q.args.prevLogIndex = 0 →
      ∃ e ∈ (s.node q.target).log.getOneEntry 0, e.term = q.args.prevLogTerm) :
    ∃ log : Log C, log.Indexed ∧ log.entries.map (view canon) = adopt (a.log q.target) whole ∧
      (s.node q.target).handleAppendEntriesRPC (q.args.received wire) =
        (({(s.node q.target).observeLeader q.args.leaderTerm with log := log} : Raft C).followCommit
          q.args.leaderCommit, some ⟨r.term, true, 0, 0⟩) := by
  have hnode := h.nodes q.target
  obtain ⟨hk, hagree⟩ := h.agreed hr hc haccepts.2.2 hfirst
  have hsound := (h.inv.ledger_sound r hr).of_begins hc.ledger
  obtain ⟨log, hfrom, hindexed, hlog⟩ := overwriteFrom_adopt
    (q.args.received wire).entries (s.node q.target).log k q.args.prevLogIndex hnode.indexed hc.prev hk
    hc.from_le ((received_view hcanon q.args).trans hc.entries) (by rw [← hnode.log]; exact hagree) (by
      intro j x y hx hy hxy
      rw [← hnode.log] at hy ⊢
      exact (hsound.matching (h.inv.log_sound q.target) hx hy hxy).symm)
  have hentries : (s.node q.target).withEntries (q.args.received wire) =
      {(s.node q.target).observeLeader q.args.leaderTerm with log := log} := by
    show {(s.node q.target).observeLeader q.args.leaderTerm with
      log := ((s.node q.target).log.overwriteFrom q.args.prevLogIndex (q.args.received wire).entries).1} = _
    rw [hfrom]
  have hterm : ((s.node q.target).observeLeader q.args.leaderTerm).currentTerm = r.term :=
    (observeLeader_term haccepts.2.1).trans hc.term
  refine ⟨log, hindexed, by rw [hnode.log]; exact hlog, ?_⟩
  rw [handleAppendEntriesRPC_accepted haccepts (congrArg Prod.snd hfrom), hentries, ← hterm]
  rfl

/-- The follower's side of a message that is taken over. -/
theorem Sim.accept (h : Sim canon s a) {q : Applied.Request C n} {r : Reign (Fin n) Int (Int × D)}
    (hr : r ∈ a.reigns) {whole : List (Int × D)} {k : Nat} (hc : Carried canon a q.args r whole k)
    (haccepts : (s.node q.target).Accepts (q.args.received wire))
    (hfirst : q.args.prevLogIndex = 0 →
      ∃ e ∈ (s.node q.target).log.getOneEntry 0, e.term = q.args.prevLogTerm) :
    ∃ a', Steps a a' ∧
      Sim canon (s.setNode q.target ((s.node q.target).handleAppendEntriesRPC (q.args.received wire)).1) a' ∧
      ((s.node q.target).handleAppendEntriesRPC (q.args.received wire)).2 = some ⟨r.term, true, 0, 0⟩ ∧
      ⟨q.target, r.term, whole.length⟩ ∈ a'.acks ∧
      (q.args.leaderCommit ≤ (s.node q.target).commitIndex ∨ 0 < a'.known q.target) := by
  obtain ⟨log, hindexed, hlog, heq⟩ := h.entered hcanon hr hc haccepts hfirst
  have hfades := observeLeader_fades (s.node q.target) q.args.leaderTerm
  obtain ⟨hpeers, hvotes⟩ := observeLeader_polls (s.node q.target) q.args.leaderTerm
  have hterm : ((s.node q.target).observeLeader q.args.leaderTerm).currentTerm = r.term :=
    (observeLeader_term haccepts.2.1).trans hc.term
  -- the abstract node enters the term and takes over the same entries
  obtain ⟨hl, hadvance⟩ := h.advanced q.target hfades.moves.term
  rw [hterm] at hl hadvance
  have hat : (a.advance q.target r.term).term q.target = r.term := Function.update_self _ _ _
  have haccept : AbstractStep _ _ := Step.accept (s := a.advance q.target r.term)
    q.target r hr hat whole hc.held hc.ledger
  have hm := (h.nodes q.target).fades hfades (h.polls.campaign q.target)
  rw [hterm] at hm
  have hmirrors := hm.accept (hadvance.inv h.inv) hr hat hc.ledger rfl hindexed hlog
  have hnewlog : ((a.advance q.target r.term).accept q.target r.term whole).log q.target =
      adopt (a.log q.target) whole := Function.update_self _ _ _
  -- and learns of the same commits
  obtain ⟨a', hlearn, hl', hmirrors', hballots, hcampaigns, hacks, hcommits, hknown⟩ :=
    hmirrors.follow (m := q.args.leaderCommit) (by
      rcases hc.commit with hnone | ⟨c, hcmem, hcterm, hclen, hcpre⟩
      · exact .inl hnone
      · exact .inr ⟨c, hcmem, hcterm.trans hat.ge, hclen, by rw [hnewlog]; exact hcpre.trans (prefix_adopt _ _)⟩)
      (haccept.inv (hadvance.inv h.inv))
  have hsteps : Steps a a' := ((Relation.ReflTransGen.single hadvance).tail haccept).trans hlearn
  have hcommit : ((s.node q.target).observeLeader q.args.leaderTerm).commitIndex =
      (s.node q.target).commitIndex := ((s.node q.target).observeLeader_kept q.args.leaderTerm).2.1
  obtain ⟨hfmoves, hfpeers, hfvotes, hfdead⟩ := followCommit_polls
    ({(s.node q.target).observeLeader q.args.leaderTerm with log := log} : Raft C) q.args.leaderCommit
  have hmoves : Raft.Moves (s.node q.target)
      {(s.node q.target).observeLeader q.args.leaderTerm with log := log} :=
    hfades.moves.trans (Raft.Moves.stay rfl rfl rfl)
  rw [heq]
  refine ⟨a', hsteps, ?_, rfl, by rw [hacks]; exact List.mem_cons_self, ?_⟩
  · refine h.step ((hl.trans (Local.accept _ _ _ _)).trans hl') (hsteps.inv h.inv)
      (Apart.setNode fun hd => hfdead.trans (hfades.quiet.dead.trans hd)) ?_
      (h.polls.node q.target (hmoves.trans hfmoves) (hfpeers.trans hpeers) (hfvotes.trans hvotes))
      (by rw [hballots]; exact h.ballots) (fun c hc => .inl (by rw [hcampaigns] at hc; exact hc))
      (fun _ hp => .inl hp) (fun _ hq => .inl hq) (fun _ hp => .inl hp) (fun _ hc => .inl hc)
      (fun d hd => .inl (by rw [hcommits] at hd; exact hd))
    rw [show ∀ rf, (s.setNode q.target rf).node q.target = rf from fun _ => Function.update_self _ _ _]
    exact hmirrors'
  · rw [← hcommit]
    exact hknown

/-- What a message does to its receiver, what the reply stands for, and that the receiver is
woken up only if it knows of a commit. -/
theorem Sim.handled (h : Sim canon s a) {q : Applied.Request C n} (hq : q ∈ s.requests)
    (hfirst : q.heart = false → q.args.prevLogIndex = 0 → (s.node q.target).dead = false →
      (s.node q.target).currentTerm ≤ q.args.leaderTerm →
      ∃ e ∈ (s.node q.target).log.getOneEntry 0, e.term = q.args.prevLogTerm) :
    ∃ a', Steps a a' ∧
      Sim canon (s.setNode q.target ((s.node q.target).handleAppendEntriesRPC (q.args.received wire)).1) a' ∧
      (∀ reply, ((s.node q.target).handleAppendEntriesRPC (q.args.received wire)).2 = some reply →
        Confirms a' ⟨q, reply⟩) ∧
      (Applied.follows (s.node q.target) (q.args.received wire) = true → 0 < a'.known q.target) := by
  have hcarries := h.requests q hq
  obtain ⟨hpeers, hvotes⟩ := observeLeader_polls (s.node q.target) q.args.leaderTerm
  have hobserve := observeLeader_fades (s.node q.target) q.args.leaderTerm
  have hfollows : Applied.follows (s.node q.target) (q.args.received wire) = true →
      (∃ reply, ((s.node q.target).handleAppendEntriesRPC (q.args.received wire)).2 = some reply ∧
        reply.success = true) ∧ (s.node q.target).commitIndex < q.args.leaderCommit := by
    intro hf
    obtain ⟨hany, hlt⟩ := Bool.and_eq_true_iff.mp hf
    exact ⟨(Option.any_eq_true _ _).mp hany, of_decide_eq_true hlt⟩
  rcases (s.node q.target).handleAppendEntriesRPC_cases (q.args.received wire) with
    ⟨hno, hrf⟩ | ⟨haccepts, hrf⟩
  · have hsim : ∃ a', Steps a a' ∧ Sim canon
        (s.setNode q.target ((s.node q.target).handleAppendEntriesRPC (q.args.received wire)).1) a' := by
      rcases hrf with heq | heq
      · rw [heq]
        exact h.fades (Fades.refl _) rfl rfl
      · rw [heq]
        exact h.fades hobserve hpeers hvotes
    obtain ⟨a', hsteps, hsim⟩ := hsim
    refine ⟨a', hsteps, hsim, fun reply hreply => hcarries.denied a' (hno reply hreply), fun hf => ?_⟩
    obtain ⟨⟨reply, hreply, hyes⟩, _⟩ := hfollows hf
    exact absurd ((hno reply hreply).symm.trans hyes) (by decide)
  · cases hheart : q.heart with
    | true =>
      -- a heartbeat brings nothing
      unfold Carries at hcarries
      rw [if_pos hheart] at hcarries
      obtain ⟨_, hempty, hzero⟩ := hcarries
      have hnonneg : 0 ≤ (s.node q.target).commitIndex := by
        rcases (h.nodes q.target).commit with ⟨hci, _⟩ | ⟨hci, _⟩
        · omega
        · exact hci
      have hentries : (s.node q.target).withEntries (q.args.received wire) =
          (s.node q.target).observeLeader q.args.leaderTerm := by
        unfold Raft.withEntries RequestAppendEntriesArgs.received
        rw [hempty, ← Replication.observeLeader_log (s.node q.target) q.args.leaderTerm]
        rfl
      have hfollow : ((s.node q.target).withEntries (q.args.received wire)).followCommit
          (q.args.received wire).leaderCommit = (s.node q.target).observeLeader q.args.leaderTerm := by
        rw [hentries]
        refine if_neg ?_
        show ¬ q.args.leaderCommit > _
        rw [hzero, ((s.node q.target).observeLeader_kept q.args.leaderTerm).2.1]
        omega
      have hsame : ((s.node q.target).handleAppendEntriesRPC (q.args.received wire)).1 =
          (s.node q.target).observeLeader q.args.leaderTerm := by
        rcases hrf with heq | heq
        · rw [heq, hentries]
        · rw [heq, hfollow]
      obtain ⟨a', hsteps, hsim⟩ := h.fades hobserve hpeers hvotes
      rw [hsame]
      refine ⟨a', hsteps, hsim, fun reply _ hno => absurd (hheart.symm.trans hno) (by decide), fun hf => ?_⟩
      have hlt := (hfollows hf).2
      omega
    | false =>
      unfold Carries at hcarries
      rw [if_neg (by rw [hheart]; decide)] at hcarries
      obtain ⟨hself, r, hr, whole, k, hc⟩ := hcarries
      obtain ⟨a', hsteps, hsim, hreply, hack, hknown⟩ := h.accept hcanon hr hc haccepts
        (fun hprev => hfirst hheart hprev haccepts.1 haccepts.2.1)
      refine ⟨a', hsteps, hsim, ?_, fun hf => hknown.resolve_left (by have := (hfollows hf).2; omega)⟩
      intro reply heq
      rw [hreply] at heq
      cases heq
      refine fun _ => ⟨hself, fun _ => ⟨hc.term.symm, _, hack, rfl, hc.term.symm, ?_⟩⟩
      have hlen := congrArg List.length hc.entries
      rw [List.length_map, List.length_drop] at hlen
      have hprevk := hc.prev
      have hfromk := hc.from_le
      show q.args.prevLogIndex + q.args.entries.length + 1 ≤ whole.length
      omega

theorem Sim.handle (h : Sim canon s a) {q : Applied.Request C n} (hq : q ∈ s.requests)
    (hfirst : q.heart = false → q.args.prevLogIndex = 0 → (s.node q.target).dead = false →
      (s.node q.target).currentTerm ≤ q.args.leaderTerm →
      ∃ e ∈ (s.node q.target).log.getOneEntry 0, e.term = q.args.prevLogTerm) :
    ∃ a', Steps a a' ∧ Sim canon (handle wire s q) a' := by
  obtain ⟨a', hsteps, hsim, hconfirms, hknown⟩ := h.handled hcanon hq hfirst
  refine ⟨a', hsteps, ?_⟩
  have hreplies : ∀ p ∈ s.replies ++ ((((s.node q.target).handleAppendEntriesRPC (q.args.received wire)).2.map
      fun reply => (⟨q, reply⟩ : Applied.Reply C n)).toList), p ∈ s.replies ∨ Confirms a' p := by
    intro p hp
    rcases List.mem_append.mp hp with hold | hnew
    · exact .inl hold
    · rw [Option.mem_toList] at hnew
      obtain ⟨reply, hreply, rfl⟩ := Option.map_eq_some_iff.mp hnew
      exact .inr (hconfirms reply hreply)
  unfold Network.handle
  dsimp only
  split
  · rename_i hf
    exact (hsim.setApplier fun _ => .inr (hknown hf)).reply hreplies
  · exact hsim.reply hreplies

end Handle

end Wjetcd.Network
