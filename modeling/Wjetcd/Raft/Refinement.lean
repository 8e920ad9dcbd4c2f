import Mathlib.Data.List.FinRange
import Wjetcd.Raft.Entries

/-! A leader counts what has been confirmed, and what is committed is handed on.

Every confirmation that `tryCommitL` counts stands for a node that has taken over the
leader's log that far; with the leader itself they are a majority (`Sim.quorum`), so that the
commit is one of the abstract protocol. What `sendMsgToTester` then queues is what the node
has learnt to be committed.

`step_sim` collects the cases of all actions, and `run_sim` carries them over a run: a sane
run of the cluster is a run of the abstract protocol. -/
namespace Wjetcd.Network
open Runs Consensus

variable {C D : Type} {n : Nat} {canon : C → D} {s : Cluster C n} {a : Abstract n D} {i : Fin n}

/-- A step of a node that is none of the protocol. -/
theorem Sim.stutter (h : Sim canon s a) {rf : Raft C} {delivered : Fin n → List (ApplyMsg C)}
    (hothers : ∀ j, j ≠ i → delivered j = s.delivered j) (hmoves : Raft.Moves (s.node i) rf)
    (hdead : (s.node i).dead = true → rf.dead = true) (hpeers : rf.peers = (s.node i).peers)
    (hvotes : rf.electionVotes = (s.node i).electionVotes)
    (hm : Mirrors canon a (s.polls.history.campaign i) (delivered i) i rf) :
    Sim canon {s.setNode i rf with delivered := delivered} a := by
  have hself : (s.setNode i rf).node i = rf := Function.update_self _ _ _
  refine h.step (Local.refl i a) h.inv ?_ ?_ (h.polls.node _ hmoves hpeers hvotes) h.ballots
    (fun _ hc => .inl hc) (fun _ hp => .inl hp) (fun _ hq => .inl hq) (fun _ hp => .inl hp)
    (fun _ hc => .inl hc) (fun _ hd => .inl hd)
  · refine ⟨fun j hj => ⟨Function.update_of_ne hj _ _, hothers j hj, rfl⟩, rfl, fun hd => ?_, fun _ hc => hc⟩
    show ((s.setNode i rf).node i).dead = true
    rw [hself]
    exact hdead hd
  · show Mirrors canon _ _ _ _ ((s.setNode i rf).node i)
    rw [hself]
    exact hm

/-! ### Confirmations -/

theorem stepDown_fades {rf : Raft C} {term : Int} (h : rf.currentTerm < term) : Fades rf (rf.stepDown term) :=
  Fades.follower (rf.stepDown_quiet term) (Raft.stepDown_moves h) (by simp [Raft.stepDown])
    (by simp [Raft.stepDown])

/-- Where to go on sending is not what has been confirmed. -/
theorem nextIndex_fades {rf : Raft C} {target : Nat} {tracker : PeerTracker}
    (h : rf.peerTrackers[target]? = some tracker) (next : Int) :
    Fades rf (rf.setTracker target {tracker with nextIndex := next}) := by
  refine ⟨⟨rfl, rfl, rfl⟩, Raft.Moves.stay rfl rfl rfl, rfl, Leadership.Keeps.of_eq rfl rfl, id, ?_⟩
  intro _ j other hj
  have hj' : (rf.peerTrackers.set target {tracker with nextIndex := next})[j]? = some other := hj
  rw [List.getElem?_set] at hj'
  split_ifs at hj' with heq hlt
  · cases hj'
    exact ⟨tracker, heq ▸ h, rfl⟩
  · exact ⟨other, hj', rfl⟩

/-- A leader notes what one of the others has confirmed. -/
theorem Mirrors.acknowledged {campaign : Int} {delivered : List (ApplyMsg C)} {rf : Raft C}
    (h : Mirrors canon a campaign delivered i rf) {target : Fin n} {args : RequestAppendEntriesArgs C}
    {ack : Ack (Fin n) Int} (hack : ack ∈ a.acks) (hnode : ack.node = target)
    (hterm : ack.term = rf.currentTerm) (hlen : args.prevLogIndex + args.entries.length + 1 ≤ ack.length) :
    Mirrors canon a campaign delivered i (rf.acknowledged target args) := by
  refine
    { indexed := h.indexed, included := h.included, term := h.term, started := h.started, log := h.log
      commit := h.commit, item := h.item, count := h.count, applied := h.applied, stream := h.stream
      standing := h.standing, reigning := h.reigning
      confirmed := ?_ }
  intro hlead j tracker hj hpos
  have hj' : (rf.peerTrackers.set (target : Nat)
      ⟨args.prevLogIndex + args.entries.length + 1, args.prevLogIndex + args.entries.length⟩)[(j : Nat)]? =
      some tracker := hj
  rw [List.getElem?_set] at hj'
  split_ifs at hj' with heq hlt
  · cases hj'
    exact ⟨ack, hack, hnode.trans (Fin.ext heq), hterm, hlen⟩
  · exact h.confirmed hlead j tracker hj' hpos

/-- The peers that `tryCommitL` counts, as nodes. -/
theorem holders_finRange {rf : Raft C} (hpeers : rf.peers.length = n) (hme : rf.me = Election.nodeId i)
    (m : Int) : ∃ q : List (Fin n), q.Nodup ∧ q.length = (rf.holders m).length ∧
      ∀ j ∈ q, j ≠ i ∧ ∃ tracker, rf.peerTrackers[(j : Nat)]? = some tracker ∧ m ≤ tracker.matchIndex := by
  let p : Nat → Bool := fun k =>
    decide ((k : Int) ≠ rf.me - 1) && rf.peerTrackers[k]?.any fun t => m ≤ t.matchIndex
  refine ⟨(List.finRange n).filter (p ∘ Fin.val), (List.nodup_finRange n).filter _, ?_, ?_⟩
  · show _ = ((List.range rf.peers.length).filter p).length
    rw [hpeers, ← List.map_coe_finRange_eq_range, List.filter_map, List.length_map]
  · intro j hj
    obtain ⟨hother, hany⟩ := Bool.and_eq_true_iff.mp (List.mem_filter.mp hj).2
    obtain ⟨tracker, htracker, hm⟩ := (Option.any_eq_true _ _).mp hany
    refine ⟨?_, tracker, htracker, of_decide_eq_true hm⟩
    rintro rfl
    refine of_decide_eq_true hother ?_
    rw [hme, Election.nodeId]
    omega

/-- A majority has taken over what is committed, the leader being one of them. -/
theorem Mirrors.quorum {campaign : Int} {delivered : List (ApplyMsg C)} {rf : Raft C}
    (h : Mirrors canon a campaign delivered i rf) (hpeers : rf.peers.length = n)
    (hme : rf.me = Election.nodeId i) (hlead : rf.state = .leader) {m : Nat} (hcommits : rf.commits m = true)
    {own : Ack (Fin n) Int} (hown : own ∈ a.acks) (hi : own.node = i) (hterm : own.term = rf.currentTerm)
    (hlen : m + 1 ≤ own.length)
    (hzero : m = 0 → n ≤ 3 ∧ ∃ ack ∈ a.acks, ack.node ≠ i ∧ ack.term = rf.currentTerm ∧ 1 ≤ ack.length) :
    (majority n).Quorum (a.Holders rf.currentTerm (m + 1)) := by
  have hself : i ∈ a.Holders rf.currentTerm (m + 1) := ⟨own, hown, hi, hterm, hlen⟩
  obtain ⟨_, _, _, _, hcount⟩ := (rf.commits_iff m).mp hcommits
  rcases Nat.eq_zero_or_pos m with rfl | hpos
  · -- everybody counts for index 0; the leader and one other are enough
    obtain ⟨hn, ack, hack, hne, hackTerm, hackLen⟩ := hzero rfl
    refine ⟨[i, ack.node], ?_, ?_, ?_⟩
    · simpa using hne.symm
    · show n / 2 < 2
      omega
    · intro v hv
      rcases List.mem_pair.mp hv with rfl | rfl
      · exact hself
      · exact ⟨ack, hack, rfl, hackTerm, hackLen⟩
  · obtain ⟨q, hnodup, hqlen, hq⟩ := holders_finRange hpeers hme (m : Int)
    refine ⟨i :: q, List.nodup_cons.mpr ⟨fun hmem => (hq i hmem).1 rfl, hnodup⟩, ?_, ?_⟩
    · rw [List.length_cons]
      omega
    · intro v hv
      rcases List.mem_cons.mp hv with rfl | hv
      · exact hself
      · obtain ⟨_, tracker, htracker, hm⟩ := hq v hv
        obtain ⟨ack, hack, hnode, hackTerm, hackLen⟩ := h.confirmed hlead v tracker htracker (by omega)
        exact ⟨ack, hack, hnode, hackTerm, by omega⟩

/-! ### Commits -/

/-- The state of the protocol once a leader has committed its log up to an index. -/
noncomputable def committed (a : Abstract n D) (i : Fin n) (t : Int) (m : Nat) : Abstract n D :=
  ((a.accept i t (a.log i)).commit t (m + 1)).learn i (m + 1)

theorem Mirrors.committed {campaign : Int} {delivered : List (ApplyMsg C)} {rf : Raft C}
    (h : Mirrors canon a campaign delivered i rf) (hinv : AbstractInv a) (hpeers : rf.peers.length = n)
    (hme : rf.me = Election.nodeId i) (hlead : rf.state = .leader) {m : Nat} (hcommits : rf.commits m = true)
    (hzero : m = 0 → n ≤ 3 ∧ ∃ ack ∈ a.acks, ack.node ≠ i ∧ ack.term = rf.currentTerm ∧ 1 ≤ ack.length) :
    Steps a (committed a i rf.currentTerm m) ∧ Local i a (committed a i rf.currentTerm m) ∧
      Mirrors canon (committed a i rf.currentTerm m) campaign delivered i {rf with commitIndex := m} ∧
      0 < (committed a i rf.currentTerm m).known i ∧
      Matches canon (committed a i rf.currentTerm m) ⟨i, rf.currentTerm, rf.log.entries.take (m + 1)⟩
        ⟨rf.currentTerm, m + 1⟩ := by
  obtain ⟨r, hr, rfl, hterm⟩ := h.reigning hlead
  have hat : a.term r.leader = r.term := h.term.trans hterm.symm
  have hledger : a.log r.leader = a.ledger r.term := hinv.leader_log r hr hat
  obtain ⟨hle, hlast, _, hget, _⟩ := (rf.commits_iff m).mp hcommits
  rw [h.indexed.last] at hlast
  have hlt : m < rf.log.entries.length := by omega
  have hentry := List.getElem?_eq_getElem hlt
  have hown : rf.log.entries[m].term = rf.currentTerm := by
    have hnat := Replication.getEntryTerm_nat h.indexed hentry
    exact Option.some.inj (hnat.symm.trans hget)
  have hview : (a.ledger r.term)[m]? = some (view canon rf.log.entries[m]) := by
    rw [← hledger, h.log, List.getElem?_map, hentry]
    rfl
  have hlong : m + 1 ≤ (a.log r.leader).length := by
    rw [h.log, List.length_map]
    omega
  -- the leader confirms its own log, which leaves it as it is
  have haccept : AbstractStep a (a.accept r.leader r.term (a.log r.leader)) :=
    Step.accept r.leader r hr hat _ (by rw [hledger]; exact hinv.ledger_held r hr) (by rw [hledger])
  have hsame : (a.accept r.leader r.term (a.log r.leader)).log r.leader = a.log r.leader := by
    show Function.update a.log r.leader _ r.leader = _
    rw [Function.update_self, adopt_of_begins (List.prefix_refl _)]
  have hkept : Mirrors canon (a.accept r.leader r.term (a.log r.leader)) campaign delivered r.leader rf :=
    h.keep rfl hsame rfl (fun _ hc => hc) (fun _ hr => hr) (fun _ hr _ => hr)
      fun _ hack => List.mem_cons_of_mem _ hack
  have hack : ⟨r.leader, r.term, (a.log r.leader).length⟩ ∈
      (a.accept r.leader r.term (a.log r.leader)).acks := List.mem_cons_self
  have hquorum := hkept.quorum hpeers hme hlead hcommits hack rfl hterm hlong (by
      intro hm
      obtain ⟨hn, ack, hack, hrest⟩ := hzero hm
      exact ⟨hn, ack, List.mem_cons_of_mem _ hack, hrest⟩)
  rw [← hterm] at hquorum hown
  rw [show committed a r.leader rf.currentTerm m = committed a r.leader r.term m by rw [hterm]]
  have hcommit : AbstractStep (a.accept r.leader r.term (a.log r.leader)) _ :=
    Step.commit r.term m _ hview hown ⟨r, hr, rfl⟩ hquorum
  have hlearn : AbstractStep ((a.accept r.leader r.term (a.log r.leader)).commit r.term (m + 1)) _ :=
    Step.learn r.leader (m + 1) ⟨r.term, m + 1⟩ List.mem_cons_self hat.ge le_rfl (by
      show (a.ledger r.term).take (m + 1) <+: (a.accept r.leader r.term (a.log r.leader)).log r.leader
      rw [hsame, ← hledger]
      exact List.take_prefix _ _)
  have hmirrors : Mirrors canon ((a.accept r.leader r.term (a.log r.leader)).commit r.term (m + 1)) campaign
      delivered r.leader rf :=
    hkept.keep rfl rfl rfl (fun _ hc => hc) (fun _ hr => hr) (fun _ hr _ => hr) fun _ hack => hack
  obtain ⟨hknown, hlearnt⟩ := hmirrors.learn hle
  rw [show ((m : Int) + 1).toNat = m + 1 by omega] at hknown hlearnt
  refine ⟨((Relation.ReflTransGen.single haccept).tail hcommit).tail hlearn,
    ((Local.accept _ _ _ _).trans (Local.commit _ _ _ _)).trans (Local.learn hknown), hlearnt, ?_, ?_⟩
  · show 0 < Function.update a.known r.leader (m + 1) r.leader
    rw [Function.update_self]
    omega
  · refine ⟨rfl, ?_⟩
    show (rf.log.entries.take (m + 1)).map (view canon) = (a.ledger rf.currentTerm).take (m + 1)
    rw [← hterm, ← hledger, h.log, List.map_take]

/-- A leader commits its log up to an index, and wakes up its applier. -/
theorem Sim.commit (h : Sim canon s a) {rf : Raft C}
    (hm : Mirrors canon a (s.polls.history.campaign i) (s.delivered i) i rf)
    (hmoves : Raft.Moves (s.node i) rf) (hdead : rf.dead = (s.node i).dead)
    (hpeers : rf.peers = (s.node i).peers) (hvotes : rf.electionVotes = (s.node i).electionVotes)
    (hlead : rf.state = .leader) {m : Nat} (hcommits : rf.commits m = true)
    (hzero : m = 0 → n ≤ 3 ∧ ∃ ack ∈ a.acks, ack.node ≠ i ∧ ack.term = rf.currentTerm ∧ 1 ≤ ack.length) :
    ∃ a', Steps a a' ∧ Sim canon {(s.setNode i {rf with commitIndex := m}).broadcast i with
      commits := ⟨i, rf.currentTerm, rf.log.entries.take (m + 1)⟩ :: s.commits} a' := by
  obtain ⟨hsteps, hl, hm', hknown, hmatches⟩ := hm.committed h.inv
    (by rw [hpeers]; exact h.polls.peers i) (hmoves.me.trans (h.polls.me i)) hlead hcommits hzero
  have hself : (s.setNode i {rf with commitIndex := m}).node i = {rf with commitIndex := m} :=
    Function.update_self _ _ _
  have hmoves' : Raft.Moves (s.node i) {rf with commitIndex := m} :=
    hmoves.trans (Raft.Moves.stay rfl rfl rfl)
  have hsim : Sim canon {s.setNode i {rf with commitIndex := m} with
      commits := ⟨i, rf.currentTerm, rf.log.entries.take (m + 1)⟩ :: s.commits}
      (Network.committed a i rf.currentTerm m) := by
    refine h.step hl (hsteps.inv h.inv) ?_ ?_ (h.polls.node i hmoves' hpeers hvotes) h.ballots
      (fun _ hc => .inl hc) (fun _ hp => .inl hp) (fun _ hq => .inl hq) (fun _ hp => .inl hp) ?_ ?_
    · refine ⟨fun j hj => ⟨Function.update_of_ne hj _ _, rfl, rfl⟩, rfl, fun hd => ?_,
        fun _ hc => List.mem_cons_of_mem _ hc⟩
      show ((s.setNode i {rf with commitIndex := m}).node i).dead = true
      rw [hself]
      exact hdead.trans hd
    · show Mirrors canon _ _ _ _ ((s.setNode i {rf with commitIndex := m}).node i)
      rw [hself]
      exact hm'
    · intro c hc
      rcases List.mem_cons.mp hc with rfl | hold
      · exact .inr ⟨hknown, _, List.mem_cons_self, hmatches⟩
      · exact .inl hold
    · intro d hd
      rcases List.mem_cons.mp hd with rfl | hold
      · exact .inr ⟨_, List.mem_cons_self, hmatches⟩
      · exact .inl hold
  exact ⟨_, hsteps, hsim.setApplier fun _ => .inr hknown⟩

/-- Every reply to a message with entries. -/
theorem Sim.receiveEntries (h : Sim canon s a) {p : Applied.Reply C n} (hp : p ∈ s.replies)
    (hheart : p.request.heart = false)
    (hfirst : (s.node p.request.source).commitsOn p.request.target p.request.args p.reply = some 0 → n ≤ 3)
    {t : Cluster C n} (ht : receive s p = some t) : ∃ a', Steps a a' ∧ Sim canon t a' := by
  have hnode := h.nodes p.request.source
  obtain ⟨hself, hsuccess⟩ := h.replies p hp hheart
  unfold receive at ht
  dsimp only at ht
  rw [if_neg (by rw [hheart]; decide)] at ht
  obtain ⟨rf', happend, rfl⟩ := Option.map_eq_some_iff.mp ht
  -- what the leader notes when the reply says that all went well
  have hnoted : (s.node p.request.source).Current p.reply.followerTerm → p.reply.success = true →
      ∃ ack ∈ a.acks, ack.node = p.request.target ∧ ack.term = (s.node p.request.source).currentTerm ∧
        p.request.args.prevLogIndex + p.request.args.entries.length + 1 ≤ ack.length := by
    intro hcurrent hs
    obtain ⟨hterm, ack, hack, hacknode, hackterm, hacklen⟩ := hsuccess hs
    exact ⟨ack, hack, hacknode, hackterm.trans (hterm.symm.trans hcurrent.2), hacklen⟩
  rcases Raft.appendReply_commits happend with ⟨m, hon, hcommits, rfl⟩ | ⟨hnone, _⟩
  · -- the confirmation makes a majority
    rw [hon]
    have hon' := hon
    unfold Raft.commitsOn at hon'
    split_ifs at hon' with hall
    obtain ⟨hlead, hterm, _, hs, _, _⟩ := hall
    have hm : p.request.args.prevLogIndex + p.request.args.entries.length = m := Option.some.inj hon'
    obtain ⟨ack, hack, hacknode, hackterm, hacklen⟩ := hnoted ⟨hlead, hterm⟩ hs
    have hmirrors := hnode.acknowledged hack hacknode hackterm hacklen
    obtain ⟨_, _, hge, _, _⟩ := (Raft.commits_iff _ m).mp hcommits
    rw [hmirrors.indexed.first] at hge
    obtain ⟨k, rfl⟩ := Int.eq_ofNat_of_zero_le hge
    exact h.commit hmirrors (Raft.Moves.stay rfl rfl rfl) rfl rfl rfl hlead hcommits (by
      rintro rfl
      exact ⟨hfirst hon, ack, hack, fun heq => hself (heq.symm.trans hacknode), hackterm, by omega⟩)
  · rw [hnone]
    rcases Raft.appendReply_cases happend with rfl | ⟨hgt, rfl⟩ | ⟨hcurrent, tracker, htracker, ⟨next, rfl⟩ |
      ⟨hs, hentries, htry⟩⟩
    · exact h.fades (Fades.refl _) rfl rfl
    · exact h.fades (stepDown_fades hgt) (by simp [Raft.stepDown]) (by simp [Raft.stepDown])
    · exact h.fades (nextIndex_fades htracker next) rfl rfl
    · rcases Raft.tryCommitL_cases htry with ⟨hyes, _⟩ | ⟨_, rfl⟩
      · refine absurd hnone ?_
        unfold Raft.commitsOn
        rw [if_pos ⟨hcurrent.1, hcurrent.2, (List.getElem?_eq_some_iff.mp htracker).1, hs, hentries, hyes⟩]
        exact Option.some_ne_none _
      · obtain ⟨ack, hack, hacknode, hackterm, hacklen⟩ := hnoted hcurrent hs
        exact ⟨a, .refl, h.stutter (fun _ _ => rfl) (Raft.Moves.stay rfl rfl rfl) id rfl rfl
          (hnode.acknowledged hack hacknode hackterm hacklen)⟩

theorem Sim.receive (h : Sim canon s a) {p : Applied.Reply C n} (hp : p ∈ s.replies)
    (hfirst : p.request.heart = false →
      (s.node p.request.source).commitsOn p.request.target p.request.args p.reply = some 0 → n ≤ 3)
    {t : Cluster C n} (ht : receive s p = some t) : ∃ a', Steps a a' ∧ Sim canon t a' := by
  cases hheart : p.request.heart with
  | false => exact h.receiveEntries hp hheart (hfirst hheart) ht
  | true =>
    unfold Network.receive at ht
    dsimp only at ht
    rw [if_pos hheart] at ht
    cases ht
    rcases (s.node p.request.source).heartbeatReply_cases p.reply with heq | ⟨hgt, heq⟩
    · rw [heq]
      exact h.fades (Fades.refl _) rfl rfl
    · rw [heq]
      exact h.fades (stepDown_fades hgt) (by simp [Raft.stepDown]) (by simp [Raft.stepDown])

/-! ### What the service gets -/

/-- One turn of `sendMsgToTester` queues the next entry. -/
theorem Mirrors.applyNext {campaign : Int} {delivered : List (ApplyMsg C)} {rf rf' : Raft C}
    (h : Mirrors canon a campaign delivered i rf) (hknown : 0 < a.known i) (hnext : rf.hasNext = true)
    (happly : rf.applyNext = some rf') : Mirrors canon a campaign delivered i rf' := by
  obtain ⟨hle, _⟩ : rf.lastApplied + 1 ≤ rf.commitIndex ∧ rf.lastApplied + 1 ≤ rf.log.lastLogIndex := by
    simpa [Raft.hasNext] using hnext
  obtain ⟨_, entry, helper, hentry, hhelper, rfl⟩ := Raft.applyNext_cases happly
  rw [Width.wrap_unbounded] at hentry hhelper
  have hcommit : rf.commitIndex + 1 = a.known i := by
    rcases h.commit with ⟨_, hzero⟩ | ⟨_, heq⟩
    · omega
    · exact heq
  have hcount := h.count
  obtain ⟨hitem, hq⟩ : helper.lastItemIndex = rf.lastApplied + 1 ∧
      helper.q = rf.applyHelper.q ++ [.command (rf.lastApplied + 1) entry.command] := by
    have hitem := h.item
    rw [ApplyHelper.tryApply, Width.wrap_unbounded, if_neg (by omega), if_pos (by omega)] at hhelper
    cases hhelper
    exact ⟨by rw [hitem], rfl⟩
  have hstream : delivered ++ helper.q =
      delivered ++ rf.applyHelper.q ++ [.command (rf.lastApplied + 1) entry.command] := by
    rw [hq, List.append_assoc]
  have hlen : (delivered ++ helper.q).length = (delivered ++ rf.applyHelper.q).length + 1 := by
    rw [hstream, List.length_append]
    rfl
  refine
    { indexed := h.indexed, included := h.included, term := h.term, started := h.started, log := h.log
      commit := h.commit
      item := hitem
      count := ?_
      applied := ?_
      stream := ?_
      standing := h.standing, reigning := h.reigning, confirmed := h.confirmed }
  · show rf.lastApplied + 1 + 1 = ((delivered ++ helper.q).length : Int)
    omega
  · show (delivered ++ helper.q).length ≤ a.known i
    omega
  · show (delivered ++ helper.q).map (content canon) = messages ((a.log i).take (delivered ++ helper.q).length)
    have hget : (a.log i)[(delivered ++ rf.applyHelper.q).length]? = some (view canon entry) := by
      rw [hcount, h.indexed.getOneEntry_nat] at hentry
      rw [h.log, List.getElem?_map, hentry]
      rfl
    rw [hlen, List.take_add_one, hget, hstream, List.map_append, h.stream]
    show _ = messages (_ ++ [view canon entry])
    rw [messages_concat, List.length_take, Nat.min_eq_left h.stream_le]
    show _ ++ [some (rf.lastApplied + 1, canon entry.command)] = _
    rw [hcount]
    rfl

theorem Mirrors.sendMsgToTester {campaign : Int} {delivered : List (ApplyMsg C)} (hknown : 0 < a.known i)
    (fuel : Nat) : ∀ rf rf' : Raft C, Mirrors canon a campaign delivered i rf →
      rf.sendMsgToTester fuel = some rf' → Mirrors canon a campaign delivered i rf' := by
  induction fuel with
  | zero =>
    intro rf rf' h hsend
    cases hsend
    exact h
  | succ fuel ih =>
    intro rf rf' h hsend
    rw [Raft.sendMsgToTester] at hsend
    split at hsend
    · rename_i hnext
      cases happly : rf.applyNext with
      | none =>
        rw [happly] at hsend
        cases hsend
      | some mid =>
        rw [happly] at hsend
        exact ih mid rf' (h.applyNext hknown hnext happly) hsend
    · cases hsend
      exact h

theorem sendMsgToTester_polls (fuel : Nat) : ∀ rf rf' : Raft C, rf.sendMsgToTester fuel = some rf' →
    Raft.Moves rf rf' ∧ rf'.peers = rf.peers ∧ rf'.electionVotes = rf.electionVotes ∧
      rf'.dead = rf.dead := by
  induction fuel with
  | zero =>
    intro rf rf' h
    cases h
    exact ⟨Raft.Moves.refl rf, rfl, rfl, rfl⟩
  | succ fuel ih =>
    intro rf rf' h
    rw [Raft.sendMsgToTester] at h
    split at h
    · cases happly : rf.applyNext with
      | none =>
        rw [happly] at h
        cases h
      | some mid =>
        rw [happly] at h
        obtain ⟨_, entry, helper, _, _, rfl⟩ := Raft.applyNext_cases happly
        obtain ⟨hmoves, hpeers, hrest⟩ := ih _ rf' h
        have hturn : Raft.Moves rf {rf with lastApplied := rf.lastApplied + 1, applyHelper := helper} :=
          Raft.Moves.stay rfl rfl rfl
        exact ⟨hturn.trans hmoves, hpeers, hrest⟩
    · cases h
      exact ⟨Raft.Moves.refl rf, rfl, rfl, rfl⟩

/-- What is handed over leaves the queue, and no more. -/
theorem Mirrors.deliver {campaign : Int} {delivered : List (ApplyMsg C)} {rf : Raft C}
    (h : Mirrors canon a campaign delivered i rf) {msg : ApplyMsg C} {rest : List (ApplyMsg C)}
    (hq : rf.applyHelper.q = msg :: rest) :
    Mirrors canon a campaign (delivered ++ [msg]) i
      {rf with applyHelper := {rf.applyHelper with q := rest}} := by
  have hsame : delivered ++ [msg] ++ rest = delivered ++ rf.applyHelper.q := by
    rw [hq, List.append_assoc]
    rfl
  exact
    { indexed := h.indexed, included := h.included, term := h.term, started := h.started, log := h.log
      commit := h.commit, item := h.item
      count := by rw [hsame]; exact h.count
      applied := by rw [hsame]; exact h.applied
      stream := by rw [hsame]; exact h.stream
      standing := h.standing, reigning := h.reigning, confirmed := h.confirmed }

theorem Mirrors.stop {campaign : Int} {delivered : List (ApplyMsg C)} {rf : Raft C}
    (h : Mirrors canon a campaign delivered i rf) :
    Mirrors canon a campaign delivered i {rf with dead := true} :=
  { indexed := h.indexed, included := h.included, term := h.term, started := h.started, log := h.log
    commit := h.commit, item := h.item, count := h.count, applied := h.applied, stream := h.stream
    standing := h.standing, reigning := h.reigning, confirmed := h.confirmed }

/-- A killed node is no leader and no candidate, and otherwise what it was. -/
theorem Mirrors.kill {campaign : Int} {delivered : List (ApplyMsg C)} {rf : Raft C}
    (h : Mirrors canon a campaign delivered i rf) : Mirrors canon a campaign delivered i rf.kill :=
  { indexed := h.indexed, included := h.included, term := h.term, started := h.started, log := h.log
    commit := h.commit, item := h.item, count := h.count, applied := h.applied, stream := h.stream
    standing := by simp [Raft.kill], reigning := by simp [Raft.kill], confirmed := by simp [Raft.kill] }

/-- A node that is woken up knows of a commit. -/
theorem Sim.known_pos (h : Sim canon s a) (hwoken : s.appliers i = .woken) (hfirst : FirstCommitted s i) :
    0 < a.known i := by
  rcases h.woken i hwoken with hdead | hknown
  · rcases hfirst hdead with hpos | ⟨c, hc, rfl⟩
    · rcases (h.nodes i).commit with ⟨hzero, _⟩ | ⟨_, hknown⟩
      · omega
      · omega
    · exact (h.commits c hc).1
  · exact hknown

theorem Sim.wake (h : Sim canon s a) (hwoken : s.appliers i = .woken) (hfirst : FirstCommitted s i)
    {rf : Raft C} {fuel : Nat} (hsend : (s.node i).sendMsgToTester fuel = some rf) :
    Sim canon (s.setNode i rf) a := by
  obtain ⟨hmoves, hpeers, hvotes, hdead⟩ := sendMsgToTester_polls fuel _ _ hsend
  exact h.stutter (fun _ _ => rfl) hmoves (fun hd => hdead.trans hd) hpeers hvotes
    (Mirrors.sendMsgToTester (h.known_pos hwoken hfirst) fuel _ _ (h.nodes i) hsend)

theorem Sim.deliver (h : Sim canon s a) {msg : ApplyMsg C} {rest : List (ApplyMsg C)}
    (hq : (s.node i).applyHelper.q = msg :: rest) :
    Sim canon {s.setNode i {s.node i with applyHelper := {(s.node i).applyHelper with q := rest}} with
      delivered := Function.update s.delivered i (s.delivered i ++ [msg])} a := by
  refine h.stutter (fun j hj => Function.update_of_ne hj _ _) (Raft.Moves.stay rfl rfl rfl) id rfl rfl ?_
  rw [Function.update_self]
  exact (h.nodes i).deliver hq

/-! ### All steps -/

theorem Sim.election (h : Sim canon s a) {action : Election.Action n} (hsane : Sane (.election action) s)
    {polls : Election.Cluster C n} (hstep : Election.step action s.polls = some polls) :
    ∃ a', Steps a a' ∧ Sim canon {s with polls := polls} a' := by
  cases action with
  | startElection i =>
    cases hstep
    exact h.campaign i
  | serve k =>
    obtain ⟨p, hp, rfl⟩ := Option.map_eq_some_iff.mp hstep
    exact h.serve hp (hsane p hp)
  | loseRequest k =>
    obtain ⟨p, _, rfl⟩ := Option.map_eq_some_iff.mp hstep
    exact ⟨a, .refl, h.lose (List.eraseIdx_sublist _ _) (List.Sublist.refl _)⟩
  | receive k =>
    obtain ⟨r, hr, rfl⟩ := Option.map_eq_some_iff.mp hstep
    exact h.receiveVote hr hsane
  | loseReply k =>
    obtain ⟨r, _, rfl⟩ := Option.map_eq_some_iff.mp hstep
    exact ⟨a, .refl, h.lose (List.Sublist.refl _) (List.eraseIdx_sublist _ _)⟩

/-- A sane step of the cluster is a sequence of steps of the protocol. -/
theorem step_sim {wire : C → C} (hcanon : ∀ c, canon (wire c) = canon c) {action : Action C n} {t : Cluster C n}
    (h : Sim canon s a) (hsane : Sane action s) (hstep : step wire action s = some t) :
    ∃ a', Steps a a' ∧ Sim canon t a' := by
  cases action with
  | election action =>
    obtain ⟨polls, hpolls, rfl⟩ := Option.map_eq_some_iff.mp hstep
    exact h.election hsane hpolls
  | start i command =>
    obtain ⟨result, hresult, rfl⟩ := Option.map_eq_some_iff.mp hstep
    exact h.start hresult
  | send i target heart =>
    obtain ⟨args, hargs, rfl⟩ := Option.map_eq_some_iff.mp hstep
    refine ⟨a, .refl, {h with requests := fun q hq => ?_}⟩
    rcases List.mem_append.mp hq with hold | hnew
    · exact h.requests q hold
    · rw [List.mem_singleton.mp hnew]
      exact h.carries hargs
  | handle k =>
    obtain ⟨q, hq, rfl⟩ := Option.map_eq_some_iff.mp hstep
    exact h.handle hcanon (List.mem_of_getElem? hq) (hsane q hq)
  | receive k =>
    obtain ⟨p, hp, ht⟩ := Option.bind_eq_some_iff.mp hstep
    exact h.receive (List.mem_of_getElem? hp) (hsane p hp) ht
  | enter i =>
    obtain ⟨_, heq⟩ := Option.ite_none_right_eq_some.mp hstep
    cases heq
    exact ⟨a, .refl, h.setApplier fun hwoken => absurd hwoken (by split <;> decide)⟩
  | wake i =>
    obtain ⟨hwoken, hwake⟩ := Option.ite_none_right_eq_some.mp hstep
    obtain ⟨rf, hsend, rfl⟩ := Option.map_eq_some_iff.mp hwake
    exact ⟨a, .refl, (h.wake hwoken hsane hsend).setApplier fun hw => absurd hw (by split <;> decide)⟩
  | deliver i =>
    unfold step at hstep
    dsimp only at hstep
    cases hq : (s.node i).applyHelper.q with
    | nil =>
      rw [hq] at hstep
      cases hstep
    | cons msg rest =>
      rw [hq] at hstep
      cases hstep
      exact ⟨a, .refl, h.deliver hq⟩
  | stop i =>
    cases hstep
    have hmoves : Raft.Moves (s.node i) {s.node i with dead := true} := Raft.Moves.stay rfl rfl rfl
    exact ⟨a, .refl, h.stutter (fun _ _ => rfl) hmoves (fun _ => rfl) rfl rfl (h.nodes i).stop⟩
  | kill i =>
    cases hstep
    have hmoves : Raft.Moves (s.node i) (s.node i).kill := Raft.Moves.stay rfl rfl rfl
    have hself : (s.setNode i (s.node i).kill).node i = (s.node i).kill := Function.update_self _ _ _
    refine ⟨a, .refl, (h.stutter (fun _ _ => rfl) hmoves (fun _ => rfl) rfl rfl (h.nodes i).kill).setApplier
      fun _ => .inl ?_⟩
    show ((s.setNode i (s.node i).kill).node i).dead = true
    rw [hself]
    rfl

theorem boot_sim (peers : List String) :
    Sim canon (boot peers : Cluster C peers.length) (State.initial 0) where
  inv := State.initial_inv 0
  polls := Election.boot_inv peers
  nodes i := by
    have hstate : ((boot peers : Cluster C peers.length).node i).state = .follower := rfl
    exact
      { indexed := Log.newLog_indexed, included := rfl, term := rfl, started := le_rfl, log := rfl
        commit := .inl ⟨rfl, rfl⟩, item := rfl, count := rfl, applied := le_rfl, stream := rfl
        standing := fun hc => absurd (hstate.symm.trans hc) (by decide)
        reigning := fun hl => absurd (hstate.symm.trans hl) (by decide)
        confirmed := fun hl => absurd (hstate.symm.trans hl) (by decide) }
  ballots := by simp [boot, Election.boot, State.initial]
  campaigns := by simp [State.initial]
  asked := by simp [boot, Election.boot]
  requests := by simp [boot]
  replies := by simp [boot]
  commits := by simp [boot]
  committed := by simp [State.initial]
  woken := by simp [boot]

/-- A sane run of the cluster is a run of the protocol. -/
theorem run_sim {wire : C → C} (hcanon : ∀ c, canon (wire c) = canon c) {peers : List String}
    {actions : List (Action C peers.length)} {s : Cluster C peers.length}
    (hsane : Along (step wire) Sane (boot peers) actions) (hrun : run (step wire) (boot peers) actions = some s) :
    ∃ a, Steps (State.initial 0) a ∧ Sim canon s a := by
  refine run_invariant (P := fun s => ∃ a, Steps (State.initial 0) a ∧ Sim canon s a) ?_ actions (boot peers) s
    ⟨_, .refl, boot_sim peers⟩ hsane hrun
  rintro action s t ⟨a, hsteps, hsim⟩ hs ht
  obtain ⟨a', hmore, hsim'⟩ := step_sim hcanon hsim hs ht
  exact ⟨a', hsteps.trans hmore, hsim'⟩

end Wjetcd.Network
