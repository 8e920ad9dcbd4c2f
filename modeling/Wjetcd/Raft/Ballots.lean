import Wjetcd.Raft.Simulation

/-! Elections of the cluster are elections of the abstract protocol.

A node that stands enters the next term, asks to lead it and votes for itself. A vote call
tells what the candidate held when it stood, so the check of `RequestVote` compares that log
with the voter's (`upToDate_atLeast`). A node that executes `becomeLeader` still holds it,
and the votes it counted are those of a majority. -/
namespace Wjetcd.Network
open Runs Consensus

variable {C D : Type} {n : Nat} {canon : C → D} {s : Cluster C n} {a : Abstract n D}

/-- What an entry is marked with is the term of a leader, and those are positive. -/
theorem Sim.entry_pos (h : Sim canon s a) (i : Fin n) : ∀ e ∈ a.log i, 0 < e.1 := by
  intro e he
  obtain ⟨k, hk⟩ := List.mem_iff_getElem?.mp he
  obtain ⟨⟨r, hr, hterm⟩, _⟩ := (h.inv.log_sound i).traced k e hk
  rw [← hterm]
  exact h.campaigns _ (h.inv.reign_campaign r hr)

theorem getLastEntryTerm_eq {rf : Raft C} (hi : rf.log.Indexed) (h0 : rf.snapshotLastIncludeTerm = 0)
    (canon : C → D) : rf.getLastEntryTerm = lastTerm (rf.log.entries.map (view canon)) := by
  unfold Raft.getLastEntryTerm lastTerm
  rw [List.getLast?_map, List.getLast?_eq_getElem?]
  rcases Nat.eq_zero_or_pos rf.log.entries.length with hzero | hpos
  · rw [if_neg (by rw [hi.first, hi.last]; omega), h0, List.getElem?_eq_none (by omega)]
    rfl
  · have hget : rf.log.getOneEntry rf.log.lastLogIndex = rf.log.entries[rf.log.entries.length - 1]? := by
      rw [← hi.getOneEntry_nat, hi.last]
      congr 1
      omega
    rw [if_pos (by rw [hi.first, hi.last]; omega), hget]
    cases rf.log.entries[rf.log.entries.length - 1]? with
    | none => rfl
    | some e => rfl

/-- The check of `RequestVote` is the one of the protocol. -/
theorem upToDate_atLeast {rf : Raft C} (hi : rf.log.Indexed) (h0 : rf.snapshotLastIncludeTerm = 0)
    (hpos : ∀ e ∈ rf.log.entries.map (view canon), 0 < e.1) {args : RequestVoteArgs} {held : List (Int × D)}
    (hindex : args.lastLogIndex + 1 = held.length) (hterm : args.lastLogTerm = lastTerm held)
    (h : rf.upToDate args = true) : AtLeast Prod.fst held (rf.log.entries.map (view canon)) := by
  intro y hy
  have hlast : rf.getLastEntryTerm = y.1 := by
    rw [getLastEntryTerm_eq hi h0 canon, lastTerm, hy]
    rfl
  have hy0 := hpos y (List.mem_of_getLast? hy)
  have hne : 0 < rf.log.entries.length := by
    rcases Nat.eq_zero_or_pos rf.log.entries.length with hzero | hlen
    · rw [List.length_eq_zero_iff.mp hzero] at hy
      cases hy
    · exact hlen
  unfold Raft.upToDate at h
  rw [if_neg (by rw [hi.first, hi.last]; omega), hlast, hi.last, hterm] at h
  simp only [Bool.or_eq_true, decide_eq_true_eq, Bool.and_eq_true, beq_iff_eq] at h
  rw [List.length_map]
  cases hx : held.getLast? with
  | none =>
    -- an empty log is not enough, whatever the term of the voter's last entry
    have hzero : lastTerm held = 0 := by rw [lastTerm, hx]; rfl
    omega
  | some x =>
    have hxt : lastTerm held = x.1 := by rw [lastTerm, hx]; rfl
    rw [hxt] at h
    refine ⟨x, rfl, ?_⟩
    omega

theorem startElection_args (rf : Raft C) : ∀ call ∈ rf.startElection.2,
    call.args = ⟨rf.currentTerm + 1, rf.me, rf.log.lastLogIndex, rf.getLastEntryTerm⟩ := by
  intro call hcall
  simp only [Raft.startElection, List.mem_map] at hcall
  obtain ⟨i, _, rfl⟩ := hcall
  rfl

/-! ### Standing for election -/

/-- The abstract node enters a term, stands and votes for itself. -/
def stood (a : Abstract n D) (i : Fin n) (t : Int) : Abstract n D := ((a.advance i t).stand i).vote i i

section Campaign
variable (h : Sim canon s a) (i : Fin n)

theorem stood_term (a : Abstract n D) (i : Fin n) (t : Int) : (stood a i t).term i = t := Function.update_self _ _ _

theorem mem_stood_campaigns {c : Campaign (Fin n) Int (Int × D)} {t : Int} :
    c ∈ (stood a i t).campaigns ↔ c = ⟨i, t, a.log i⟩ ∨ c ∈ a.campaigns := by
  have hcampaigns : (stood a i t).campaigns = ⟨i, (a.advance i t).term i, a.log i⟩ :: a.campaigns := rfl
  have hat : (a.advance i t).term i = t := Function.update_self _ _ _
  rw [hcampaigns, hat, List.mem_cons]

theorem mem_stood_ballots {b : Ballot (Fin n) Int (Int × D)} {t : Int} :
    b ∈ (stood a i t).ballots ↔ b = ⟨i, t, i, a.log i⟩ ∨ b ∈ a.ballots := by
  have hballots : (stood a i t).ballots = ⟨i, (a.advance i t).term i, i, a.log i⟩ :: a.ballots := rfl
  have hat : (a.advance i t).term i = t := Function.update_self _ _ _
  rw [hballots, hat, List.mem_cons]

include h

/-- The new term is later than all the node has stood in. -/
theorem Sim.campaign_fresh : ∀ c ∈ a.campaigns, c.candidate = i → c.term ≠ (s.node i).currentTerm + 1 := by
  intro c hc hci
  have hle := h.inv.campaign_term c hc
  rw [hci, (h.nodes i).term] at hle
  omega

theorem Sim.campaign_steps : Steps a (stood a i ((s.node i).currentTerm + 1)) ∧
    Local i a (stood a i ((s.node i).currentTerm + 1)) := by
  obtain ⟨hl, hadvance⟩ := h.advanced i (t := (s.node i).currentTerm + 1) (by omega)
  have hat : (a.advance i ((s.node i).currentTerm + 1)).term i = (s.node i).currentTerm + 1 :=
    Function.update_self _ _ _
  have hstand : AbstractStep (a.advance i ((s.node i).currentTerm + 1)) _ :=
    Step.stand i (by rw [hat]; exact h.campaign_fresh i) (by
      intro e he
      have hle := h.inv.log_term i e he
      rw [(h.nodes i).term] at hle
      rw [hat]
      omega)
  have hvote : AbstractStep _ _ := Step.vote
    (s := (a.advance i ((s.node i).currentTerm + 1)).stand i) i ⟨i, _, _⟩ List.mem_cons_self rfl
    (AtLeast.refl _ _) (by
      intro b hb hbv hbt
      have hle := h.inv.ballot_term b hb
      rw [hbv, (h.nodes i).term] at hle
      have hbt' : b.term = (s.node i).currentTerm + 1 := hbt.trans hat
      omega)
  exact ⟨((Relation.ReflTransGen.single hadvance).tail hstand).tail hvote,
    (hl.trans (Local.stand i _)).trans (Local.vote i i _)⟩

/-- The candidate holds the log it stands with. -/
theorem Sim.campaign_mirrors : Mirrors canon (stood a i ((s.node i).currentTerm + 1))
    (s.node i).startElection.1.currentTerm (s.delivered i) i (s.node i).startElection.1 := by
  have hnode := h.nodes i
  have hterm := (Election.startElection_node (s.node i)).2.2.1
  have hquiet := (s.node i).startElection_quiet
  have hlog : (s.node i).startElection.1.log = (s.node i).log := congrArg Raft.Feed.log hquiet.feed
  have happlied : (s.node i).startElection.1.lastApplied = (s.node i).lastApplied :=
    congrArg Raft.Feed.lastApplied hquiet.feed
  have hhelper : (s.node i).startElection.1.applyHelper = (s.node i).applyHelper :=
    congrArg Raft.Feed.helper hquiet.feed
  exact
    { indexed := by rw [hlog]; exact hnode.indexed
      included := by simpa [Raft.startElection, Raft.becomeCandidate] using hnode.included
      term := (stood_term ..).trans hterm.symm
      started := by rw [hterm]; have := hnode.started; omega
      log := by rw [hlog]; exact hnode.log
      commit := by rw [hquiet.commit]; exact hnode.commit
      item := by rw [hhelper, happlied]; exact hnode.item
      count := by rw [hhelper, happlied]; exact hnode.count
      applied := by rw [hhelper]; exact hnode.applied
      stream := by rw [hhelper]; exact hnode.stream
      standing := by
        intro _ _
        rw [hterm]
        refine ⟨(mem_stood_campaigns i).mpr (.inl rfl), ?_⟩
        intro r hr hleader
        exact h.campaign_fresh i _ (h.inv.reign_campaign r hr) hleader
      reigning := by simp [Raft.startElection, Raft.becomeCandidate]
      confirmed := by simp [Raft.startElection, Raft.becomeCandidate] }

/-- The vote for itself is the one that is new. -/
theorem Sim.campaign_ballots (v : Fin n) (u : Int) (c : Fin n) :
    (v, u, Election.nodeId c) ∈ (Election.campaign i s.polls).history.votes ↔
      ∃ b ∈ (stood a i ((s.node i).currentTerm + 1)).ballots, b.voter = v ∧ b.term = u ∧ b.candidate = c := by
  obtain ⟨hme, _, hterm, _, _⟩ := Election.startElection_node (s.node i)
  have hvotes : (Election.campaign i s.polls).history.votes =
      (i, (s.node i).startElection.1.currentTerm, (s.node i).startElection.1.me) :: s.polls.history.votes := rfl
  rw [hvotes, hme, hterm, show (s.node i).me = Election.nodeId i from h.polls.me i, List.mem_cons, h.ballots]
  constructor
  · rintro (hnew | ⟨b, hb, hvote⟩)
    · obtain ⟨hv, hrest⟩ := Prod.mk.inj hnew
      obtain ⟨hu, hid⟩ := Prod.mk.inj hrest
      exact ⟨_, (mem_stood_ballots i).mpr (.inl rfl), hv.symm, hu.symm, (Election.nodeId_injective hid).symm⟩
    · exact ⟨b, (mem_stood_ballots i).mpr (.inr hb), hvote⟩
  · rintro ⟨b, hb, hvote⟩
    rcases (mem_stood_ballots i).mp hb with rfl | hold
    · obtain ⟨rfl, rfl, rfl⟩ := hvote
      exact .inl rfl
    · exact .inr ⟨b, hold, hvote⟩

/-- The calls tell what the candidate holds. -/
theorem Sim.campaign_asks : ∀ p ∈ (Election.campaign i s.polls).requests,
    p ∈ s.polls.requests ∨ Asks (stood a i ((s.node i).currentTerm + 1)) p := by
  have hnode := h.nodes i
  intro p hp
  rcases List.mem_append.mp hp with hnew | hold
  · obtain ⟨call, hcall, hroute⟩ := List.mem_filterMap.mp hnew
    obtain ⟨hc, hpc, _⟩ := Election.route_eq hroute
    have hargs := startElection_args (s.node i) call hcall
    refine .inr ⟨_, (mem_stood_campaigns i).mpr (.inl rfl), hc.symm, ?_, ?_, ?_⟩
    · rw [hpc, hargs]
    · rw [hpc, hargs]
      show (s.node i).log.lastLogIndex + 1 = ((a.log i).length : Int)
      rw [hnode.log, List.length_map, hnode.indexed.last]
      omega
    · rw [hpc, hargs]
      show (s.node i).getLastEntryTerm = lastTerm (a.log i)
      rw [hnode.log]
      exact getLastEntryTerm_eq hnode.indexed hnode.included canon
  · exact .inl hold

theorem Sim.campaign : ∃ a', Steps a a' ∧ Sim canon {s with polls := Election.campaign i s.polls} a' := by
  obtain ⟨hsteps, hlocal⟩ := h.campaign_steps i
  have hself : (Election.campaign i s.polls).nodes i = (s.node i).startElection.1 := Function.update_self _ _ _
  have hapart : Apart i s {s with polls := Election.campaign i s.polls} :=
    { others := fun j hj => ⟨Function.update_of_ne hj _ _, rfl, Function.update_of_ne hj _ _⟩
      appliers := rfl
      dead := by
        intro hd
        show ((Election.campaign i s.polls).nodes i).dead = true
        rw [hself, (s.node i).startElection_quiet.dead, hd]
      commits := fun _ hc => hc }
  have hmirrors : Mirrors canon (stood a i ((s.node i).currentTerm + 1))
      ((Election.campaign i s.polls).history.campaign i) (s.delivered i) i ((Election.campaign i s.polls).nodes i) := by
    have hcampaign : (Election.campaign i s.polls).history.campaign i =
        (s.node i).startElection.1.currentTerm := Function.update_self _ _ _
    rw [hcampaign, hself]
    exact h.campaign_mirrors i
  have hcampaigns : ∀ c ∈ (stood a i ((s.node i).currentTerm + 1)).campaigns, c ∈ a.campaigns ∨ 0 < c.term := by
    intro c hc
    rcases (mem_stood_campaigns i).mp hc with rfl | hold
    · have hstarted := (h.nodes i).started
      exact .inr (show 0 < (s.node i).currentTerm + 1 by omega)
    · exact .inl hold
  exact ⟨_, hsteps, h.step hlocal (hsteps.inv h.inv) hapart hmirrors (Election.campaign_inv h.polls i)
    (h.campaign_ballots i) hcampaigns (h.campaign_asks i) (fun _ hq => .inl hq) (fun _ hp => .inl hp)
    (fun _ hc => .inl hc) (fun _ hd => .inl hd)⟩

end Campaign

/-- Serving a request leaves the role and the leader's bookkeeping alone. -/
theorem requestVote_role (rf : Raft C) (args : RequestVoteArgs) :
    (rf.requestVote args).1.state = rf.state ∧ (rf.requestVote args).1.peerTrackers = rf.peerTrackers ∧
      (rf.requestVote args).1.snapshotLastIncludeTerm = rf.snapshotLastIncludeTerm := by
  have hadopt : (rf.adopt args.term).state = rf.state ∧ (rf.adopt args.term).peerTrackers = rf.peerTrackers ∧
      (rf.adopt args.term).snapshotLastIncludeTerm = rf.snapshotLastIncludeTerm := by
    unfold Raft.adopt
    split <;> simp
  rcases rf.requestVote_cases args with ⟨_, h | h | h⟩ | ⟨_, _, h⟩
  · rw [h]
    exact ⟨rfl, rfl, rfl⟩
  · rw [h]
    simp
  · rw [h]
    exact hadopt
  · rw [h]
    simpa using hadopt

theorem requestVote_fades {rf : Raft C} {args : RequestVoteArgs}
    (h : ¬(rf.dead = false ∧ rf.state = .leader ∧ rf.currentTerm < args.term)) :
    Fades rf (rf.requestVote args).1 := by
  obtain ⟨hstate, htrackers, hincluded⟩ := requestVote_role rf args
  refine ⟨rf.requestVote_quiet args, rf.requestVote_moves args, hincluded,
    Leadership.requestVote_keeps rf args h, fun hc => hstate.symm.trans hc, ?_⟩
  intro _ j tracker hj
  rw [htrackers] at hj
  exact ⟨tracker, hj, rfl⟩

theorem requestVote_upToDate {rf : Raft C} {args : RequestVoteArgs}
    (h : (rf.requestVote args).2.voteGranted = true) : rf.upToDate args = true := by
  have hadopt : (rf.adopt args.term).upToDate args = rf.upToDate args := by
    unfold Raft.adopt
    split
    · simp [Raft.upToDate, Raft.getLastEntryTerm]
    · rfl
  rw [Raft.requestVote_eq] at h
  split_ifs at h with hdead hlt hvote
  rw [← hadopt]
  exact hvote.2

theorem Sim.serve (h : Sim canon s a) {k : Nat} {p : Election.Pending n} (hp : s.polls.requests[k]? = some p)
    (hno : ¬((s.node p.server).dead = false ∧ (s.node p.server).state = .leader ∧
      (s.node p.server).currentTerm < p.call.args.term)) :
    ∃ a', Steps a a' ∧ Sim canon {s with polls := Election.serve k p s.polls} a' := by
  have hf : Fades (s.node p.server) ((s.node p.server).requestVote p.call.args).1 := requestVote_fades hno
  have hpolls := Election.serve_inv h.polls hp
  have hself : (Election.serve k p s.polls).nodes p.server =
      ((s.node p.server).requestVote p.call.args).1 := Function.update_self _ _ _
  cases hg : ((s.node p.server).requestVote p.call.args).2.voteGranted with
  | false =>
    refine h.fades_polls (i := p.server) hpolls (fun j hj => Function.update_of_ne hj _ _)
      (by rw [hself]; exact hf) (if_neg ?_) rfl (fun q hq => List.mem_of_mem_eraseIdx hq)
    rw [show (s.polls.nodes p.server).requestVote p.call.args =
      (s.node p.server).requestVote p.call.args from rfl, hg]
    decide
  | true =>
    have hnode := h.nodes p.server
    obtain ⟨hrt, hct, _⟩ := Election.requestVote_granted _ _ hg
    obtain ⟨haskt, haskc⟩ := h.polls.asked p (List.mem_of_getElem? hp)
    obtain ⟨c, hc, hcand, hcterm, hindex, hlast⟩ := h.asked p (List.mem_of_getElem? hp)
    have hvotes : (Election.serve k p s.polls).history.votes =
        (p.server, p.call.args.term, Election.nodeId p.candidate) :: s.polls.history.votes := by
      show (if ((s.node p.server).requestVote p.call.args).2.voteGranted then
        (p.server, ((s.node p.server).requestVote p.call.args).2.term, p.call.args.candidateId) ::
          s.polls.history.votes else s.polls.history.votes) = _
      rw [if_pos hg, hrt, haskc]
    obtain ⟨hl, hadvance⟩ := h.advanced p.server hf.moves.term
    rw [hct] at hl hadvance
    have hat : (a.advance p.server p.call.args.term).term p.server = p.call.args.term :=
      Function.update_self _ _ _
    have hvote : AbstractStep _ _ := Step.vote
      (s := a.advance p.server p.call.args.term) p.server c hc (hcterm.trans hat.symm)
      (by
        show AtLeast Prod.fst c.held (a.log p.server)
        have hpos := h.entry_pos p.server
        rw [hnode.log] at hpos ⊢
        exact upToDate_atLeast hnode.indexed hnode.included hpos hindex hlast (requestVote_upToDate hg))
      (by
        -- the node's own record says that it has voted for nobody else
        intro b hb hbv hbt
        have hold := (h.ballots b.voter b.term b.candidate).mpr ⟨b, hb, rfl, rfl, rfl⟩
        rw [hbv, hbt.trans hat] at hold
        have hsame := hpolls.backed.single p.server p.call.args.term _ _
          (by rw [hvotes]; exact List.mem_cons_of_mem _ hold) (by rw [hvotes]; exact List.mem_cons_self)
        rw [hcand]
        exact Election.nodeId_injective hsame)
    have hsteps : Steps a _ := (Relation.ReflTransGen.single hadvance).tail hvote
    refine ⟨_, hsteps, h.step (hl.trans (Local.vote _ _ _)) (hsteps.inv h.inv) ?_ ?_ hpolls ?_
      (fun _ hc => .inl hc) (fun q hq => .inl (List.mem_of_mem_eraseIdx hq)) (fun _ hq => .inl hq)
      (fun _ hp => .inl hp) (fun _ hc => .inl hc) (fun _ hd => .inl hd)⟩
    · refine ⟨fun j hj => ⟨Function.update_of_ne hj _ _, rfl, rfl⟩, rfl, fun hd => ?_, fun _ hc => hc⟩
      show ((Election.serve k p s.polls).nodes p.server).dead = true
      rw [hself, hf.quiet.dead, hd]
    · have hm := hnode.fades hf (h.polls.campaign p.server)
      rw [hct, ← hself] at hm
      exact hm.keep rfl rfl rfl (fun _ hc => hc) (fun _ hr => hr) (fun _ hr _ => hr) (fun _ hack => hack)
    · intro v u d
      show _ ↔ ∃ b ∈ Ballot.mk p.server ((a.advance p.server p.call.args.term).term p.server) c.candidate _ ::
        a.ballots, _
      rw [hvotes, List.mem_cons, h.ballots, hat, hcand]
      simp only [List.exists_mem_cons_iff, Prod.mk.injEq]
      constructor
      · rintro (⟨rfl, rfl, hid⟩ | hold)
        · exact .inl ⟨rfl, rfl, (Election.nodeId_injective hid).symm⟩
        · exact .inr hold
      · rintro (⟨rfl, rfl, rfl⟩ | hold)
        · exact .inl ⟨rfl, rfl, rfl⟩
        · exact .inr hold

/-- A reply that is counted belongs to the latest election of the candidate. -/
theorem latest {polls : Election.Cluster C n} (h : Election.Inv polls) {r : Election.Answered n}
    (hr : r ∈ polls.replies) (hterm : (polls.nodes r.candidate).currentTerm = r.call.term) :
    polls.history.campaign r.candidate = (polls.nodes r.candidate).currentTerm := by
  have hkey : r.key ∈ Election.keys polls :=
    List.mem_append_left _ (List.mem_append_right _ (List.mem_map_of_mem hr))
  have hrecent : r.call.term ≤ polls.history.campaign r.candidate := h.recent _ hkey
  have hbound := h.campaign r.candidate
  omega

/-- The candidate becomes leader: a majority has voted for it. -/
theorem Sim.elect (h : Sim canon s a) {k : Nat} {r : Election.Answered n} (hr : r ∈ s.polls.replies)
    (hpolls : Election.Inv (Election.receive k r s.polls)) (hstate : (s.node r.candidate).state = .candidate)
    (hwon : (s.node r.candidate).electionReply r.call.term r.reply =
      ({(s.node r.candidate).withVote.becomeLeader with electionDone := true}, true)) :
    ∃ a', Steps a a' ∧ Sim canon {s with polls := Election.receive k r s.polls} a' := by
  have hnode := h.nodes r.candidate
  have hcounts : Election.counts (s.node r.candidate) r.call.term r.reply = true := by
    cases hc : Election.counts (s.node r.candidate) r.call.term r.reply with
    | true => rfl
    | false =>
      have hlost := (Election.electionReply_uncounted _ _ _ hc).2
      rw [hwon] at hlost
      cases hlost
  have hterm := ((Election.counts_iff _ _ _).mp hcounts).1
  obtain ⟨hstood, hnew⟩ := hnode.standing hstate (latest h.polls hr hterm)
  rw [← hnode.term] at hstood hnew
  have hself : (Election.receive k r s.polls).nodes r.candidate =
      {(s.node r.candidate).withVote.becomeLeader with electionDone := true} := by
    show Function.update s.polls.nodes r.candidate _ r.candidate = _
    rw [Function.update_self]
    exact congrArg Prod.fst hwon
  have hmem : (r.candidate, a.term r.candidate) ∈ (Election.receive k r s.polls).history.won := by
    show _ ∈ if ((s.node r.candidate).electionReply r.call.term r.reply).2 then
      (r.candidate, ((s.node r.candidate).electionReply r.call.term r.reply).1.currentTerm) :: s.polls.history.won
      else s.polls.history.won
    rw [hwon, if_pos rfl, hnode.term]
    exact List.mem_cons_self
  have hquorum : (majority n).Quorum {v | ∃ b ∈ a.ballots, b.voter = v ∧ b.term = a.term r.candidate ∧
      b.candidate = r.candidate} := by
    obtain ⟨q, hq, hlen, hvotes⟩ := hpolls.majority _ _ hmem
    exact ⟨q, hq, hlen, fun v hv => (h.ballots v _ _).mp (hvotes v hv)⟩
  have helect : AbstractStep a _ := Step.elect r.candidate hstood hnew hquorum
  refine ⟨_, .single helect, h.step (Local.elect (h.inv.unelected hnew hquorum)) (helect.inv h.inv) ?_ ?_ hpolls
    h.ballots (fun _ hc => .inl hc) (fun _ hp => .inl hp) (fun _ hq => .inl hq) (fun _ hp => .inl hp)
    (fun _ hc => .inl hc) (fun _ hd => .inl hd)⟩
  · refine ⟨fun j hj => ⟨Function.update_of_ne hj _ _, rfl, rfl⟩, rfl, fun hd => ?_, fun _ hc => hc⟩
    show ((Election.receive k r s.polls).nodes r.candidate).dead = true
    rw [hself]
    exact hd
  · show Mirrors canon _ _ _ _ ((Election.receive k r s.polls).nodes r.candidate)
    rw [hself]
    refine
      { indexed := hnode.indexed, included := hnode.included, term := hnode.term, started := hnode.started
        log := hnode.log, commit := hnode.commit, item := hnode.item, count := hnode.count
        applied := hnode.applied, stream := hnode.stream
        standing := fun hc => absurd (show Role.leader = Role.candidate from hc) (by decide)
        reigning := fun _ => ⟨_, List.mem_cons_self, rfl, hnode.term⟩
        confirmed := ?_ }
    intro _ j tracker hj hpos
    -- the trackers start anew
    have hreset : ((s.node r.candidate).peerTrackers.map fun _ =>
        (⟨(s.node r.candidate).log.lastLogIndex + 1, 0⟩ : PeerTracker))[(j : Nat)]? = some tracker := hj
    rw [List.getElem?_map] at hreset
    obtain ⟨_, _, rfl⟩ := Option.map_eq_some_iff.mp hreset
    exact absurd hpos (lt_irrefl 0)

theorem Sim.receiveVote (h : Sim canon s a) {k : Nat} {r : Election.Answered n}
    (hr : s.polls.replies[k]? = some r) (hrule : Election.OwnVoteIgnored (.receive k) s.polls) :
    ∃ a', Steps a a' ∧ Sim canon {s with polls := Election.receive k r s.polls} a' := by
  have hpolls : Election.Inv (Election.receive k r s.polls) :=
    Election.step_inv (.receive k) s.polls _ h.polls hrule (by simp [Election.step, hr])
  have hself : (Election.receive k r s.polls).nodes r.candidate =
      ((s.node r.candidate).electionReply r.call.term r.reply).1 := Function.update_self _ _ _
  have hfades : ∀ {rf}, (s.node r.candidate).electionReply r.call.term r.reply = (rf, false) →
      Fades (s.node r.candidate) rf →
      ∃ a', Steps a a' ∧ Sim canon {s with polls := Election.receive k r s.polls} a' := by
    intro rf heq hf
    refine h.fades_polls (i := r.candidate) hpolls (fun j hj => Function.update_of_ne hj _ _) ?_ rfl rfl
      fun _ hp => hp
    rw [hself, heq]
    exact hf
  have hmoves := Raft.electionReply_moves (s.node r.candidate) r.call.term r.reply
  have hquiet := Raft.electionReply_quiet (s.node r.candidate) r.call.term r.reply
  rcases (s.node r.candidate).electionReply_cases r.call.term r.reply with heq | ⟨_, heq⟩ | ⟨_, heq⟩ | ⟨hstate, heq⟩
  · exact hfades heq (Fades.refl _)
  · rw [heq] at hmoves hquiet
    exact hfades heq (Fades.follower hquiet hmoves (by simp [Raft.abandon]) (by simp [Raft.abandon]))
  · exact hfades heq ⟨⟨rfl, rfl, rfl⟩, Raft.Moves.stay rfl rfl rfl, rfl, Leadership.Keeps.of_eq rfl rfl, id,
      fun _ _ tracker hj => ⟨tracker, hj, rfl⟩⟩
  · exact h.elect (List.mem_of_getElem? hr) hpolls hstate heq

theorem Sim.lose (h : Sim canon s a) {requests : List (Election.Pending n)}
    {replies : List (Election.Answered n)} (hrequests : requests.Sublist s.polls.requests)
    (hreplies : replies.Sublist s.polls.replies) :
    Sim canon {s with polls := {s.polls with requests := requests, replies := replies}} a :=
  { inv := h.inv, polls := h.polls.lose hrequests hreplies, nodes := h.nodes, ballots := h.ballots
    campaigns := h.campaigns, asked := fun p hp => h.asked p (hrequests.subset hp), requests := h.requests
    replies := h.replies, commits := h.commits, committed := h.committed, woken := h.woken }

end Wjetcd.Network
