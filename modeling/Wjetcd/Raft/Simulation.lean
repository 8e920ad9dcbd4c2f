import Wjetcd.Lib.Consensus
import Wjetcd.Raft.Network
import Wjetcd.Raft.Replication

/-! The cluster of the code takes steps of the abstract protocol.

`Sim` relates a cluster to a state of `Consensus`: what each node holds (`Mirrors`), what the
votes, messages and replies in flight say about the past (`Asks`, `Carries`, `Confirms`), and
what has been committed (`Stands`). `step_sim` says that a sane step of the cluster is a
sequence of steps of the protocol, by one case per action.

Commands are compared as `canon` makes them: what `wire` does to a command on the way has to
leave its canonical form alone. -/
namespace Wjetcd.Network
open Runs Consensus

variable {C D : Type} {n : Nat}

/-! ### The abstract view -/

/-- Majorities of the nodes. -/
def majority (n : Nat) : Electorate (Fin n) where
  Quorum s := ∃ q : List (Fin n), q.Nodup ∧ n / 2 < q.length ∧ ∀ v ∈ q, v ∈ s
  mono := by
    rintro a b hab ⟨q, hq, hlen, hmem⟩
    exact ⟨q, hq, hlen, fun v hv => hab (hmem v hv)⟩
  meet := by
    rintro a b ⟨p, hp, hplen, hpmem⟩ ⟨q, hq, hqlen, hqmem⟩
    obtain ⟨v, hvp, hvq⟩ := majority_meet hp hq hplen hqlen
    exact ⟨v, hpmem v hvp, hqmem v hvq⟩

/-- The abstract protocol with terms and canonical commands as entries. -/
abbrev Abstract (n : Nat) (D : Type) : Type := State (Fin n) Int (Int × D)

/-- One of its steps. -/
abbrev AbstractStep (a a' : Abstract n D) : Prop := Consensus.Step Prod.fst (majority n) a a'

/-- Any number of its steps. -/
abbrev Steps (a a' : Abstract n D) : Prop := Consensus.Steps Prod.fst (majority n) a a'

abbrev AbstractInv (a : Abstract n D) : Prop := Consensus.Inv Prod.fst (majority n) a

/-- The messages that hand on a log from its beginning. -/
def messages (l : List (Int × D)) : List (Option (Int × D)) := l.mapIdx fun k e => some (k, e.2)

theorem messages_concat (l : List (Int × D)) (e : Int × D) :
    messages (l ++ [e]) = messages l ++ [some ((l.length : Int), e.2)] := by
  simp [messages, List.mapIdx_append]

theorem messages_begins {l l' : List (Int × D)} (h : l <+: l') : messages l <+: messages l' := by
  obtain ⟨rest, rfl⟩ := h
  simp [messages, List.mapIdx_append]

@[simp] theorem messages_length (l : List (Int × D)) : (messages l).length = l.length := by
  simp [messages]

section View
variable (canon : C → D)

/-- An entry as the abstract protocol has it. -/
def view (e : Entry C) : Int × D := (e.term, canon e.command)

/-- A message as far as commands go. -/
def content : ApplyMsg C → Option (Int × D)
  | .command i c => some (i, canon c)
  | .snapshot _ _ _ => none

end View

/-- The term of the last entry, and 0 for an empty log. -/
def lastTerm (l : List (Int × D)) : Int := (l.getLast?.map Prod.fst).getD 0

/-! ### The relation -/

section Relation
variable (canon : C → D) (a : Abstract n D)

/-- A node, its service and its latest campaign against the abstract state. -/
structure Mirrors (campaign : Int) (delivered : List (ApplyMsg C)) (i : Fin n) (rf : Raft C) : Prop where
  indexed : rf.log.Indexed
  included : rf.snapshotLastIncludeTerm = 0
  term : a.term i = rf.currentTerm
  started : 0 ≤ rf.currentTerm
  log : a.log i = rf.log.entries.map (view canon)
  /-- `CommitIndex` is the initial one or what the node has learnt. -/
  commit : rf.commitIndex = 0 ∧ a.known i = 0 ∨ 0 ≤ rf.commitIndex ∧ rf.commitIndex + 1 = a.known i
  item : rf.applyHelper.lastItemIndex = rf.lastApplied
  count : rf.lastApplied + 1 = (delivered ++ rf.applyHelper.q).length
  applied : (delivered ++ rf.applyHelper.q).length ≤ a.known i
  stream : (delivered ++ rf.applyHelper.q).map (content canon) =
    messages ((a.log i).take (delivered ++ rf.applyHelper.q).length)
  /-- A candidate in its latest election holds the log it stood with, and has not led. -/
  standing : rf.state = .candidate → campaign = rf.currentTerm →
    ⟨i, rf.currentTerm, a.log i⟩ ∈ a.campaigns ∧ ∀ r ∈ a.reigns, r.leader = i → r.term ≠ rf.currentTerm
  reigning : rf.state = .leader → ∃ r ∈ a.reigns, r.leader = i ∧ r.term = rf.currentTerm
  /-- But for index 0, which is where `matchIndex` starts, it has been confirmed. -/
  confirmed : rf.state = .leader → ∀ (j : Fin n) (tracker : PeerTracker),
    rf.peerTrackers[(j : Nat)]? = some tracker → 0 < tracker.matchIndex →
    ∃ ack ∈ a.acks, ack.node = j ∧ ack.term = rf.currentTerm ∧ tracker.matchIndex + 1 ≤ ack.length

/-- A vote call tells what its candidate held. -/
def Asks (p : Election.Pending n) : Prop :=
  ∃ c ∈ a.campaigns, c.candidate = p.candidate ∧ c.term = p.call.args.term ∧
    p.call.args.lastLogIndex + 1 = c.held.length ∧ p.call.args.lastLogTerm = lastTerm c.held

/-- An append message has what a leader held when it sent it, from an index on. -/
structure Carried (args : RequestAppendEntriesArgs C) (r : Reign (Fin n) Int (Int × D))
    (whole : List (Int × D)) (k : Nat) : Prop where
  held : r.held <+: whole
  ledger : whole <+: a.ledger r.term
  term : args.leaderTerm = r.term
  from_le : k ≤ whole.length
  prev : args.prevLogIndex + 1 = k
  prevTerm : ∀ e, 0 < k → whole[k - 1]? = some e → args.prevLogTerm = e.1
  entries : args.entries.map (view canon) = whole.drop k
  commit : args.leaderCommit ≤ 0 ∨ ∃ c ∈ a.commits, c.term ≤ r.term ∧ args.leaderCommit + 1 ≤ c.length ∧
    (a.ledger c.term).take (args.leaderCommit + 1).toNat <+: whole

/-- A heartbeat has nothing, another message entries of a leader; nobody writes to itself. -/
def Carries (q : Applied.Request C n) : Prop :=
  if q.heart then q.args.prevLogIndex = 0 ∧ q.args.entries = [] ∧ q.args.leaderCommit = 0
  else q.source ≠ q.target ∧ ∃ r ∈ a.reigns, ∃ whole k, Carried canon a q.args r whole k

/-- A reply with `Success` stands for what the follower has taken over. -/
def Confirms (p : Applied.Reply C n) : Prop :=
  p.request.heart = false → p.request.source ≠ p.request.target ∧
    (p.reply.success = true → p.reply.followerTerm = p.request.args.leaderTerm ∧
      ∃ ack ∈ a.acks, ack.node = p.request.target ∧ ack.term = p.request.args.leaderTerm ∧
        p.request.args.prevLogIndex + p.request.args.entries.length + 1 ≤ ack.length)

/-- A commit of the code is one of the protocol. -/
def Matches (c : Commit C n) (d : Consensus.Commit Int) : Prop :=
  d.term = c.term ∧ c.entries.map (view canon) = (a.ledger d.term).take d.length

/-- What a node committed is committed, and the node knows. -/
def Stands (c : Commit C n) : Prop :=
  0 < a.known c.node ∧ ∃ d ∈ a.commits, Matches canon a c d

end Relation

/-- The cluster as a state of the abstract protocol. -/
structure Sim (canon : C → D) (s : Cluster C n) (a : Abstract n D) : Prop where
  inv : AbstractInv a
  polls : Election.Inv s.polls
  nodes : ∀ i, Mirrors canon a (s.polls.history.campaign i) (s.delivered i) i (s.node i)
  ballots : ∀ v t c, (v, t, Election.nodeId c) ∈ s.polls.history.votes ↔
    ∃ b ∈ a.ballots, b.voter = v ∧ b.term = t ∧ b.candidate = c
  campaigns : ∀ c ∈ a.campaigns, 0 < c.term
  asked : ∀ p ∈ s.polls.requests, Asks a p
  requests : ∀ q ∈ s.requests, Carries canon a q
  replies : ∀ p ∈ s.replies, Confirms a p
  commits : ∀ c ∈ s.commits, Stands canon a c
  committed : ∀ d ∈ a.commits, ∃ c ∈ s.commits, Matches canon a c d
  /-- Only a kill wakes up a node that knows of no commit. -/
  woken : ∀ i, s.appliers i = .woken → (s.node i).dead = true ∨ 0 < a.known i

/-! ### What a step of one node leaves alone -/

section Local
variable {canon : C → D} {a a' : Abstract n D} {i : Fin n}

/-- What a node mirrors does not depend on anything else in the abstract state. -/
theorem Mirrors.keep {campaign : Int} {delivered : List (ApplyMsg C)} {rf : Raft C}
    (h : Mirrors canon a campaign delivered i rf) (hterm : a'.term i = a.term i) (hlog : a'.log i = a.log i)
    (hknown : a'.known i = a.known i) (hcampaigns : ∀ c ∈ a.campaigns, c ∈ a'.campaigns)
    (hgrow : ∀ r ∈ a.reigns, r ∈ a'.reigns) (hreigns : ∀ r ∈ a'.reigns, r.leader = i → r ∈ a.reigns)
    (hacks : ∀ ack ∈ a.acks, ack ∈ a'.acks) : Mirrors canon a' campaign delivered i rf := by
  refine
    { indexed := h.indexed
      included := h.included
      term := hterm.trans h.term
      started := h.started
      log := hlog.trans h.log
      commit := by rw [hknown]; exact h.commit
      item := h.item
      count := h.count
      applied := by rw [hknown]; exact h.applied
      stream := by rw [hlog]; exact h.stream
      standing := ?_
      reigning := ?_
      confirmed := ?_ }
  · intro hc hcampaign
    obtain ⟨hstood, hnew⟩ := h.standing hc hcampaign
    refine ⟨by rw [hlog]; exact hcampaigns _ hstood, ?_⟩
    intro r hr hleader
    exact hnew r (hreigns r hr hleader) hleader
  · intro hlead
    obtain ⟨r, hr, hrest⟩ := h.reigning hlead
    exact ⟨r, hgrow r hr, hrest⟩
  · intro hlead k tracker hk hpos
    obtain ⟨ack, hack, hrest⟩ := h.confirmed hlead k tracker hk hpos
    exact ⟨ack, hacks ack hack, hrest⟩

theorem Mirrors.other {campaign : Int} {delivered : List (ApplyMsg C)} {j : Fin n} {rf : Raft C}
    (h : Mirrors canon a campaign delivered j rf) (hl : Local i a a') (hj : j ≠ i) :
    Mirrors canon a' campaign delivered j rf := by
  obtain ⟨hterm, hlog, hknown⟩ := hl.others j hj
  refine h.keep hterm hlog hknown hl.campaigns hl.grows.reigns ?_ hl.acks
  intro r hr hleader
  rcases hl.reigns r hr with hold | hi
  · exact hold
  · exact absurd (hleader.symm.trans hi) hj

theorem Asks.later {p : Election.Pending n} (h : Asks a p) (hl : Local i a a') : Asks a' p :=
  let ⟨c, hc, hrest⟩ := h
  ⟨c, hl.campaigns c hc, hrest⟩

theorem Carries.later (hinv : AbstractInv a) {q : Applied.Request C n} (h : Carries canon a q)
    (hl : Local i a a') : Carries canon a' q := by
  unfold Carries at h ⊢
  split at h
  · rename_i hheart
    rw [if_pos hheart]
    exact h
  · rename_i hheart
    rw [if_neg hheart]
    obtain ⟨hself, r, hr, whole, k, hc⟩ := h
    refine ⟨hself, r, hl.grows.reigns r hr, whole, k, {hc with ledger := ?_, commit := ?_}⟩
    · exact hc.ledger.trans (hl.grows.ledger r hr)
    · rcases hc.commit with hnone | ⟨c, hmem, hterm, hle, hpre⟩
      · exact .inl hnone
      · refine .inr ⟨c, hl.commits c hmem, hterm, hle, ?_⟩
        rw [hl.grows.take_commit hinv hmem (by omega)]
        exact hpre

theorem Confirms.later {p : Applied.Reply C n} (h : Confirms a p) (hl : Local i a a') : Confirms a' p := by
  intro hheart
  obtain ⟨hself, hsuccess⟩ := h hheart
  refine ⟨hself, fun hs => ?_⟩
  obtain ⟨hterm, ack, hack, hrest⟩ := hsuccess hs
  exact ⟨hterm, ack, hl.acks ack hack, hrest⟩

theorem Matches.later (hinv : AbstractInv a) {c : Commit C n} {d : Consensus.Commit Int} (hd : d ∈ a.commits)
    (h : Matches canon a c d) (hl : Local i a a') : Matches canon a' c d := by
  refine ⟨h.1, ?_⟩
  rw [hl.grows.take_commit hinv hd le_rfl]
  exact h.2

theorem Stands.later (hinv : AbstractInv a) {c : Commit C n} (h : Stands canon a c) (hl : Local i a a') :
    Stands canon a' c := by
  obtain ⟨hknown, d, hd, hmatches⟩ := h
  exact ⟨hknown.trans_le (hl.known _), d, hl.commits d hd, hmatches.later hinv hd hl⟩

/-- A step of one node: the other nodes are as they were, nobody is woken, and nothing that
was committed or stopped is not any more. -/
structure Apart (i : Fin n) (s t : Cluster C n) : Prop where
  others : ∀ j, j ≠ i → t.node j = s.node j ∧ t.delivered j = s.delivered j ∧
    t.polls.history.campaign j = s.polls.history.campaign j
  appliers : t.appliers = s.appliers
  dead : (s.node i).dead = true → (t.node i).dead = true
  commits : ∀ c ∈ s.commits, c ∈ t.commits

theorem Apart.setNode {s : Cluster C n} {rf : Raft C} (hdead : (s.node i).dead = true → rf.dead = true) :
    Apart i s (s.setNode i rf) where
  others _ hj := ⟨Function.update_of_ne hj _ _, rfl, rfl⟩
  appliers := rfl
  dead hd := by
    rw [show (s.setNode i rf).node i = rf from Function.update_self _ _ _]
    exact hdead hd
  commits _ hc := hc

/-- What such a step has to show is about that node and about what is new. -/
theorem Sim.step {s t : Cluster C n} (h : Sim canon s a) (hl : Local i a a') (hinv : AbstractInv a')
    (hapart : Apart i s t)
    (hnode : Mirrors canon a' (t.polls.history.campaign i) (t.delivered i) i (t.node i))
    (hpolls : Election.Inv t.polls)
    (hballots : ∀ v u c, (v, u, Election.nodeId c) ∈ t.polls.history.votes ↔
      ∃ b ∈ a'.ballots, b.voter = v ∧ b.term = u ∧ b.candidate = c)
    (hcampaigns : ∀ c ∈ a'.campaigns, c ∈ a.campaigns ∨ 0 < c.term)
    (hasked : ∀ p ∈ t.polls.requests, p ∈ s.polls.requests ∨ Asks a' p)
    (hrequests : ∀ q ∈ t.requests, q ∈ s.requests ∨ Carries canon a' q)
    (hreplies : ∀ p ∈ t.replies, p ∈ s.replies ∨ Confirms a' p)
    (hcommits : ∀ c ∈ t.commits, c ∈ s.commits ∨ Stands canon a' c)
    (hcommitted : ∀ d ∈ a'.commits, d ∈ a.commits ∨ ∃ c ∈ t.commits, Matches canon a' c d) :
    Sim canon t a' where
  inv := hinv
  polls := hpolls
  nodes j := by
    by_cases hj : j = i
    · subst hj
      exact hnode
    · obtain ⟨hnode, hdelivered, hcampaign⟩ := hapart.others j hj
      rw [hnode, hdelivered, hcampaign]
      exact (h.nodes j).other hl hj
  ballots := hballots
  campaigns c hc := (hcampaigns c hc).elim (h.campaigns c) id
  asked p hp := (hasked p hp).elim (fun hold => (h.asked p hold).later hl) id
  requests q hq := (hrequests q hq).elim (fun hold => (h.requests q hold).later h.inv hl) id
  replies p hp := (hreplies p hp).elim (fun hold => (h.replies p hold).later hl) id
  commits c hc := (hcommits c hc).elim (fun hold => (h.commits c hold).later h.inv hl) id
  committed d hd := by
    rcases hcommitted d hd with hold | hnew
    · obtain ⟨c, hc, hmatches⟩ := h.committed d hold
      exact ⟨c, hapart.commits c hc, hmatches.later h.inv hold hl⟩
    · exact hnew
  woken j hj := by
    rw [hapart.appliers] at hj
    rcases h.woken j hj with hdead | hknown
    · by_cases hji : j = i
      · subst hji
        exact .inl (hapart.dead hdead)
      · rw [(hapart.others j hji).1]
        exact .inl hdead
    · exact .inr (hknown.trans_le (hl.known j))

end Local

section Fading
variable {canon : C → D} {s : Cluster C n} {a : Abstract n D} {i : Fin n}

/-! ### Steps that only move a node on -/

/-- The node may learn of a later term, and may lose its role. -/
structure Fades (rf rf' : Raft C) : Prop where
  quiet : Raft.Quiet rf rf'
  moves : Raft.Moves rf rf'
  included : rf'.snapshotLastIncludeTerm = rf.snapshotLastIncludeTerm
  keeps : Leadership.Keeps rf rf'
  candidate : rf'.state = .candidate → rf.state = .candidate
  trackers : rf'.state = .leader → ∀ (j : Nat) (tracker : PeerTracker), rf'.peerTrackers[j]? = some tracker →
    ∃ old : PeerTracker, rf.peerTrackers[j]? = some old ∧ old.matchIndex = tracker.matchIndex

theorem Fades.refl (rf : Raft C) : Fades rf rf :=
  ⟨Raft.Quiet.refl rf, Raft.Moves.refl rf, rfl, Leadership.Keeps.of_eq rfl rfl, id,
    fun _ _ tracker h => ⟨tracker, h, rfl⟩⟩

/-- A node that follows from now on. -/
theorem Fades.follower {rf rf' : Raft C} (hquiet : Raft.Quiet rf rf') (hmoves : Raft.Moves rf rf')
    (hincluded : rf'.snapshotLastIncludeTerm = rf.snapshotLastIncludeTerm) (hstate : rf'.state = .follower) :
    Fades rf rf' :=
  ⟨hquiet, hmoves, hincluded, Leadership.Keeps.of_demoted (by simp [hstate]), by simp [hstate],
    by simp [hstate]⟩

theorem Mirrors.fades {campaign : Int} {delivered : List (ApplyMsg C)} {rf rf' : Raft C}
    (h : Mirrors canon a campaign delivered i rf) (hf : Fades rf rf') (hcampaign : campaign ≤ rf.currentTerm) :
    Mirrors canon (a.advance i rf'.currentTerm) campaign delivered i rf' := by
  have hlog : rf'.log = rf.log := congrArg Raft.Feed.log hf.quiet.feed
  have happlied : rf'.lastApplied = rf.lastApplied := congrArg Raft.Feed.lastApplied hf.quiet.feed
  have hhelper : rf'.applyHelper = rf.applyHelper := congrArg Raft.Feed.helper hf.quiet.feed
  have hterm := hf.moves.term
  refine
    { indexed := by rw [hlog]; exact h.indexed
      included := hf.included.trans h.included
      term := Function.update_self _ _ _
      started := h.started.trans hterm
      log := by rw [hlog]; exact h.log
      commit := by rw [hf.quiet.commit]; exact h.commit
      item := by rw [hhelper, happlied]; exact h.item
      count := by rw [hhelper, happlied]; exact h.count
      applied := by rw [hhelper]; exact h.applied
      stream := by rw [hhelper]; exact h.stream
      standing := ?_
      reigning := ?_
      confirmed := ?_ }
  · intro hc hlatest
    -- a campaign in the present term was one in the term before
    have hsame : rf'.currentTerm = rf.currentTerm := by omega
    rw [hsame] at hlatest ⊢
    exact h.standing (hf.candidate hc) hlatest
  · intro hlead
    obtain ⟨hold, hsame⟩ := hf.keeps hlead
    rw [hsame]
    exact h.reigning hold
  · intro hlead j tracker hj hpos
    obtain ⟨hold, hsame⟩ := hf.keeps hlead
    obtain ⟨old, hget, hmatch⟩ := hf.trackers hlead j tracker hj
    rw [hsame, ← hmatch]
    exact h.confirmed hold j old hget (by omega)

theorem Sim.advanced (h : Sim canon s a) (i : Fin n) {t : Int} (hterm : (s.node i).currentTerm ≤ t) :
    Local i a (a.advance i t) ∧ AbstractStep a (a.advance i t) := by
  have hle : a.term i ≤ t := by
    rw [(h.nodes i).term]
    exact hterm
  exact ⟨Local.advance hle, Step.advance i t hle⟩

/-- Such a step is one of the abstract node into that term, whatever becomes of the vote
calls in flight. -/
theorem Sim.fades_polls (h : Sim canon s a) {polls : Election.Cluster C n} (hpolls : Election.Inv polls)
    (hnodes : ∀ j, j ≠ i → polls.nodes j = s.node j) (hf : Fades (s.node i) (polls.nodes i))
    (hvotes : polls.history.votes = s.polls.history.votes)
    (hcampaign : polls.history.campaign = s.polls.history.campaign)
    (hrequests : ∀ p ∈ polls.requests, p ∈ s.polls.requests) :
    ∃ a', Steps a a' ∧ Sim canon {s with polls := polls} a' := by
  obtain ⟨hl, hstep⟩ := h.advanced i hf.moves.term
  refine ⟨_, .single hstep, h.step hl (hstep.inv h.inv) ?_ ?_ hpolls ?_ (fun _ hc => .inl hc)
    (fun p hp => .inl (hrequests p hp)) (fun _ hq => .inl hq) (fun _ hp => .inl hp) (fun _ hc => .inl hc)
    (fun _ hd => .inl hd)⟩
  · exact ⟨fun j hj => ⟨hnodes j hj, rfl, congrFun hcampaign j⟩, rfl, fun hd => hf.quiet.dead.trans hd,
      fun _ hc => hc⟩
  · have hm := (h.nodes i).fades hf (h.polls.campaign i)
    rw [← hcampaign] at hm
    exact hm
  · rw [hvotes]
    exact h.ballots

theorem Sim.fades (h : Sim canon s a) {rf : Raft C} (hf : Fades (s.node i) rf)
    (hpeers : rf.peers = (s.node i).peers) (hvotes : rf.electionVotes = (s.node i).electionVotes) :
    ∃ a', Steps a a' ∧ Sim canon (s.setNode i rf) a' := by
  refine h.fades_polls (i := i) (h.polls.node i hf.moves hpeers hvotes) (fun j hj => Function.update_of_ne hj _ _)
    ?_ rfl rfl fun _ hp => hp
  show Fades (s.node i) (Function.update s.polls.nodes i rf i)
  rw [Function.update_self]
  exact hf

/-- Who waits for commits matters as far as that goes. -/
theorem Sim.setApplier (h : Sim canon s a) {applier : Applied.Applier}
    (hwoken : applier = .woken → (s.node i).dead = true ∨ 0 < a.known i) :
    Sim canon (s.setApplier i applier) a :=
  { h with
    woken := by
      intro j hj
      have hj' : Function.update s.appliers i applier j = .woken := hj
      by_cases hji : j = i
      · subst hji
        rw [Function.update_self] at hj'
        exact hwoken hj'
      · rw [Function.update_of_ne hji] at hj'
        exact h.woken j hj' }

theorem Sim.reply (h : Sim canon s a) {replies : List (Applied.Reply C n)}
    (hreplies : ∀ p ∈ replies, p ∈ s.replies ∨ Confirms a p) : Sim canon {s with replies := replies} a :=
  { inv := h.inv, polls := h.polls, nodes := h.nodes, ballots := h.ballots, campaigns := h.campaigns
    asked := h.asked, requests := h.requests
    replies := fun p hp => (hreplies p hp).elim (h.replies p) id
    commits := h.commits, committed := h.committed, woken := h.woken }

end Fading

end Wjetcd.Network
