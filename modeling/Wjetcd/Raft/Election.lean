import Wjetcd.Raft.Voting

/-! Elections in a cluster.

Node `i` (0-based) runs with `me = i + 1`, and `peers[i]` is its address, as the
makefile starts a cluster. A run interleaves `StartElection` on any node with the
service, loss, delay and reordering of the vote calls it spawns; a call is first
pending, then answered, then received by the candidate's goroutine.

`StartElection` skips the index `me`, which is its successor's, and so calls its
own address: the node votes for itself twice (`two_leaders`). `election_safety`
says that this is all that is wrong: as long as no node counts a vote from its
own address, a term has at most one leader. The invariant `Inv` keeps a history
of the votes cast and counted; its `distinct` clause is what makes
`electionVotes` a number of voters. -/
namespace Wjetcd.Election
open Runs

variable {C : Type} {n : Nat}

/-- A vote call on its way to the node behind the address it was sent to. -/
structure Pending (n : Nat) where
  candidate : Fin n
  server : Fin n
  call : Raft.VoteCall
deriving Repr, DecidableEq

/-- The call with its reply, on the way back. -/
structure Answered (n : Nat) where
  candidate : Fin n
  server : Fin n
  call : Raft.VoteCall
  reply : RequestVoteReply
deriving Repr, DecidableEq

/-- What has happened, for the proofs: votes cast (voter, term, candidate id), votes
that raised `electionVotes` (candidate, term, voter), the term of each node's
latest election, and the executions of `becomeLeader`. -/
structure History (n : Nat) where
  votes : List (Fin n × Int × Int)
  counted : List (Fin n × Int × Fin n)
  campaign : Fin n → Int
  won : List (Fin n × Int)

structure Cluster (C : Type) (n : Nat) where
  nodes : Fin n → Raft C
  requests : List (Pending n)
  replies : List (Answered n)
  history : History n

inductive Action (n : Nat) where
  | startElection (i : Fin n)
  | serve (k : Nat)
  | loseRequest (k : Nat)
  | receive (k : Nat)
  | loseReply (k : Nat)
deriving Repr, DecidableEq

/-- `peers[serverId]` is the address of node `serverId`. -/
def route (i : Fin n) (call : Raft.VoteCall) : Option (Pending n) :=
  if h : call.serverId < n then some ⟨i, ⟨call.serverId, h⟩, call⟩ else none

/-- The branch of the goroutine that raises `electionVotes`. -/
def counts (rf : Raft C) (term : Int) (reply : RequestVoteReply) : Bool :=
  decide (rf.currentTerm = term) && decide (rf.state = .candidate) && !rf.electionDone &&
    decide (reply.term = rf.currentTerm) && reply.voteGranted

def campaign (i : Fin n) (s : Cluster C n) : Cluster C n :=
  let result := (s.nodes i).startElection
  { nodes := Function.update s.nodes i result.1
    requests := result.2.filterMap (route i) ++ s.requests
    replies := s.replies
    history := {s.history with
      votes := (i, result.1.currentTerm, result.1.me) :: s.history.votes
      campaign := Function.update s.history.campaign i result.1.currentTerm} }

def serve (k : Nat) (p : Pending n) (s : Cluster C n) : Cluster C n :=
  let result := (s.nodes p.server).requestVote p.call.args
  { nodes := Function.update s.nodes p.server result.1
    requests := s.requests.eraseIdx k
    replies := ⟨p.candidate, p.server, p.call, result.2⟩ :: s.replies
    history := {s.history with
      votes := if result.2.voteGranted
        then (p.server, result.2.term, p.call.args.candidateId) :: s.history.votes
        else s.history.votes} }

def receive (k : Nat) (a : Answered n) (s : Cluster C n) : Cluster C n :=
  let result := (s.nodes a.candidate).electionReply a.call.term a.reply
  { nodes := Function.update s.nodes a.candidate result.1
    requests := s.requests
    replies := s.replies.eraseIdx k
    history := {s.history with
      counted := if counts (s.nodes a.candidate) a.call.term a.reply
        then (a.candidate, a.call.term, a.server) :: s.history.counted
        else s.history.counted
      won := if result.2 then (a.candidate, result.1.currentTerm) :: s.history.won
        else s.history.won} }

def step (action : Action n) (s : Cluster C n) : Option (Cluster C n) :=
  match action with
  | .startElection i => some (campaign i s)
  | .serve k => s.requests[k]?.map fun p => serve k p s
  | .loseRequest k => s.requests[k]?.map fun _ => {s with requests := s.requests.eraseIdx k}
  | .receive k => s.replies[k]?.map fun a => receive k a s
  | .loseReply k => s.replies[k]?.map fun _ => {s with replies := s.replies.eraseIdx k}

/-- Fresh nodes with ids 1 to n, no call in flight. -/
def boot (peers : List String) : Cluster C peers.length :=
  { nodes := fun i => Raft.make peers (i + 1) makePersister
    requests := []
    replies := []
    history := ⟨[], [], fun _ => 0, []⟩ }

/-- No two nodes have executed `becomeLeader` for the same term. -/
def Safe (s : Cluster C n) : Prop :=
  ∀ i j t, (i, t) ∈ s.history.won → (j, t) ∈ s.history.won → i = j

/-- A vote that comes back from the candidate's own address is not counted. -/
def OwnVoteIgnored (action : Action n) (s : Cluster C n) : Prop :=
  match action with
  | .receive k =>
    match s.replies[k]? with
    | some a => a.server = a.candidate → counts (s.nodes a.candidate) a.call.term a.reply = false
    | none => True
  | _ => True

/-! ### What the handlers do to a vote -/

theorem startElection_node (rf : Raft C) :
    rf.startElection.1.me = rf.me ∧ rf.startElection.1.peers = rf.peers ∧
      rf.startElection.1.currentTerm = rf.currentTerm + 1 ∧ rf.startElection.1.votedFor = rf.me ∧
      rf.startElection.1.electionVotes = 1 := by
  simp [Raft.startElection, Raft.becomeCandidate]

/-- Every call asks for a vote for this node in the new term, and no index twice. -/
theorem startElection_calls (rf : Raft C) :
    (∀ call ∈ rf.startElection.2, call.term = rf.currentTerm + 1 ∧
      call.args.term = rf.currentTerm + 1 ∧ call.args.candidateId = rf.me) ∧
      (rf.startElection.2.map Raft.VoteCall.serverId).Nodup := by
  constructor
  · intro call hcall
    simp only [Raft.startElection, List.mem_map] at hcall
    obtain ⟨i, _, rfl⟩ := hcall
    simp [Raft.becomeCandidate]
  · simp only [Raft.startElection, List.map_map, Function.comp_def, List.map_id']
    exact List.nodup_range.filter _

/-- Serving a request does not touch an election the node holds itself. -/
theorem requestVote_node (rf : Raft C) (args : RequestVoteArgs) :
    (rf.requestVote args).1.peers = rf.peers ∧
      (rf.requestVote args).1.electionVotes = rf.electionVotes := by
  have hadopt : (rf.adopt args.term).peers = rf.peers ∧
      (rf.adopt args.term).electionVotes = rf.electionVotes := by
    unfold Raft.adopt
    split <;> simp
  rcases rf.requestVote_cases args with ⟨_, h | h | h⟩ | ⟨_, _, h⟩
  · rw [h]
    exact ⟨rfl, rfl⟩
  · rw [h]
    simp
  · rw [h]
    exact hadopt
  · rw [h]
    simpa using hadopt

/-- A granted vote is for the asked term, and recorded. -/
theorem requestVote_granted (rf : Raft C) (args : RequestVoteArgs)
    (h : (rf.requestVote args).2.voteGranted = true) :
    (rf.requestVote args).2.term = args.term ∧ (rf.requestVote args).1.currentTerm = args.term ∧
      (rf.requestVote args).1.votedFor = args.candidateId := by
  rcases rf.requestVote_cases args with ⟨hdenied, _⟩ | ⟨hle, _, heq⟩
  · rw [h] at hdenied
    cases hdenied
  · have hterm : (rf.adopt args.term).currentTerm = args.term := by
      unfold Raft.adopt
      split
      · simp
      · omega
    rw [heq]
    simp [hterm]

theorem counts_iff (rf : Raft C) (term : Int) (reply : RequestVoteReply) :
    counts rf term reply = true ↔ rf.currentTerm = term ∧ rf.state = .candidate ∧
      rf.electionDone = false ∧ reply.term = rf.currentTerm ∧ reply.voteGranted = true := by
  simp [counts, and_assoc]

theorem electionReply_peers (rf : Raft C) (term : Int) (reply : RequestVoteReply) :
    (rf.electionReply term reply).1.peers = rf.peers := by
  rcases rf.electionReply_cases term reply with h | ⟨_, h⟩ | ⟨_, h⟩ | ⟨_, h⟩
  · rw [h]
  · rw [h]
    simp [Raft.abandon]
  · rw [h]
    rfl
  · rw [h]
    rfl

/-- A counted vote adds one, keeps the term, and elects past the half. -/
theorem electionReply_counted (rf : Raft C) (term : Int) (reply : RequestVoteReply)
    (h : counts rf term reply = true) :
    (rf.electionReply term reply).1.electionVotes = rf.electionVotes + 1 ∧
      (rf.electionReply term reply).1.currentTerm = rf.currentTerm ∧
      ((rf.electionReply term reply).2 = true → rf.peers.length / 2 < rf.electionVotes + 1) := by
  obtain ⟨ht, hs, hd, hr, hg⟩ := (counts_iff rf term reply).mp h
  have h1 : ¬reply.term > rf.currentTerm := by omega
  have h2 : ¬reply.term < rf.currentTerm := by omega
  subst ht
  unfold Raft.electionReply
  simp only [hs, hd, hg, h1, h2, ne_eq, not_true, if_false, Bool.false_eq_true, if_true]
  split
  · rename_i hwin
    simpa [Raft.becomeLeader, Raft.resetTrackedIndex] using hwin
  · simp

/-- Any other reply counts nothing and elects nobody. -/
theorem electionReply_uncounted (rf : Raft C) (term : Int) (reply : RequestVoteReply)
    (h : counts rf term reply = false) :
    (rf.electionReply term reply).1.electionVotes = rf.electionVotes ∧
      (rf.electionReply term reply).2 = false := by
  have hno : ¬(rf.currentTerm = term ∧ rf.state = .candidate ∧ rf.electionDone = false ∧
      reply.term = rf.currentTerm ∧ reply.voteGranted = true) := by
    intro hc
    rw [(counts_iff rf term reply).mpr hc] at h
    exact absurd h (by decide)
  unfold Raft.electionReply
  by_cases ht : rf.currentTerm = term
  · subst ht
    by_cases hs : rf.state = .candidate
    · cases hd : rf.electionDone
      · by_cases hgt : reply.term > rf.currentTerm
        · simp [hs, hgt]
        · by_cases hlt : reply.term < rf.currentTerm
          · simp [hs, hlt, hgt]
          · have hg : reply.voteGranted = false := by
              cases hg : reply.voteGranted
              · rfl
              · exact absurd ⟨rfl, hs, hd, by omega, hg⟩ hno
            simp [hs, hg, hlt, hgt]
      · simp [hs]
    · simp [hs]
  · simp [ht]

/-! ### Votes and the nodes that cast them -/

/-- The id a node runs with. -/
def nodeId (i : Fin n) : Int := (i : Nat) + 1

/-- Votes cast are backed by the voters' own records, and single in each term. -/
structure Backed (nodes : Fin n → Raft C) (votes : List (Fin n × Int × Int)) : Prop where
  someone : ∀ v t c, (v, t, c) ∈ votes → c ≠ Raft.noVote
  reached : ∀ v t c, (v, t, c) ∈ votes → t ≤ (nodes v).currentTerm
  recorded : ∀ v t c, (v, t, c) ∈ votes → (nodes v).currentTerm = t → (nodes v).votedFor = c
  single : ∀ v t c d, (v, t, c) ∈ votes → (v, t, d) ∈ votes → c = d

theorem backed_iff {nodes : Fin n → Raft C} {votes : List (Fin n × Int × Int)} :
    Backed nodes votes ↔ ∀ v, (nodes v).Pledged fun t c => (v, t, c) ∈ votes := by
  constructor
  · intro h v
    exact ⟨h.someone v, h.reached v, h.recorded v, h.single v⟩
  · intro h
    exact ⟨fun v => (h v).someone, fun v => (h v).reached, fun v => (h v).recorded, fun v => (h v).single⟩

theorem update_all (P : Fin n → Raft C → Prop) {nodes : Fin n → Raft C} {i : Fin n} {rf : Raft C}
    (h : ∀ j, P j (nodes j)) (hi : P i rf) (j : Fin n) : P j (Function.update nodes i rf j) := by
  by_cases hj : j = i
  · subst hj
    rw [Function.update_self]
    exact hi
  · rw [Function.update_of_ne hj]
    exact h j

/-- A node that only moves forward keeps what it has cast. -/
theorem Backed.update {nodes : Fin n → Raft C} {votes : List (Fin n × Int × Int)}
    (h : Backed nodes votes) (i : Fin n) {rf : Raft C} (hm : Raft.Moves (nodes i) rf) :
    Backed (Function.update nodes i rf) votes := by
  rw [backed_iff] at h ⊢
  exact update_all (fun v rf => rf.Pledged fun t c => (v, t, c) ∈ votes) h ((h i).moves hm)

/-- A node may add the vote it now has on record. -/
theorem Backed.cast {nodes : Fin n → Raft C} {votes : List (Fin n × Int × Int)}
    (h : Backed nodes votes) (i : Fin n) {rf : Raft C} (hm : Raft.Moves (nodes i) rf)
    (hsome : rf.votedFor ≠ Raft.noVote) :
    Backed (Function.update nodes i rf) ((i, rf.currentTerm, rf.votedFor) :: votes) := by
  rw [backed_iff] at h ⊢
  intro v
  by_cases hv : v = i
  · subst hv
    rw [Function.update_self]
    exact (((h v).moves hm).cast hsome).congr fun t c => by simp
  · rw [Function.update_of_ne hv]
    exact (h v).congr fun t c => by simp [hv]

/-! ### The invariant -/

/-- A call is known by its candidate, its term and the node it asks. -/
def Pending.key (p : Pending n) : Fin n × Int × Fin n := (p.candidate, p.call.term, p.server)
def Answered.key (a : Answered n) : Fin n × Int × Fin n := (a.candidate, a.call.term, a.server)

/-- The calls of all elections that are in flight or have been counted. -/
def keys (s : Cluster C n) : List (Fin n × Int × Fin n) :=
  s.requests.map Pending.key ++ s.replies.map Answered.key ++ s.history.counted

/-- The counted votes of one election. -/
def ballots (h : History n) (i : Fin n) (t : Int) : List (Fin n × Int × Fin n) :=
  h.counted.filter fun k => k.1 = i ∧ k.2.1 = t

structure Inv (s : Cluster C n) : Prop where
  me : ∀ i, (s.nodes i).me = nodeId i
  peers : ∀ i, (s.nodes i).peers.length = n
  backed : Backed s.nodes s.history.votes
  asked : ∀ p ∈ s.requests,
    p.call.args.term = p.call.term ∧ p.call.args.candidateId = nodeId p.candidate
  granted : ∀ a ∈ s.replies, a.reply.voteGranted = true →
    (a.server, a.call.term, nodeId a.candidate) ∈ s.history.votes
  counted : ∀ k ∈ s.history.counted, (k.2.2, k.2.1, nodeId k.1) ∈ s.history.votes ∧ k.2.2 ≠ k.1
  distinct : (keys s).Nodup
  own : ∀ k ∈ keys s, (k.1, k.2.1, nodeId k.1) ∈ s.history.votes
  recent : ∀ k ∈ keys s, k.2.1 ≤ s.history.campaign k.1
  campaign : ∀ i, s.history.campaign i ≤ (s.nodes i).currentTerm
  tally : ∀ i, (s.nodes i).electionVotes ≤ 1 + (ballots s.history i (s.history.campaign i)).length
  majority : ∀ i t, (i, t) ∈ s.history.won → ∃ q : List (Fin n),
    q.Nodup ∧ n / 2 < q.length ∧ ∀ v ∈ q, (v, t, nodeId i) ∈ s.history.votes

theorem nodeId_ne_noVote (i : Fin n) : nodeId i ≠ Raft.noVote := by
  unfold nodeId Raft.noVote
  omega

theorem nodeId_injective {i j : Fin n} (h : nodeId i = nodeId j) : i = j := by
  unfold nodeId at h
  exact Fin.ext (by omega)

theorem boot_inv (peers : List String) : Inv (boot peers : Cluster C peers.length) where
  me := fun _ => rfl
  peers := fun _ => rfl
  backed := ⟨by simp [boot], by simp [boot], by simp [boot], by simp [boot]⟩
  asked := by simp [boot]
  granted := by simp [boot]
  counted := by simp [boot]
  distinct := by simp [boot, keys]
  own := by simp [boot, keys]
  recent := by simp [boot, keys]
  campaign := fun _ => le_refl _
  tally := fun _ => Nat.zero_le _
  majority := by simp [boot]

/-- Two leaders of a term have a voter in common, who voted once. -/
theorem Inv.safe {s : Cluster C n} (h : Inv s) : Safe s := by
  intro i j t hi hj
  obtain ⟨p, hp, hpn, hpv⟩ := h.majority i t hi
  obtain ⟨q, hq, hqn, hqv⟩ := h.majority j t hj
  obtain ⟨v, hvp, hvq⟩ := majority_meet hp hq hpn hqn
  exact nodeId_injective (h.backed.single v t _ _ (hpv v hvp) (hqv v hvq))

/-! ### Steps -/

theorem takeout {α : Type} {l : List α} {k : Nat} {a : α} (h : l[k]? = some a) :
    (a :: l.eraseIdx k).Perm l := by
  obtain ⟨hk, rfl⟩ := List.getElem?_eq_some_iff.mp h
  exact List.getElem_cons_eraseIdx_perm hk

theorem route_eq {i : Fin n} {call : Raft.VoteCall} {p : Pending n} (h : route i call = some p) :
    p.candidate = i ∧ p.call = call ∧ (p.server : Nat) = call.serverId := by
  unfold route at h
  split at h
  · cases h
    exact ⟨rfl, rfl, rfl⟩
  · cases h

/-- Calls to different indices have different keys. -/
theorem route_nodup (i : Fin n) (calls : List Raft.VoteCall)
    (h : (calls.map Raft.VoteCall.serverId).Nodup) :
    ((calls.filterMap (route i)).map Pending.key).Nodup := by
  apply List.Nodup.of_map fun k => ((k.2.2 : Fin n) : Nat)
  have hids : ((calls.filterMap (route i)).map Pending.key).map (fun k => ((k.2.2 : Fin n) : Nat)) =
      (calls.map Raft.VoteCall.serverId).filter fun j => j < n := by
    clear h
    induction calls with
    | nil => rfl
    | cons call rest ih =>
      by_cases hlt : call.serverId < n
      · have hr : route i call = some ⟨i, ⟨call.serverId, hlt⟩, call⟩ := by simp [route, hlt]
        rw [List.filterMap_cons_some hr, List.map_cons, List.map_cons, ih, List.map_cons,
          List.filter_cons_of_pos (by simpa using hlt)]
        rfl
      · have hr : route i call = none := by simp [route, hlt]
        rw [List.filterMap_cons_none hr, ih, List.map_cons,
          List.filter_cons_of_neg (by simpa using hlt)]
  rw [hids]
  exact h.filter _

/-- The calls of an election carry the term it is held for. -/
theorem campaign_new (s : Cluster C n) (i : Fin n) :
    ∀ k ∈ ((s.nodes i).startElection.2.filterMap (route i)).map Pending.key,
      k.1 = i ∧ k.2.1 = (s.nodes i).startElection.1.currentTerm := by
  obtain ⟨_, _, hterm, _, _⟩ := startElection_node (s.nodes i)
  intro k hk
  obtain ⟨p, hp, rfl⟩ := List.mem_map.mp hk
  obtain ⟨call, hcall, hroute⟩ := List.mem_filterMap.mp hp
  obtain ⟨hc, hcc, _⟩ := route_eq hroute
  refine ⟨hc, ?_⟩
  show p.call.term = _
  rw [hcc, ((startElection_calls (s.nodes i)).1 call hcall).1, hterm]

theorem campaign_keys (s : Cluster C n) (i : Fin n) :
    keys (campaign i s) =
      ((s.nodes i).startElection.2.filterMap (route i)).map Pending.key ++ keys s := by
  simp only [keys, campaign, List.map_append, List.append_assoc]

/-- No call of the new election was made before: its term is later than that of any election
the node has held. -/
theorem campaign_distinct {s : Cluster C n} (h : Inv s) (i : Fin n) : (keys (campaign i s)).Nodup := by
  obtain ⟨_, _, hterm, _, _⟩ := startElection_node (s.nodes i)
  rw [campaign_keys]
  refine (route_nodup i _ (startElection_calls (s.nodes i)).2).append h.distinct fun k hk hold => ?_
  obtain ⟨hki, hkt⟩ := campaign_new s i k hk
  have h1 := h.recent k hold
  have h2 := h.campaign k.1
  rw [hki] at h1 h2
  omega

theorem campaign_recent {s : Cluster C n} (h : Inv s) (i : Fin n) :
    ∀ k ∈ keys (campaign i s), k.2.1 ≤ (campaign i s).history.campaign k.1 := by
  obtain ⟨_, _, hterm, _, _⟩ := startElection_node (s.nodes i)
  intro k hk
  rw [campaign_keys] at hk
  show k.2.1 ≤ Function.update s.history.campaign i _ k.1
  rcases List.mem_append.mp hk with hk | hk
  · obtain ⟨hki, hkt⟩ := campaign_new s i k hk
    rw [hki, Function.update_self, hkt]
  · have h1 := h.recent k hk
    by_cases hki : k.1 = i
    · have h2 := h.campaign i
      rw [hki] at h1
      rw [hki, Function.update_self]
      omega
    · rw [Function.update_of_ne hki]
      exact h1

theorem campaign_inv {s : Cluster C n} (h : Inv s) (i : Fin n) : Inv (campaign i s) := by
  obtain ⟨hme, hpeers, hterm, hvoted, hvotes⟩ := startElection_node (s.nodes i)
  have hcalls := (startElection_calls (s.nodes i)).1
  have hself : (s.nodes i).startElection.1.me = nodeId i := hme.trans (h.me i)
  have hsize : (s.nodes i).startElection.1.peers.length = n := by
    rw [hpeers]
    exact h.peers i
  have hcast := h.backed.cast i (Raft.startElection_moves (Int.lt_succ _))
    (by rw [hvoted, h.me i]; exact nodeId_ne_noVote i)
  rw [hvoted, ← hme] at hcast
  refine
    { me := update_all (fun j rf => rf.me = nodeId j) h.me hself
      peers := update_all (fun _ rf => rf.peers.length = n) h.peers hsize
      backed := hcast
      asked := ?_
      granted := fun a ha hg => List.mem_cons_of_mem _ (h.granted a ha hg)
      counted := fun k hk => ⟨List.mem_cons_of_mem _ (h.counted k hk).1, (h.counted k hk).2⟩
      distinct := campaign_distinct h i
      own := ?_
      recent := campaign_recent h i
      campaign := ?_
      tally := ?_
      majority := ?_ }
  · intro p hp
    rcases List.mem_append.mp hp with hp | hp
    · obtain ⟨call, hcall, hroute⟩ := List.mem_filterMap.mp hp
      obtain ⟨hc, hcc, _⟩ := route_eq hroute
      obtain ⟨h1, h2, h3⟩ := hcalls call hcall
      rw [hcc, hc, h1, h2, h3]
      exact ⟨rfl, h.me i⟩
    · exact h.asked p hp
  · intro k hk
    rw [campaign_keys] at hk
    rcases List.mem_append.mp hk with hk | hk
    · obtain ⟨hki, hkt⟩ := campaign_new s i k hk
      rw [hki, hkt, ← hself]
      exact List.mem_cons_self ..
    · exact List.mem_cons_of_mem _ (h.own k hk)
  · intro j
    show Function.update s.history.campaign i _ j ≤ (Function.update s.nodes i _ j).currentTerm
    by_cases hj : j = i
    · subst hj
      rw [Function.update_self, Function.update_self]
    · rw [Function.update_of_ne hj, Function.update_of_ne hj]
      exact h.campaign j
  · intro j
    show (Function.update s.nodes i _ j).electionVotes ≤
      1 + (ballots s.history j (Function.update s.history.campaign i _ j)).length
    by_cases hj : j = i
    · subst hj
      rw [Function.update_self, hvotes]
      omega
    · rw [Function.update_of_ne hj, Function.update_of_ne hj]
      exact h.tally j
  · intro j t hj
    obtain ⟨q, hq, hqn, hqv⟩ := h.majority j t hj
    exact ⟨q, hq, hqn, fun v hv => List.mem_cons_of_mem _ (hqv v hv)⟩

/-- A node moves on, without counting a vote. -/
theorem Inv.node {s : Cluster C n} (h : Inv s) (i : Fin n) {rf : Raft C} (hmoves : Raft.Moves (s.nodes i) rf)
    (hpeers : rf.peers = (s.nodes i).peers) (hvotes : rf.electionVotes = (s.nodes i).electionVotes) :
    Inv {s with nodes := Function.update s.nodes i rf} :=
  {h with
    me := update_all (fun j rf => rf.me = nodeId j) h.me (hmoves.me.trans (h.me i))
    peers := update_all (fun _ rf => rf.peers.length = n) h.peers (by rw [hpeers]; exact h.peers i)
    backed := h.backed.update i hmoves
    campaign := update_all (fun j rf => s.history.campaign j ≤ rf.currentTerm) h.campaign
      ((h.campaign i).trans hmoves.term)
    tally := update_all (fun j rf => rf.electionVotes ≤
      1 + (ballots s.history j (s.history.campaign j)).length) h.tally (by rw [hvotes]; exact h.tally i)}

/-- Calls get lost. -/
theorem Inv.lose {s : Cluster C n} (h : Inv s) {requests : List (Pending n)} {replies : List (Answered n)}
    (hrequests : requests.Sublist s.requests) (hreplies : replies.Sublist s.replies) :
    Inv {s with requests := requests, replies := replies} := by
  have hkeys : (keys {s with requests := requests, replies := replies}).Sublist (keys s) :=
    ((hrequests.map _).append (hreplies.map _)).append_right _
  exact {h with
    asked := fun p hp => h.asked p (hrequests.subset hp)
    granted := fun a ha => h.granted a (hreplies.subset ha)
    distinct := h.distinct.sublist hkeys
    own := fun k hk => h.own k (hkeys.subset hk)
    recent := fun k hk => h.recent k (hkeys.subset hk)}

theorem serve_inv {s : Cluster C n} (h : Inv s) {k : Nat} {p : Pending n}
    (hp : s.requests[k]? = some p) : Inv (serve k p s) := by
  obtain ⟨hpeers, hvotes⟩ := requestVote_node (s.nodes p.server) p.call.args
  have hmoves := Raft.requestVote_moves (s.nodes p.server) p.call.args
  have hnode := h.node p.server hmoves hpeers hvotes
  obtain ⟨haskedt, haskedc⟩ := h.asked p (List.mem_of_getElem? hp)
  -- the call moves from the requests to the replies
  have hkeys : (keys (serve k p s)).Perm (keys s) := by
    have htake := (takeout hp).map Pending.key
    simp only [keys, serve, List.map_cons]
    refine List.Perm.append_right _ ?_
    exact List.perm_middle.trans (htake.append_right _)
  have hmono : ∀ v, v ∈ s.history.votes → v ∈ (serve k p s).history.votes := by
    intro v hv
    simp only [serve]
    split
    · exact List.mem_cons_of_mem _ hv
    · exact hv
  refine
    { me := hnode.me
      peers := hnode.peers
      backed := ?_
      asked := fun q hq => h.asked q (List.mem_of_mem_eraseIdx hq)
      granted := ?_
      counted := fun c hc => ⟨hmono _ (h.counted c hc).1, (h.counted c hc).2⟩
      distinct := hkeys.nodup_iff.mpr h.distinct
      own := fun c hc => hmono _ (h.own c (hkeys.mem_iff.mp hc))
      recent := fun c hc => h.recent c (hkeys.mem_iff.mp hc)
      campaign := hnode.campaign
      tally := hnode.tally
      majority := ?_ }
  · simp only [serve]
    split
    · rename_i hg
      obtain ⟨hrt, hct, hcv⟩ := requestVote_granted _ _ hg
      rw [hrt, ← hct, ← hcv]
      refine h.backed.cast p.server hmoves ?_
      rw [hcv, haskedc]
      exact nodeId_ne_noVote _
    · exact hnode.backed
  · intro a ha hg
    rcases List.mem_cons.mp ha with rfl | ha
    · obtain ⟨hrt, _, _⟩ := requestVote_granted _ _ hg
      simp only [serve]
      rw [if_pos hg, hrt, haskedt, haskedc]
      exact List.mem_cons_self
    · exact hmono _ (h.granted a ha hg)
  · intro i t hi
    obtain ⟨q, hq, hqn, hqv⟩ := h.majority i t hi
    exact ⟨q, hq, hqn, fun v hv => hmono _ (hqv v hv)⟩

/-- The candidate and those whose votes it counted are that many voters. -/
theorem ballots_majority {s : Cluster C n} (h : Inv s) (i : Fin n) (t : Int)
    (hown : (i, t, nodeId i) ∈ s.history.votes) (hn : n / 2 < 1 + (ballots s.history i t).length) :
    ∃ q : List (Fin n), q.Nodup ∧ n / 2 < q.length ∧ ∀ v ∈ q, (v, t, nodeId i) ∈ s.history.votes := by
  have hb : ∀ k ∈ ballots s.history i t, k ∈ s.history.counted ∧ k.1 = i ∧ k.2.1 = t := by
    intro k hk
    simpa [ballots] using hk
  refine ⟨i :: (ballots s.history i t).map (fun k => k.2.2), ?_, ?_, ?_⟩
  · refine List.nodup_cons.mpr ⟨?_, ?_⟩
    · intro hi
      obtain ⟨k, hk, hki⟩ := List.mem_map.mp hi
      obtain ⟨hc, h1, _⟩ := hb k hk
      exact (h.counted k hc).2 (hki.trans h1.symm)
    · refine List.Nodup.map_on ?_ ((List.nodup_append.mp h.distinct).2.1.filter _)
      intro x hx y hy hxy
      obtain ⟨_, hx1, hx2⟩ := hb x hx
      obtain ⟨_, hy1, hy2⟩ := hb y hy
      exact Prod.ext (hx1.trans hy1.symm) (Prod.ext (hx2.trans hy2.symm) hxy)
  · rw [List.length_cons, List.length_map]
    omega
  · intro v hv
    rcases List.mem_cons.mp hv with rfl | hv
    · exact hown
    · obtain ⟨k, hk, rfl⟩ := List.mem_map.mp hv
      obtain ⟨hc, h1, h2⟩ := hb k hk
      have := (h.counted k hc).1
      rwa [h1, h2] at this

theorem receive_uncounted {s : Cluster C n} (h : Inv s) {k : Nat} {a : Answered n}
    (hc : counts (s.nodes a.candidate) a.call.term a.reply = false) : Inv (receive k a s) := by
  obtain ⟨hvotes, hlost⟩ := electionReply_uncounted _ _ _ hc
  have hmoves := Raft.electionReply_moves (s.nodes a.candidate) a.call.term a.reply
  have hnode := h.node a.candidate hmoves (electionReply_peers ..) hvotes
  have hreceive : receive k a s = {s with
      nodes := Function.update s.nodes a.candidate ((s.nodes a.candidate).electionReply a.call.term a.reply).1
      replies := s.replies.eraseIdx k} := by
    simp only [receive, hc, hlost, Bool.false_eq_true, if_false]
  rw [hreceive]
  exact hnode.lose (List.Sublist.refl _) (List.eraseIdx_sublist _ _)

/-- What a counted vote changes in the history: the ballots of the candidate, by one. -/
theorem receive_history {s : Cluster C n} {k : Nat} {a : Answered n}
    (hc : counts (s.nodes a.candidate) a.call.term a.reply = true) :
    (receive k a s).history.counted = a.key :: s.history.counted := by
  simp only [receive, hc, if_true]
  rfl

theorem receive_ballots {s : Cluster C n} {k : Nat} {a : Answered n}
    (hc : counts (s.nodes a.candidate) a.call.term a.reply = true) :
    (ballots (receive k a s).history a.candidate a.call.term).length =
      (ballots s.history a.candidate a.call.term).length + 1 := by
  unfold ballots
  rw [receive_history hc, List.filter_cons_of_pos (by simp [Answered.key]), List.length_cons]

theorem receive_ballots_other {s : Cluster C n} {k : Nat} {a : Answered n}
    (hc : counts (s.nodes a.candidate) a.call.term a.reply = true) {j : Fin n} (hj : j ≠ a.candidate)
    (t : Int) : ballots (receive k a s).history j t = ballots s.history j t := by
  unfold ballots
  rw [receive_history hc, List.filter_cons_of_neg]
  intro hcj
  exact hj (of_decide_eq_true hcj).1.symm

/-- The call moves from the replies to the counted votes. -/
theorem receive_keys {s : Cluster C n} {k : Nat} {a : Answered n} (ha : s.replies[k]? = some a)
    (hc : counts (s.nodes a.candidate) a.call.term a.reply = true) :
    (keys (receive k a s)).Perm (keys s) := by
  have htake := (takeout ha).map Answered.key
  simp only [keys, receive_history hc]
  refine List.perm_middle.trans ?_
  simp only [List.append_assoc]
  refine List.perm_middle.symm.trans (List.Perm.append_left _ ?_)
  exact htake.append_right _

/-- A vote from another node is counted: `electionVotes` is still a number of voters,
and past the half they are a majority. -/
theorem receive_counted {s : Cluster C n} (h : Inv s) {k : Nat} {a : Answered n}
    (ha : s.replies[k]? = some a) (hforeign : a.server ≠ a.candidate)
    (hc : counts (s.nodes a.candidate) a.call.term a.reply = true) : Inv (receive k a s) := by
  obtain ⟨hvotes, hterm, hwin⟩ := electionReply_counted _ _ _ hc
  have hmoves := Raft.electionReply_moves (s.nodes a.candidate) a.call.term a.reply
  obtain ⟨hcur, _, _, _, hg⟩ := (counts_iff _ _ _).mp hc
  have hmem : a ∈ s.replies := List.mem_of_getElem? ha
  have hself := hmoves.me.trans (h.me a.candidate)
  have hsize : ((s.nodes a.candidate).electionReply a.call.term a.reply).1.peers.length = n := by
    rw [electionReply_peers]
    exact h.peers a.candidate
  have hkey : a.key ∈ keys s :=
    List.mem_append_left _ (List.mem_append_right _ (List.mem_map_of_mem hmem))
  -- the election the vote belongs to is the node's latest
  have hlatest : s.history.campaign a.candidate = a.call.term := by
    have h1 : a.call.term ≤ s.history.campaign a.candidate := h.recent _ hkey
    have h2 := h.campaign a.candidate
    omega
  have hkeys := receive_keys ha hc
  have hballot := receive_ballots (k := k) hc
  have hinv : Inv {receive k a s with history := {(receive k a s).history with won := s.history.won}} :=
    { me := update_all (fun j rf => rf.me = nodeId j) h.me hself
      peers := update_all (fun _ rf => rf.peers.length = n) h.peers hsize
      backed := h.backed.update a.candidate hmoves
      asked := h.asked
      granted := fun b hb => h.granted b (List.mem_of_mem_eraseIdx hb)
      counted := by
        show ∀ c ∈ (receive k a s).history.counted, _
        rw [receive_history hc]
        intro c hc
        rcases List.mem_cons.mp hc with rfl | hc
        · exact ⟨h.granted a hmem hg, hforeign⟩
        · exact h.counted c hc
      distinct := hkeys.nodup_iff.mpr h.distinct
      own := fun c hc => h.own c (hkeys.mem_iff.mp hc)
      recent := fun c hc => h.recent c (hkeys.mem_iff.mp hc)
      campaign := update_all (fun j rf => s.history.campaign j ≤ rf.currentTerm) h.campaign
        ((h.campaign a.candidate).trans hterm.ge)
      tally := by
        intro j
        show (Function.update s.nodes a.candidate _ j).electionVotes ≤
          1 + (ballots (receive k a s).history j (s.history.campaign j)).length
        by_cases hj : j = a.candidate
        · rw [hj, Function.update_self, hvotes, hlatest, hballot]
          have := h.tally a.candidate
          rw [hlatest] at this
          omega
        · rw [Function.update_of_ne hj, receive_ballots_other hc hj]
          exact h.tally j
      majority := h.majority }
  refine {hinv with majority := ?_}
  intro i t hi
  simp only [receive] at hi
  split at hi
  · rename_i hflag
    rcases List.mem_cons.mp hi with heq | hi
    · -- the new leader: its ballots and its own vote
      cases heq
      rw [hterm, hcur]
      refine ballots_majority hinv a.candidate a.call.term (h.own _ hkey) ?_
      have hlt := hwin hflag
      rw [h.peers] at hlt
      have htally := h.tally a.candidate
      rw [hlatest] at htally
      show n / 2 < 1 + (ballots (receive k a s).history a.candidate a.call.term).length
      rw [hballot]
      omega
    · exact h.majority i t hi
  · exact h.majority i t hi

theorem step_inv (action : Action n) (s t : Cluster C n) (h : Inv s)
    (hr : OwnVoteIgnored action s) (hs : step action s = some t) : Inv t := by
  cases action with
  | startElection i =>
    cases hs
    exact campaign_inv h i
  | serve k =>
    obtain ⟨p, hp, rfl⟩ := Option.map_eq_some_iff.mp hs
    exact serve_inv h hp
  | loseRequest k =>
    obtain ⟨p, _, rfl⟩ := Option.map_eq_some_iff.mp hs
    exact h.lose (List.eraseIdx_sublist _ _) (List.Sublist.refl _)
  | receive k =>
    obtain ⟨a, ha, rfl⟩ := Option.map_eq_some_iff.mp hs
    simp only [OwnVoteIgnored, ha] at hr
    cases hc : counts (s.nodes a.candidate) a.call.term a.reply
    · exact receive_uncounted h hc
    · refine receive_counted h ha (fun hown => ?_) hc
      rw [hr hown] at hc
      exact absurd hc (by decide)
  | loseReply k =>
    obtain ⟨a, _, rfl⟩ := Option.map_eq_some_iff.mp hs
    exact h.lose (List.Sublist.refl _) (List.eraseIdx_sublist _ _)

/-! ### Runs -/

/-- **A term has at most one leader**, in every run in which no node counts a vote
that comes back from its own address. -/
theorem election_safety (peers : List String) (actions : List (Action peers.length))
    (s : Cluster C peers.length)
    (hr : Along step OwnVoteIgnored (boot peers : Cluster C peers.length) actions)
    (hs : run step (boot peers) actions = some s) : Safe s :=
  (run_invariant step_inv actions _ _ (boot_inv peers) hr hs).safe

/-- Node 1 elected by node 3's vote. -/
theorem election_safety_three :
    ∃ s : Cluster Unit 3,
      run step (boot ["a", "b", "c"]) [.startElection 0, .serve 1, .receive 0] = some s ∧
      s.history.won = [(0, 1)] ∧ Safe s :=
  ⟨_, rfl, by decide, election_safety ["a", "b", "c"] [.startElection 0, .serve 1, .receive 0] _
    ⟨trivial, trivial, fun h => absurd h (by decide), trivial⟩ rfl⟩

/-- Nodes 1 and 2 each count their own vote twice and both lead term 1. -/
theorem two_leaders :
    ¬∀ (peers : List String) (actions : List (Action peers.length)) (s : Cluster Unit peers.length),
      run step (boot peers) actions = some s → Safe s := by
  intro h
  have hs : Safe _ := h ["a", "b", "c"]
    [.startElection (0 : Fin 3), .serve 0, .receive 0, .startElection (1 : Fin 3), .serve 1,
      .receive 0] _ rfl
  exact absurd (hs (0 : Fin 3) (1 : Fin 3) 1 (by decide) (by decide)) (by decide)

end Wjetcd.Election
