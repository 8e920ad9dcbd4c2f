import Wjetcd.Raft.Applied
import Wjetcd.Raft.Election

/-! The nodes of a deployed cluster and everything between them.

`Election` has the vote calls, `Applied` the append messages; here they run together, over
the same nodes. A vote call is one HTTP request, answered at most once; an append message
may be handled any number of times, in any order or never. What is submitted to a leader
is sent on as JSON, so what the entries carry is changed on the way (`wire`). The goroutine
of `sendMsgToTester` queues what is committed, the one of `ApplyHelper` hands the queue to
the service (`deliver`). Any node may be stopped at any time; nodes are not restarted, and
as the server never calls `Snapshot`, no log is ever compacted.

`Sane` is the rule under which the rest of the development follows a run: it excludes the
places at which the protocol of the code is known to part from Raft, each by what happens
there and by nothing else. -/
namespace Wjetcd

/-- The message as the receiver decodes it. -/
def RequestAppendEntriesArgs.received {C : Type} (wire : C → C) (args : RequestAppendEntriesArgs C) :
    RequestAppendEntriesArgs C :=
  {args with entries := args.entries.map fun e => {e with command := wire e.command}}

namespace Network
open Runs

variable {C : Type} {n : Nat}

/-- An execution of the line of `tryCommitL` that sets `CommitIndex`: by whom, in which
term, and what the log had up to there. -/
structure Commit (C : Type) (n : Nat) where
  node : Fin n
  term : Int
  entries : List (Entry C)

/-- The nodes with their vote calls, the goroutines that wait for commits, the append
messages and replies, what the services have been given, and the commits so far. -/
structure Cluster (C : Type) (n : Nat) where
  polls : Election.Cluster C n
  appliers : Fin n → Applied.Applier
  requests : List (Applied.Request C n)
  replies : List (Applied.Reply C n)
  delivered : Fin n → List (ApplyMsg C)
  commits : List (Commit C n)

inductive Action (C : Type) (n : Nat) where
  | election (action : Election.Action n)
  | start (i : Fin n) (command : C)
  | send (i target : Fin n) (heart : Bool)
  | handle (k : Nat)
  | receive (k : Nat)
  | enter (i : Fin n)
  | wake (i : Fin n)
  | deliver (i : Fin n)
  /-- The first line of `Kill`, which does not wait for the mutex. -/
  | stop (i : Fin n)
  | kill (i : Fin n)

namespace Cluster
variable (s : Cluster C n)

def node (i : Fin n) : Raft C := s.polls.nodes i

def setNode (i : Fin n) (rf : Raft C) : Cluster C n :=
  {s with polls := {s.polls with nodes := Function.update s.polls.nodes i rf}}

/-- `applyCond.Broadcast()` of a node. -/
def broadcast (i : Fin n) : Cluster C n :=
  {s with appliers := Function.update s.appliers i (s.appliers i).broadcast}

def setApplier (i : Fin n) (applier : Applied.Applier) : Cluster C n :=
  {s with appliers := Function.update s.appliers i applier}

end Cluster

section Steps
variable (wire : C → C)

def handle (s : Cluster C n) (r : Applied.Request C n) : Cluster C n :=
  let args := r.args.received wire
  let result := (s.node r.target).handleAppendEntriesRPC args
  let t := s.setNode r.target result.1
  {if Applied.follows (s.node r.target) args then t.broadcast r.target else t with
    replies := s.replies ++ (result.2.map fun reply => ⟨r, reply⟩).toList}

/-- A reply to a heartbeat or to entries; a panic takes the process down. -/
def receive (s : Cluster C n) (r : Applied.Reply C n) : Option (Cluster C n) :=
  let rf := s.node r.request.source
  let target : Nat := r.request.target
  if r.request.heart then some (s.setNode r.request.source (rf.heartbeatReply r.reply))
  else
    (rf.appendReply target r.request.args r.reply).map fun rf' =>
      match rf.commitsOn target r.request.args r.reply with
      | none => s.setNode r.request.source rf'
      | some m =>
        {(s.setNode r.request.source rf').broadcast r.request.source with
          commits := ⟨r.request.source, rf.currentTerm, rf.log.entries.take (m + 1).toNat⟩ :: s.commits}

def step (action : Action C n) (s : Cluster C n) : Option (Cluster C n) :=
  match action with
  | .election action => (Election.step action s.polls).map fun polls => {s with polls := polls}
  | .start i command => ((s.node i).start command).map fun result => s.setNode i result.1
  | .send i target heart =>
    (Applied.outgoing (s.node i) target heart).map fun args =>
      {s with requests := s.requests ++ [⟨i, target, heart, args⟩]}
  | .handle k => s.requests[k]?.map fun r => handle wire s r
  | .receive k => s.replies[k]?.bind fun r => receive s r
  | .enter i =>
    if s.appliers i = .starting then
      some (s.setApplier i (if (s.node i).dead then .exited else .waiting))
    else none
  | .wake i =>
    if s.appliers i = .woken then
      ((s.node i).sendMsgToTester (Applied.turns (s.node i))).map fun rf =>
        (s.setNode i rf).setApplier i (if rf.dead then .exited else .waiting)
    else none
  | .deliver i =>
    match (s.node i).applyHelper.q with
    | [] => none
    | msg :: rest =>
      some {s.setNode i {s.node i with applyHelper := {(s.node i).applyHelper with q := rest}} with
        delivered := Function.update s.delivered i (s.delivered i ++ [msg])}
  | .stop i => some (s.setNode i {s.node i with dead := true})
  | .kill i => some ((s.setNode i (s.node i).kill).broadcast i)

end Steps

/-- Fresh nodes with ids 1 to n, nothing in flight. -/
def boot (peers : List String) : Cluster C peers.length :=
  { polls := Election.boot peers
    appliers := fun _ => .starting
    requests := []
    replies := []
    delivered := fun _ => []
    commits := [] }

/-! ### The rule -/

/-- A live leader is not asked for a vote in a higher term. -/
def NoHigherVote (s : Cluster C n) (k : Nat) : Prop :=
  ∀ p ∈ s.polls.requests[k]?,
    ¬((s.node p.server).dead = false ∧ (s.node p.server).state = .leader ∧
      (s.node p.server).currentTerm < p.call.args.term)

/-- A message with the entries from index 1 on, where it gets as far as the log, finds the
leader's first entry there, although that is not checked. -/
def FirstChecked (s : Cluster C n) (k : Nat) : Prop :=
  ∀ r ∈ s.requests[k]?, r.heart = false → r.args.prevLogIndex = 0 →
    (s.node r.target).dead = false → (s.node r.target).currentTerm ≤ r.args.leaderTerm →
    ∃ e ∈ (s.node r.target).log.getOneEntry 0, e.term = r.args.prevLogTerm

/-- Index 0, which counts as confirmed by everybody, is committed on one confirmation only
where that is a majority. -/
def FirstConfirmed (s : Cluster C n) (k : Nat) : Prop :=
  ∀ r ∈ s.replies[k]?, r.request.heart = false →
    (s.node r.request.source).commitsOn r.request.target r.request.args r.reply = some 0 → n ≤ 3

/-- A node that is woken up by being stopped does not take its initial `CommitIndex` for a
commit. -/
def FirstCommitted (s : Cluster C n) (i : Fin n) : Prop :=
  (s.node i).dead = true → 0 < (s.node i).commitIndex ∨ ∃ c ∈ s.commits, c.node = i

/-- None of the places is met at which the code is not Raft. -/
def Sane (action : Action C n) (s : Cluster C n) : Prop :=
  match action with
  | .election (.serve k) => NoHigherVote s k
  | .election action => Election.OwnVoteIgnored action s.polls
  | .handle k => FirstChecked s k
  | .receive k => FirstConfirmed s k
  | .wake i => FirstCommitted s i
  | _ => True

instance (s : Cluster C n) (k : Nat) : Decidable (NoHigherVote s k) := by
  delta NoHigherVote
  infer_instance

instance (s : Cluster C n) (k : Nat) : Decidable (FirstChecked s k) := by
  delta FirstChecked
  infer_instance

instance (s : Cluster C n) (k : Nat) : Decidable (FirstConfirmed s k) := by
  delta FirstConfirmed
  infer_instance

instance (s : Cluster C n) (i : Fin n) : Decidable (FirstCommitted s i) := by
  delta FirstCommitted
  infer_instance

instance (action : Action C n) (s : Cluster C n) : Decidable (Sane action s) :=
  match action with
  | .election (.serve k) => inferInstanceAs (Decidable (NoHigherVote s k))
  | .election (.receive k) =>
    match h : s.polls.replies[k]? with
    | none => .isTrue (by simp [Sane, Election.OwnVoteIgnored, h])
    | some a =>
      decidable_of_iff (a.server = a.candidate →
        Election.counts (s.node a.candidate) a.call.term a.reply = false)
        (by simp [Sane, Election.OwnVoteIgnored, h, Cluster.node])
  | .election (.startElection _) => .isTrue trivial
  | .election (.loseRequest _) => .isTrue trivial
  | .election (.loseReply _) => .isTrue trivial
  | .handle k => inferInstanceAs (Decidable (FirstChecked s k))
  | .receive k => inferInstanceAs (Decidable (FirstConfirmed s k))
  | .wake i => inferInstanceAs (Decidable (FirstCommitted s i))
  | .start _ _ | .send _ _ _ | .enter _ | .deliver _ | .stop _ | .kill _ => .isTrue trivial

/-! ### A change of leaders -/

/-- The leader `i` commits two commands, the second of which only `k` gets, and stops. -/
def leads {C : Type} {n : Nat} (i j k : Fin n) (c d : C) : List (Action C n) :=
  [.election (.startElection i), .election (.serve 1), .election (.receive 0), .enter i, .enter j, .enter k,
    .start i c, .send i j false, .send i k false, .handle 0, .handle 1, .receive 0, .wake i, .deliver i,
    .start i d, .send i k false, .handle 2, .receive 2, .wake i, .deliver i, .stop i, .kill i]

/-- The node `k` takes over, and brings `j` up to date. -/
def succeeds {C : Type} {n : Nat} (j k : Fin n) (e : C) : List (Action C n) :=
  [.election (.startElection k), .election (.serve 1), .election (.receive 0), .start k e,
    .send k j false, .handle 3, .receive 3, .send k j false, .handle 4, .receive 4, .wake k, .deliver k,
    .deliver k, .deliver k, .send k j false, .handle 5, .wake j, .deliver j]

def changes {C : Type} (c d e : C) : List (Action C 3) :=
  leads ⟨0, by decide⟩ ⟨1, by decide⟩ ⟨2, by decide⟩ c d ++ succeeds ⟨1, by decide⟩ ⟨2, by decide⟩ e

/-- Where that leads. -/
def changed {C : Type} (wire : C → C) (c d e : C) : Cluster C 3 :=
  (run (step wire) (boot ["a", "b", "c"]) (changes c d e)).getD (boot ["a", "b", "c"])

end Network
end Wjetcd
