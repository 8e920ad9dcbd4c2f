import Wjetcd.Raft.Leadership

/-! One vote a term.

A node supports a candidate by standing for election itself or by granting a vote.
`votedFor` is written in seven places, and every one of them obeys `Moves`: the term
never goes down, and within a term a vote that has been cast stays. With that a node's
record backs the whole history of its support (`Pledged`), and no term has two
candidates in it (`one_vote_per_term`), whatever calls the node gets in whatever order.
The id -1 is one exception: it stands for no vote, so a vote for it would not be
remembered. The other is the largest term of 64 bits, which any message can bring: a
candidate that counts on from there starts over below zero (`term_starts_over`). -/
namespace Wjetcd

variable {C : Type}

namespace Raft

/-! ### Term and vote move forward -/

/-- The term does not go down, and while it stays a cast vote stays. -/
structure Moves (rf rf' : Raft C) : Prop where
  me : rf'.me = rf.me
  term : rf.currentTerm ≤ rf'.currentTerm
  vote : rf'.currentTerm = rf.currentTerm → rf.votedFor ≠ noVote → rf'.votedFor = rf.votedFor

namespace Moves
variable {rf rf' : Raft C}

theorem stay (hme : rf'.me = rf.me) (hterm : rf'.currentTerm = rf.currentTerm)
    (hvote : rf'.votedFor = rf.votedFor) : Moves rf rf' :=
  ⟨hme, hterm.ge, fun _ _ => hvote⟩

theorem refl (rf : Raft C) : Moves rf rf := stay rfl rfl rfl

/-- A later term forgets the vote. -/
theorem later (hme : rf'.me = rf.me) (hterm : rf.currentTerm < rf'.currentTerm) : Moves rf rf' := by
  refine ⟨hme, hterm.le, ?_⟩
  intro heq
  omega

theorem trans {rf'' : Raft C} (h : Moves rf rf') (h' : Moves rf' rf'') : Moves rf rf'' := by
  refine ⟨h'.me.trans h.me, h.term.trans h'.term, ?_⟩
  intro heq hcast
  have hfirst := h.term
  have hsecond := h'.term
  have hvote := h.vote (by omega) hcast
  rw [h'.vote (by omega) (by rw [hvote]; exact hcast), hvote]

end Moves

theorem persist_moves (rf : Raft C) : Moves rf rf.persist := Moves.stay (by simp) (by simp) (by simp)

/-- The term after this one is a later one. -/
def Counts [Width] (action : Leadership.Action C) (rf : Raft C) : Prop :=
  match action with
  | .startElection => rf.currentTerm < wrap (rf.currentTerm + 1)
  | _ => True

theorem startElection_moves [Width] {rf : Raft C} (h : rf.currentTerm < wrap (rf.currentTerm + 1)) :
    Moves rf rf.startElection.1 := by
  refine Moves.later ?_ ?_
  · simp [startElection, becomeCandidate]
  · simpa only [startElection, becomeCandidate, persist_currentTerm] using h

theorem electionReply_moves [Width] (rf : Raft C) (term : Int) (reply : RequestVoteReply) :
    Moves rf (rf.electionReply term reply).1 := by
  rcases rf.electionReply_cases term reply with h | ⟨hlt, h⟩ | ⟨_, h⟩ | ⟨_, h⟩
  · rw [h]
    exact Moves.refl rf
  · rw [h]
    exact Moves.later (by simp [abandon]) (by simpa [abandon] using hlt)
  · rw [h]
    exact Moves.stay rfl rfl rfl
  · rw [h]
    exact Moves.stay rfl rfl rfl

theorem adopt_moves (rf : Raft C) (term : Int) : Moves rf (rf.adopt term) := by
  unfold adopt
  split
  · rename_i hgt
    exact Moves.later (by simp) (by simpa using hgt)
  · exact Moves.refl rf

/-- The one handler that casts a vote does so where none has been cast, or again for
the same candidate. -/
theorem requestVote_moves [Width] (rf : Raft C) (args : RequestVoteArgs) : Moves rf (rf.requestVote args).1 := by
  rcases rf.requestVote_cases args with ⟨_, h | h | h⟩ | ⟨_, hfree, h⟩
  · rw [h]
    exact Moves.refl rf
  · rw [h]
    exact persist_moves rf
  · rw [h]
    exact adopt_moves rf _
  · rw [h]
    refine (adopt_moves rf args.term).trans ⟨by simp, by simp, ?_⟩
    intro _ hcast
    rw [persist_votedFor]
    exact (hfree.resolve_left hcast).symm

theorem observeLeader_moves (rf : Raft C) (term : Int) : Moves rf (rf.observeLeader term) := by
  unfold observeLeader
  dsimp only
  split
  · rename_i hgt
    exact Moves.later (by simp) (by simpa using hgt)
  · exact Moves.stay rfl rfl rfl

theorem handleAppendEntriesRPC_moves [Width] (rf : Raft C) (args : RequestAppendEntriesArgs C) :
    Moves rf (rf.handleAppendEntriesRPC args).1 := by
  have hentries : Moves rf (rf.withEntries args) :=
    (observeLeader_moves rf args.leaderTerm).trans (Moves.stay rfl rfl rfl)
  rcases rf.handleAppendEntriesRPC_cases args with ⟨_, h | h⟩ | ⟨_, h | h⟩
  · rw [h]
    exact Moves.refl rf
  · rw [h]
    exact observeLeader_moves rf _
  · rw [h]
    exact hentries
  · rw [h]
    refine hentries.trans ?_
    unfold followCommit
    split
    · exact Moves.stay rfl rfl rfl
    · exact Moves.refl _

theorem stepDown_moves {rf : Raft C} {term : Int} (h : rf.currentTerm < term) :
    Moves rf (rf.stepDown term) :=
  Moves.later (by simp [stepDown]) (by simpa [stepDown] using h)

theorem followSnapshot_moves (rf : Raft C) (term : Int) : Moves rf (rf.followSnapshot term) := by
  unfold followSnapshot
  split
  · rename_i hgt
    exact Moves.later rfl hgt
  · exact Moves.stay rfl rfl rfl

theorem installState_moves [Width] (rf : Raft C) (args : RequestInstallSnapShotArgs) :
    Moves rf (rf.installState args).1 := by
  unfold installState
  dsimp only
  split
  · exact Moves.stay rfl rfl rfl
  · split
    · exact Moves.stay rfl rfl rfl
    · exact Moves.stay rfl rfl rfl

theorem requestInstallSnapshot_moves [Width] (rf : Raft C) (args : RequestInstallSnapShotArgs) :
    Moves rf (rf.requestInstallSnapshot args).1 := by
  have hfollow := followSnapshot_moves rf args.term
  rcases rf.requestInstallSnapshot_cases args with h | ⟨_, h | ⟨_, h⟩⟩
  · rw [h]
    exact Moves.refl rf
  · rw [h]
    exact hfollow.trans (persist_moves _)
  · rw [h]
    exact (hfollow.trans (installState_moves _ args)).trans (persist_moves _)

theorem heartbeatReply_moves (rf : Raft C) (reply : RequestAppendEntriesReply) :
    Moves rf (rf.heartbeatReply reply) := by
  rcases rf.heartbeatReply_cases reply with h | ⟨hlt, h⟩
  · rw [h]
    exact Moves.refl rf
  · rw [h]
    exact stepDown_moves hlt

section Replies
variable {rf rf' : Raft C}

theorem tryCommitL_moves [Width] {matchIndex : Int} (h : rf.tryCommitL matchIndex = some rf') : Moves rf rf' := by
  rcases tryCommitL_cases h with ⟨_, rfl⟩ | ⟨_, rfl⟩
  · exact Moves.stay rfl rfl rfl
  · exact Moves.refl _

theorem appendReply_moves [Width] {target : Nat} {args : RequestAppendEntriesArgs C}
    {reply : RequestAppendEntriesReply} (h : rf.appendReply target args reply = some rf') :
    Moves rf rf' := by
  rcases appendReply_cases h with rfl | ⟨hlt, rfl⟩ | ⟨_, tracker, _, ⟨next, rfl⟩ | ⟨_, _, hcommit⟩⟩
  · exact Moves.refl _
  · exact stepDown_moves hlt
  · exact Moves.stay rfl rfl rfl
  · have htracked : Moves rf (rf.acknowledged target args) := Moves.stay rfl rfl rfl
    exact htracked.trans (tryCommitL_moves hcommit)

theorem installSnapshotReply_moves [Width] {serverId : Nat} {args : RequestInstallSnapShotArgs}
    {reply : RequestInstallSnapShotReply} (h : rf.installSnapshotReply serverId args reply = some rf') :
    Moves rf rf' := by
  rcases installSnapshotReply_cases h with rfl | ⟨hlt, rfl⟩ | ⟨_, hcommit⟩
  · exact Moves.refl _
  · exact stepDown_moves hlt
  · have htracked : Moves rf (rf.setTracker serverId
        ⟨wrap (args.lastIncludeIndex + 1), args.lastIncludeIndex⟩) := Moves.stay rfl rfl rfl
    exact htracked.trans (tryCommitL_moves hcommit)

theorem start_moves [Width] {command : C} {result : Raft C × Int × Int × Bool}
    (h : rf.start command = some result) : Moves rf result.1 := by
  rcases start_cases h with heq | ⟨_, log, _, heq⟩
  · rw [heq]
    exact Moves.refl rf
  · rw [heq]
    exact Moves.stay (by simp) (by simp) (by simp)

theorem takeSnapshot_moves [Width] {index : Int} {snapshot : List UInt8}
    (h : rf.takeSnapshot index snapshot = some rf') : Moves rf rf' := by
  rcases takeSnapshot_cases h with rfl | ⟨_, _, term, log, _, _, rfl⟩
  · exact Moves.refl _
  · exact Moves.stay (by simp [compacted]) (by simp [compacted]) (by simp [compacted])

theorem applyNext_moves [Width] (h : rf.applyNext = some rf') : Moves rf rf' := by
  obtain ⟨_, entry, helper, _, _, rfl⟩ := applyNext_cases h
  exact Moves.stay rfl rfl rfl

end Replies

theorem handles_counts [Width] :
    Leadership.Handles fun action (rf rf' : Raft C) => Counts action rf → Moves rf rf' where
  startElection := fun _ => startElection_moves
  electionReply := fun rf term reply _ => electionReply_moves rf term reply
  requestVote := fun rf args _ => requestVote_moves rf args
  handleAppendEntriesRPC := fun rf args _ => handleAppendEntriesRPC_moves rf args
  requestInstallSnapshot := fun rf args _ => requestInstallSnapshot_moves rf args
  heartbeatReply := fun rf reply _ => heartbeatReply_moves rf reply
  appendReply := fun h _ => appendReply_moves h
  installSnapshotReply := fun h _ => installSnapshotReply_moves h
  start := fun h _ => start_moves h
  takeSnapshot := fun h _ => takeSnapshot_moves h
  applyNext := fun _ h _ => applyNext_moves h
  wait := fun rf _ => Moves.refl rf
  kill := fun _ _ => Moves.stay rfl rfl rfl

/-! ### A record that backs a history of votes -/

/-- `votes t c` says that the node has supported `c` in term `t`. Every such vote is in a
term the node has reached, the one of its present term is on record, and no term has
two. -/
structure Pledged (rf : Raft C) (votes : Int → Int → Prop) : Prop where
  someone : ∀ t c, votes t c → c ≠ noVote
  reached : ∀ t c, votes t c → t ≤ rf.currentTerm
  recorded : ∀ t c, votes t c → rf.currentTerm = t → rf.votedFor = c
  single : ∀ t c d, votes t c → votes t d → c = d

namespace Pledged
variable {rf rf' : Raft C} {votes : Int → Int → Prop}

/-- A node that moves forward keeps what it has cast. -/
theorem moves (h : Pledged rf votes) (hm : Moves rf rf') : Pledged rf' votes := by
  have hterm := hm.term
  refine ⟨h.someone, ?_, ?_, h.single⟩
  · intro t c hv
    have hle := h.reached t c hv
    omega
  · intro t c hv heq
    have hle := h.reached t c hv
    have hrec := h.recorded t c hv (by omega)
    rw [hm.vote (by omega) (by rw [hrec]; exact h.someone t c hv), hrec]

/-- It may add the vote it now has on record. -/
theorem cast (h : Pledged rf votes) (hsome : rf.votedFor ≠ noVote) :
    Pledged rf fun t c => (t = rf.currentTerm ∧ c = rf.votedFor) ∨ votes t c := by
  refine ⟨?_, ?_, ?_, ?_⟩
  · intro t c hv
    rcases hv with ⟨_, rfl⟩ | hv
    · exact hsome
    · exact h.someone t c hv
  · intro t c hv
    rcases hv with ⟨rfl, _⟩ | hv
    · exact le_rfl
    · exact h.reached t c hv
  · intro t c hv heq
    rcases hv with ⟨_, rfl⟩ | hv
    · rfl
    · exact h.recorded t c hv heq
  · intro t c d hc hd
    -- an earlier vote of this term is the one on record
    rcases hc with ⟨rfl, rfl⟩ | hc <;> rcases hd with ⟨ht, rfl⟩ | hd
    · rfl
    · exact h.recorded _ d hd rfl
    · exact (h.recorded t c hc ht.symm).symm
    · exact h.single t c d hc hd

theorem congr {votes' : Int → Int → Prop} (h : Pledged rf votes) (heq : ∀ t c, votes' t c ↔ votes t c) :
    Pledged rf votes' := by
  have hvotes : votes' = votes := by
    funext t c
    exact propext (heq t c)
  rw [hvotes]
  exact h

end Pledged
end Raft

/-! ### Runs -/

namespace Voting
open Runs
open Leadership (Action)

/-- A node, and whom it has supported in which term. -/
structure Voter (C : Type) where
  node : Raft C
  support : List (Int × Int)

/-- Whom a call makes the node support: itself when it becomes a candidate, and the
candidate of a vote it grants. -/
def supports [Width] (action : Action C) (rf : Raft C) : List (Int × Int) :=
  match action with
  | .startElection => [(rf.becomeCandidate.currentTerm, rf.becomeCandidate.me)]
  | .requestVote args =>
    if (rf.requestVote args).2.voteGranted then [((rf.requestVote args).2.term, args.candidateId)] else []
  | _ => []

def step [Width] (action : Action C) (s : Voter C) : Option (Voter C) :=
  (Leadership.step action ⟨s.node, []⟩).map fun t => ⟨t.node, supports action s.node ++ s.support⟩

def boot (peers : List String) (me : Int) (persister : Persister C) : Voter C :=
  ⟨Raft.make peers me persister, []⟩

/-- Candidates have ids other than -1. -/
def Named (action : Action C) (_ : Voter C) : Prop :=
  match action with
  | .requestVote args => args.candidateId ≠ Raft.noVote
  | _ => True

/-- Whatever support a call adds is what the node then has on record. -/
theorem supports_recorded [Width] {action : Action C} {s t : Voter C} (hs : step action s = some t) :
    ∀ p ∈ supports action s.node, p.1 = t.node.currentTerm ∧ p.2 = t.node.votedFor := by
  obtain ⟨u, hu, rfl⟩ := Option.map_eq_some_iff.mp hs
  intro p hp
  unfold supports at hp
  split at hp
  · cases hu
    rw [List.mem_singleton.mp hp]
    simp [Raft.startElection, Raft.becomeCandidate]
  · rename_i args
    cases hu
    split at hp
    · rename_i hgranted
      rw [List.mem_singleton.mp hp]
      rcases s.node.requestVote_cases args with ⟨hdenied, _⟩ | ⟨_, _, h⟩
      · rw [hgranted] at hdenied
        cases hdenied
      · simp [h]
    · cases hp
  · cases hp

structure Inv (s : Voter C) : Prop where
  named : s.node.me ≠ Raft.noVote
  pledged : s.node.Pledged fun t c => (t, c) ∈ s.support

theorem supports_named [Width] {action : Action C} {s : Voter C} (h : Inv s) (hr : Named action s) :
    ∀ p ∈ supports action s.node, p.2 ≠ Raft.noVote := by
  intro p hp
  unfold supports at hp
  split at hp
  · rw [List.mem_singleton.mp hp]
    exact h.named
  · split at hp
    · rw [List.mem_singleton.mp hp]
      exact hr
    · cases hp
  · cases hp

theorem step_inv [Width] (action : Action C) (s t : Voter C) (h : Inv s)
    (hr : Named action s ∧ Raft.Counts action s.node) (hs : step action s = some t) : Inv t := by
  have hrecorded := supports_recorded hs
  have hnamed := supports_named h hr.1
  obtain ⟨u, hu, rfl⟩ := Option.map_eq_some_iff.mp hs
  have hmoves : Raft.Moves s.node u.node := Raft.handles_counts.step hu hr.2
  have hkept := h.pledged.moves hmoves
  refine ⟨by rw [hmoves.me]; exact h.named, ?_⟩
  cases hadded : supports action s.node with
  | nil => exact hkept.congr fun t c => by simp
  | cons p rest =>
    -- a call adds one vote at most
    have hrest : rest = [] := by
      unfold supports at hadded
      split at hadded
      · cases hadded
        rfl
      · split at hadded <;> cases hadded
        rfl
      · cases hadded
    rw [hadded] at hrecorded hnamed
    obtain ⟨hterm, hvote⟩ := hrecorded p List.mem_cons_self
    refine (hkept.cast (by rw [← hvote]; exact hnamed p List.mem_cons_self)).congr fun t c => ?_
    rw [← hterm, ← hvote]
    simp [hrest, Prod.ext_iff]

theorem make_me (peers : List String) (me : Int) (persister : Persister C) :
    (Raft.make peers me persister).me = me := by
  unfold Raft.make Raft.readPersist
  dsimp only
  split <;> rfl

section Word
open scoped Word64

/-- Candidates have ids other than -1, and a node does not stand for election in the last
term that there is. -/
def Regular (action : Action C) (s : Voter C) : Prop :=
  Named action s ∧ (action = .startElection → Word64.Fits (s.node.currentTerm + 1))

theorem Regular.counts {action : Action C} {s : Voter C} (h : Regular action s) :
    Raft.Counts action s.node := by
  cases action with
  | startElection =>
    have hwrap := Word64.wrap_of_fits (h.2 rfl)
    show s.node.currentTerm < wrap (s.node.currentTerm + 1)
    omega
  | _ => trivial

/-- **A node supports one candidate a term**, and its term never goes down: over every
run, from whatever state it was started with, as long as nobody runs under the id -1 and
no node stands for election in the largest term. -/
theorem one_vote_per_term (peers : List String) (me : Int) (persister : Persister C)
    (actions : List (Action C)) (s : Voter C) (hme : me ≠ Raft.noVote)
    (hr : Along step Regular (boot peers me persister) actions)
    (hs : run step (boot peers me persister) actions = some s) :
    (∀ T c d, (T, c) ∈ s.support → (T, d) ∈ s.support → c = d) ∧
      ∀ action t, Regular action s → step action s = some t → s.node.currentTerm ≤ t.node.currentTerm := by
  have hboot : Inv (boot peers me persister) := by
    refine ⟨by rw [boot, make_me]; exact hme, ?_⟩
    exact ⟨by simp [boot], by simp [boot], by simp [boot], by simp [boot]⟩
  have hinv := run_invariant (fun action s t h hregular => step_inv action s t h ⟨hregular.1, hregular.counts⟩)
    actions _ _ hboot hr hs
  refine ⟨hinv.pledged.single, ?_⟩
  intro action t hregular ht
  obtain ⟨u, hu, rfl⟩ := Option.map_eq_some_iff.mp ht
  exact (Raft.handles_counts.step hu hregular.counts).term

/-- A node that votes in term 1, is asked again by another candidate, and then stands in
term 2 itself. -/
theorem one_vote_per_term_two :
    ∃ s : Voter Nat, run step (boot ["a", "b", "c"] 1 makePersister)
        [.requestVote ⟨1, 2, -1, 0⟩, .requestVote ⟨1, 3, -1, 0⟩, .startElection] = some s ∧
      s.support = [(2, 1), (1, 2)] ∧ s.node.currentTerm = 2 ∧
      ∀ T c d, (T, c) ∈ s.support → (T, d) ∈ s.support → c = d :=
  ⟨_, rfl, by decide, by decide, (one_vote_per_term ["a", "b", "c"] 1 makePersister
    [.requestVote ⟨1, 2, -1, 0⟩, .requestVote ⟨1, 3, -1, 0⟩, .startElection] _ (by decide)
    ⟨⟨show (2 : Int) ≠ Raft.noVote by decide, nofun⟩, ⟨show (3 : Int) ≠ Raft.noVote by decide, nofun⟩,
      ⟨trivial, fun _ => by decide⟩, trivial⟩
    rfl).1⟩

/-- Asked for a vote in the largest term and then standing for election, a node goes back to
the smallest. -/
theorem term_starts_over :
    ¬∀ (peers : List String) (me : Int) (persister : Persister Nat) (actions : List (Action Nat))
        (s : Voter Nat), me ≠ Raft.noVote → Along step Named (boot peers me persister) actions →
      run step (boot peers me persister) actions = some s →
      ∀ action t, Named action s → step action s = some t → s.node.currentTerm ≤ t.node.currentTerm := by
  intro h
  have hterm := h ["a", "b", "c"] 1 makePersister [.requestVote ⟨2 ^ 63 - 1, 2, -1, 0⟩] _ (by decide)
    ⟨show (2 : Int) ≠ Raft.noVote by decide, trivial⟩ rfl .startElection _ trivial rfl
  exact absurd hterm (by decide)

end Word

end Voting
end Wjetcd
