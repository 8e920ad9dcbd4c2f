import Wjetcd.Raft.Commit
import Wjetcd.Raft.Effect

/-! What reaches the state machine has been committed, but for the first entry.

A cluster of fresh nodes that exchange append messages. Whatever is sent may arrive any
number of times, in any order or never. Elections are left to chance: any node may stand,
answer or count votes at any time. The goroutine of `sendMsgToTester` sleeps on a
condition variable; a commit, a follower's new `CommitIndex` and `Kill` wake it, and it
then hands on every entry up to `CommitIndex`.

`CommitIndex` starts at 0 and `LastApplied` at -1, so entry 0 counts as committed from the
start, and only sleep keeps it back. `Kill` ends the sleep: a leader that is stopped
before its first commit hands on a command that nobody else has
(`uncommitted_applied`). `applied_committed` says that this is the only case: no other entry is handed
on early, and neither is entry 0 by a node that is killed after the first commit or not at all. -/
namespace Wjetcd.Applied
open Runs

variable {C : Type} {n : Nat}

/-- Where the goroutine of `sendMsgToTester` is. -/
inductive Applier where
  | starting
  | waiting
  | woken
  | exited
deriving Repr, DecidableEq

/-- A node and its goroutine. -/
structure Host (C : Type) where
  node : Raft C
  applier : Applier

/-- `applyCond.Broadcast()`, which nobody hears who is not waiting. -/
def Applier.broadcast : Applier → Applier
  | .waiting => .woken
  | other => other

/-- A call of `AppendEntries`: a heartbeat or entries, from a leader to the node at an
index of `peers`. -/
structure Request (C : Type) (n : Nat) where
  source : Fin n
  target : Fin n
  heart : Bool
  args : RequestAppendEntriesArgs C

structure Reply (C : Type) (n : Nat) where
  request : Request C n
  reply : RequestAppendEntriesReply

/-- The nodes, everything that has been sent, and the executions of the line of `tryCommitL`
that sets `CommitIndex`. -/
structure Cluster (C : Type) (n : Nat) where
  hosts : Fin n → Host C
  requests : List (Request C n)
  replies : List (Reply C n)
  commits : List (Fin n × Int)

inductive Action (C : Type) (n : Nat) where
  | startElection (i : Fin n)
  | electionReply (i : Fin n) (term : Int) (reply : RequestVoteReply)
  | requestVote (i : Fin n) (args : RequestVoteArgs)
  | start (i : Fin n) (command : C)
  | send (i target : Fin n) (heart : Bool)
  | handle (k : Nat)
  | receive (k : Nat)
  | enter (i : Fin n)
  | wake (i : Fin n)
  | kill (i : Fin n)

namespace Cluster
variable (s : Cluster C n)

def set (i : Fin n) (host : Host C) : Cluster C n := {s with hosts := Function.update s.hosts i host}

def setNode (i : Fin n) (rf : Raft C) : Cluster C n := s.set i {s.hosts i with node := rf}

end Cluster

/-- What `AppendEntries` sends, if it gets as far as sending. -/
def outgoing (rf : Raft C) (target : Fin n) (heart : Bool) : Option (RequestAppendEntriesArgs C) :=
  if (target : Int) = rf.me - 1 then none
  else
    match if heart then rf.heartbeatArgs else rf.appendEntriesArgs target with
    | .entries args => some args
    | _ => none

/-- The branch of `handleAppendEntriesRPC` that moves `CommitIndex` and wakes the applier. -/
def follows (rf : Raft C) (args : RequestAppendEntriesArgs C) : Bool :=
  (rf.handleAppendEntriesRPC args).2.any (·.success) && decide (args.leaderCommit > rf.commitIndex)

def handle (s : Cluster C n) (r : Request C n) : Cluster C n :=
  let host := s.hosts r.target
  let result := host.node.handleAppendEntriesRPC r.args
  {s.set r.target ⟨result.1, if follows host.node r.args then host.applier.broadcast else host.applier⟩ with
    replies := s.replies ++ (result.2.map fun reply => ⟨r, reply⟩).toList}

/-- A reply to entries; a panic takes the process down. -/
def receive (s : Cluster C n) (r : Reply C n) : Option (Cluster C n) :=
  let host := s.hosts r.request.source
  let target : Nat := r.request.target
  if r.request.heart then some (s.setNode r.request.source (host.node.heartbeatReply r.reply))
  else
    (host.node.appendReply target r.request.args r.reply).map fun rf =>
      match host.node.commitsOn target r.request.args r.reply with
      | none => s.setNode r.request.source rf
      | some m =>
        {s.set r.request.source ⟨rf, host.applier.broadcast⟩ with
          commits := (r.request.source, m) :: s.commits}

/-- As many turns as the inner loop of `sendMsgToTester` can take. -/
def turns (rf : Raft C) : Nat := (min rf.commitIndex rf.log.lastLogIndex - rf.lastApplied).toNat

/-- The indices the loop hands to `tryApply`. -/
def handed (rf : Raft C) : Nat → List Int
  | 0 => []
  | fuel + 1 =>
    if rf.hasNext then
      (rf.lastApplied + 1) :: (match rf.applyNext with | none => [] | some rf' => handed rf' fuel)
    else []

def step (action : Action C n) (s : Cluster C n) : Option (Cluster C n) :=
  match action with
  | .startElection i => some (s.setNode i (s.hosts i).node.startElection.1)
  | .electionReply i term reply => some (s.setNode i ((s.hosts i).node.electionReply term reply).1)
  | .requestVote i args => some (s.setNode i ((s.hosts i).node.requestVote args).1)
  | .start i command => ((s.hosts i).node.start command).map fun result => s.setNode i result.1
  | .send i target heart =>
    (outgoing (s.hosts i).node target heart).map fun args =>
      {s with requests := s.requests ++ [⟨i, target, heart, args⟩]}
  | .handle k => s.requests[k]?.map fun r => handle s r
  | .receive k => s.replies[k]?.bind fun r => receive s r
  | .enter i =>
    -- `Kill` before the first wait ends the goroutine at once
    if (s.hosts i).applier = .starting then
      some (s.set i {s.hosts i with applier := if (s.hosts i).node.dead then .exited else .waiting})
    else none
  | .wake i =>
    if (s.hosts i).applier = .woken then
      ((s.hosts i).node.sendMsgToTester (turns (s.hosts i).node)).map fun rf =>
        s.set i ⟨rf, if rf.dead then .exited else .waiting⟩
    else none
  | .kill i => some (s.set i ⟨(s.hosts i).node.kill, (s.hosts i).applier.broadcast⟩)

/-- Fresh nodes with ids 1 to n. -/
def boot (peers : List String) : Cluster C peers.length :=
  { hosts := fun i => ⟨Raft.make peers (i + 1) makePersister, .starting⟩
    requests := []
    replies := []
    commits := [] }

/-! ### The loop of `sendMsgToTester` -/

theorem applyNext_kept {rf rf' : Raft C} (h : rf.applyNext = some rf') :
    rf'.commitIndex = rf.commitIndex ∧ rf'.log = rf.log ∧ rf'.dead = rf.dead := by
  obtain ⟨_, entry, helper, _, _, rfl⟩ := Raft.applyNext_cases h
  exact ⟨rfl, rfl, rfl⟩

/-- A wake-up leaves the log and `CommitIndex`. -/
theorem sendMsgToTester_kept (fuel : Nat) : ∀ rf rf' : Raft C, rf.sendMsgToTester fuel = some rf' →
    rf'.commitIndex = rf.commitIndex ∧ rf'.log = rf.log ∧ rf'.dead = rf.dead := by
  induction fuel with
  | zero =>
    intro rf rf' h
    cases h
    exact ⟨rfl, rfl, rfl⟩
  | succ fuel ih =>
    intro rf rf' h
    rw [Raft.sendMsgToTester] at h
    split at h
    · cases hnext : rf.applyNext with
      | none =>
        rw [hnext] at h
        cases h
      | some mid =>
        rw [hnext] at h
        obtain ⟨hcommit, hlog, hdead⟩ := applyNext_kept hnext
        obtain ⟨hcommit', hlog', hdead'⟩ := ih mid rf' h
        exact ⟨hcommit'.trans hcommit, hlog'.trans hlog, hdead'.trans hdead⟩
    · cases h
      exact ⟨rfl, rfl, rfl⟩

/-- What is handed on is not past `CommitIndex`. -/
theorem handed_le (fuel : Nat) : ∀ rf : Raft C, ∀ i ∈ handed rf fuel, i ≤ rf.commitIndex := by
  induction fuel with
  | zero =>
    intro rf i hi
    cases hi
  | succ fuel ih =>
    intro rf i hi
    rw [handed] at hi
    split at hi
    · rename_i hnext
      rcases List.mem_cons.mp hi with rfl | hrest
      · simp only [Raft.hasNext, Bool.and_eq_true, decide_eq_true_eq] at hnext
        exact hnext.1
      · cases hmid : rf.applyNext with
        | none =>
          rw [hmid] at hrest
          cases hrest
        | some mid =>
          rw [hmid] at hrest
          have hle := ih mid i hrest
          rw [(applyNext_kept hmid).1] at hle
          exact hle
    · cases hi

/-! ### What the handlers leave alone -/

/-- Only the role, the term, the vote and the entries may change. -/
structure Still (rf rf' : Raft C) : Prop where
  commit : rf'.commitIndex = rf.commitIndex
  dead : rf'.dead = rf.dead
  first : rf'.log.firstLogIndex = rf.log.firstLogIndex

theorem Still.refl (rf : Raft C) : Still rf rf := ⟨rfl, rfl, rfl⟩

theorem Still.of_quiet {rf rf' : Raft C} (h : Raft.Quiet rf rf') : Still rf rf' :=
  ⟨h.commit, h.dead, congrArg (fun f : Raft.Feed C => f.log.firstLogIndex) h.feed⟩

theorem start_still {rf : Raft C} {command : C} {result : Raft C × Int × Int × Bool}
    (h : rf.start command = some result) : Still rf result.1 := by
  rcases Raft.start_cases h with heq | ⟨_, log, hlog, heq⟩
  · rw [heq]
    exact Still.refl rf
  · rw [heq]
    exact ⟨by simp, by simp, by simpa using Log.appendL_first hlog⟩

/-- A message leaves `CommitIndex`, or moves it to at most the leader's and wakes the
applier. -/
theorem handleAppendEntriesRPC_commit (rf : Raft C) (args : RequestAppendEntriesArgs C) :
    Still rf (rf.handleAppendEntriesRPC args).1 ∧ follows rf args = false ∨
      follows rf args = true ∧ rf.commitIndex < args.leaderCommit ∧
        ∃ mid, Still rf mid ∧ (rf.handleAppendEntriesRPC args).1 =
          {mid with commitIndex := min args.leaderCommit mid.log.lastLogIndex} := by
  have hobserve := Still.of_quiet (rf.observeLeader_quiet args.leaderTerm)
  have hentries : Still rf (rf.withEntries args) :=
    ⟨hobserve.commit, hobserve.dead, Log.overwriteFrom_first _ _ _⟩
  rcases rf.handleAppendEntriesRPC_cases args with ⟨hdenied, h⟩ | ⟨_, h | h⟩
  · refine Or.inl ⟨?_, ?_⟩
    · rcases h with h | h
      · rw [h]
        exact Still.refl rf
      · rw [h]
        exact hobserve
    · cases hreply : (rf.handleAppendEntriesRPC args).2 with
      | none => simp [follows, hreply]
      | some reply => simp [follows, hreply, hdenied reply hreply]
  · refine Or.inl ⟨?_, ?_⟩
    · rw [h]
      exact hentries
    · simp [follows, h]
  · by_cases hlt : rf.commitIndex < args.leaderCommit
    · refine Or.inr ⟨by simp [follows, h, hlt], hlt, rf.withEntries args, hentries, ?_⟩
      rw [h]
      exact if_pos (by rw [hentries.commit]; exact hlt)
    · refine Or.inl ⟨?_, by simp [follows, h, hlt]⟩
      have hfollow : (rf.withEntries args).followCommit args.leaderCommit = rf.withEntries args :=
        if_neg (by rw [hentries.commit]; exact hlt)
      rw [h, hfollow]
      exact hentries

theorem appendReply_dead {rf rf' : Raft C} {target : Nat} {args : RequestAppendEntriesArgs C}
    {reply : RequestAppendEntriesReply} (h : rf.appendReply target args reply = some rf') :
    rf'.dead = rf.dead := by
  rcases Raft.appendReply_cases h with rfl | ⟨_, rfl⟩ | ⟨_, tracker, _, ⟨next, rfl⟩ | ⟨_, _, hcommit⟩⟩
  · rfl
  · exact (rf.stepDown_quiet _).dead
  · rfl
  · rcases Raft.tryCommitL_cases hcommit with ⟨_, rfl⟩ | ⟨_, rfl⟩ <;> rfl

/-- A heartbeat has no `CommitIndex`, a message with entries that of the sender. -/
theorem outgoing_commit {rf : Raft C} {target : Fin n} {heart : Bool} {args : RequestAppendEntriesArgs C}
    (h : outgoing rf target heart = some args) :
    args.leaderCommit = 0 ∨ args.leaderCommit = rf.commitIndex := by
  have hentries : (if heart then rf.heartbeatArgs else rf.appendEntriesArgs target) = .entries args := by
    unfold outgoing at h
    split at h
    · cases h
    · split at h
      · rename_i heq
        cases h
        exact heq
      · cases h
  cases heart with
  | true =>
    simp only [if_true, Raft.heartbeatArgs] at hentries
    split at hentries <;> cases hentries
    exact Or.inl rfl
  | false =>
    simp only [Bool.false_eq_true, if_false, Raft.appendEntriesArgs] at hentries
    split at hentries
    · cases hentries
    · split at hentries
      · cases hentries
      · split at hentries
        · cases hentries
        · split at hentries <;> cases hentries
          exact Or.inr rfl

/-! ### The invariant -/

/-- An index at which nothing was committed, or something as far along has been. -/
def Covers (commits : List (Fin n × Int)) (index : Int) : Prop :=
  index ≤ 0 ∨ ∃ commit ∈ commits, index ≤ commit.2

theorem Covers.le {commits : List (Fin n × Int)} {i j : Int} (h : Covers commits j) (hij : i ≤ j) :
    Covers commits i := by
  rcases h with hzero | ⟨commit, hmem, hle⟩
  · exact Or.inl (hij.trans hzero)
  · exact Or.inr ⟨commit, hmem, hij.trans hle⟩

theorem Covers.more {commits : List (Fin n × Int)} {i : Int} (h : Covers commits i)
    (commit : Fin n × Int) : Covers (commit :: commits) i := by
  rcases h with hzero | ⟨old, hmem, hle⟩
  · exact Or.inl hzero
  · exact Or.inr ⟨old, List.mem_cons_of_mem _ hmem, hle⟩

/-- `CommitIndex` is covered. Before the first commit it has not moved, and nobody is awake
who has not been killed. -/
structure Sound (commits : List (Fin n × Int)) (host : Host C) : Prop where
  first : host.node.log.firstLogIndex = 0
  covered : Covers commits host.node.commitIndex
  start : commits = [] → host.node.commitIndex = 0 ∧ (host.applier = .woken → host.node.dead = true)

structure Inv (s : Cluster C n) : Prop where
  hosts : ∀ i, Sound s.commits (s.hosts i)
  requests : ∀ r ∈ s.requests, Covers s.commits r.args.leaderCommit
  commits : ∀ commit ∈ s.commits, 0 ≤ commit.2

theorem boot_inv (peers : List String) : Inv (boot peers : Cluster C peers.length) where
  hosts := by
    intro i
    exact ⟨rfl, Or.inl le_rfl, fun _ => ⟨rfl, fun h => by cases h⟩⟩
  requests := by simp [boot]
  commits := by simp [boot]

section Steps
variable {s t : Cluster C n}

/-- A step that changes one node. -/
theorem Inv.set (h : Inv s) (i : Fin n) {host : Host C} (hhost : Sound s.commits host) :
    Inv (s.set i host) where
  hosts := by
    intro j
    show Sound s.commits (Function.update s.hosts i host j)
    by_cases hj : j = i
    · rw [hj, Function.update_self]
      exact hhost
    · rw [Function.update_of_ne hj]
      exact h.hosts j
  requests := h.requests
  commits := h.commits

theorem Sound.still {commits : List (Fin n × Int)} {host : Host C} (h : Sound commits host)
    {rf : Raft C} (hs : Still host.node rf) : Sound commits {host with node := rf} where
  first := hs.first.trans h.first
  covered := by
    rw [hs.commit]
    exact h.covered
  start := by
    intro hnone
    rw [hs.commit, hs.dead]
    exact h.start hnone

theorem Inv.setNode (h : Inv s) (i : Fin n) {rf : Raft C} (hs : Still (s.hosts i).node rf) :
    Inv (s.setNode i rf) := h.set i ((h.hosts i).still hs)

/-- Once something has been committed, waking is harmless. -/
theorem Sound.more {commits : List (Fin n × Int)} {host : Host C} (h : Sound commits host)
    (commit : Fin n × Int) : Sound (commit :: commits) host where
  first := h.first
  covered := h.covered.more commit
  start := nofun

theorem send_inv (h : Inv s) {i target : Fin n} {heart : Bool} {args : RequestAppendEntriesArgs C}
    (hout : outgoing (s.hosts i).node target heart = some args) :
    Inv {s with requests := s.requests ++ [⟨i, target, heart, args⟩]} := by
  refine {h with requests := ?_}
  intro r hr
  rcases List.mem_append.mp hr with hold | hnew
  · exact h.requests r hold
  · rw [List.mem_singleton.mp hnew]
    rcases outgoing_commit hout with hzero | heq
    · exact Or.inl hzero.le
    · show Covers s.commits args.leaderCommit
      rw [heq]
      exact (h.hosts i).covered

theorem handle_inv (h : Inv s) {r : Request C n} (hr : r ∈ s.requests) : Inv (handle s r) := by
  have hhost := h.hosts r.target
  have hsound : Sound s.commits ⟨((s.hosts r.target).node.handleAppendEntriesRPC r.args).1,
      if follows (s.hosts r.target).node r.args then (s.hosts r.target).applier.broadcast
      else (s.hosts r.target).applier⟩ := by
    rcases handleAppendEntriesRPC_commit (s.hosts r.target).node r.args with ⟨hstill, hquiet⟩ |
      ⟨hfollows, hlt, mid, hstill, heq⟩
    · rw [hquiet]
      exact hhost.still hstill
    · rw [heq]
      have hmid := hhost.still hstill
      refine ⟨hmid.first, (h.requests r hr).le (min_le_left _ _), ?_⟩
      intro hnone
      -- before the first commit no message has a `CommitIndex` to follow
      have hzero := (hhost.start hnone).1
      rcases h.requests r hr with hle | ⟨commit, hmem, _⟩
      · omega
      · rw [hnone] at hmem
        cases hmem
  exact {h.set r.target hsound with}

theorem receive_inv (h : Inv s) {r : Reply C n} (hs : receive s r = some t) : Inv t := by
  have hhost := h.hosts r.request.source
  unfold receive at hs
  dsimp only at hs
  split at hs
  · cases hs
    exact h.setNode _ (Still.of_quiet (Raft.heartbeatReply_quiet _ _))
  · obtain ⟨rf, hrf, rfl⟩ := Option.map_eq_some_iff.mp hs
    rcases Raft.appendReply_commits hrf with ⟨m, hon, hcommits, rfl⟩ | ⟨hnone, hcommit⟩
    · rw [hon]
      have hfirst := ((Raft.commits_iff _ _).mp hcommits).2.2.1
      have hm : 0 ≤ m := by
        rw [← hhost.first]
        exact hfirst
      have hmore : Inv {s with commits := (r.request.source, m) :: s.commits} :=
        { hosts := fun i => (h.hosts i).more _
          requests := fun q hq => (h.requests q hq).more _
          commits := by
            intro commit hmem
            rcases List.mem_cons.mp hmem with rfl | hmem
            · exact hm
            · exact h.commits commit hmem }
      exact hmore.set r.request.source
        ⟨hhost.first, Or.inr ⟨_, List.mem_cons_self, le_rfl⟩, nofun⟩
    · rw [hnone]
      exact h.setNode _ ⟨hcommit, appendReply_dead hrf,
        congrArg (fun f : Raft.Feed C => f.log.firstLogIndex) (Raft.appendReply_feed hrf)⟩

theorem step_inv (action : Action C n) (s t : Cluster C n) (h : Inv s) (hs : step action s = some t) :
    Inv t := by
  cases action with
  | startElection i =>
    cases hs
    exact h.setNode i (Still.of_quiet (Raft.startElection_quiet _))
  | electionReply i term reply =>
    cases hs
    exact h.setNode i (Still.of_quiet (Raft.electionReply_quiet _ _ _))
  | requestVote i args =>
    cases hs
    exact h.setNode i (Still.of_quiet (Raft.requestVote_quiet _ _))
  | start i command =>
    obtain ⟨result, hresult, rfl⟩ := Option.map_eq_some_iff.mp hs
    exact h.setNode i (start_still hresult)
  | send i target heart =>
    obtain ⟨args, hargs, rfl⟩ := Option.map_eq_some_iff.mp hs
    exact send_inv h hargs
  | handle k =>
    obtain ⟨r, hr, rfl⟩ := Option.map_eq_some_iff.mp hs
    exact handle_inv h (List.mem_of_getElem? hr)
  | receive k =>
    obtain ⟨r, _, hr⟩ := Option.bind_eq_some_iff.mp hs
    exact receive_inv h hr
  | enter i =>
    rw [step] at hs
    split at hs
    · cases hs
      refine h.set i {h.hosts i with start := ?_}
      intro hnone
      refine ⟨((h.hosts i).start hnone).1, ?_⟩
      intro hwoken
      dsimp only at hwoken
      split at hwoken <;> cases hwoken
    · cases hs
  | wake i =>
    rw [step] at hs
    split at hs
    · obtain ⟨rf, hrf, rfl⟩ := Option.map_eq_some_iff.mp hs
      obtain ⟨hcommit, hlog, _⟩ := sendMsgToTester_kept _ _ _ hrf
      have hhost := h.hosts i
      refine h.set i ⟨?_, ?_, ?_⟩
      · show rf.log.firstLogIndex = 0
        rw [hlog]
        exact hhost.first
      · show Covers s.commits rf.commitIndex
        rw [hcommit]
        exact hhost.covered
      · intro hnone
        refine ⟨hcommit.trans (hhost.start hnone).1, ?_⟩
        intro hwoken
        dsimp only at hwoken
        split at hwoken <;> cases hwoken
    · cases hs
  | kill i =>
    cases hs
    have hhost := h.hosts i
    exact h.set i ⟨hhost.first, hhost.covered,
      fun hnone => ⟨(hhost.start hnone).1, fun _ => rfl⟩⟩

/-! ### Who has been killed -/

/-- Another node changes, or this one without being killed. -/
theorem set_dead (s : Cluster C n) {i : Fin n} {host : Host C} (hdead : host.node.dead = (s.hosts i).node.dead)
    (j : Fin n) : ((s.set i host).hosts j).node.dead = (s.hosts j).node.dead := by
  show (Function.update s.hosts i host j).node.dead = _
  by_cases hj : j = i
  · rw [hj, Function.update_self, hdead]
  · rw [Function.update_of_ne hj]

theorem handle_dead (rf : Raft C) (args : RequestAppendEntriesArgs C) :
    (rf.handleAppendEntriesRPC args).1.dead = rf.dead := by
  rcases handleAppendEntriesRPC_commit rf args with ⟨hstill, _⟩ | ⟨_, _, mid, hstill, heq⟩
  · exact hstill.dead
  · rw [heq]
    exact hstill.dead

theorem receive_dead {r : Reply C n} (hs : receive s r = some t) :
    (∀ j, (t.hosts j).node.dead = (s.hosts j).node.dead) ∧ s.commits ⊆ t.commits := by
  unfold receive at hs
  dsimp only at hs
  split at hs
  · cases hs
    exact ⟨set_dead s (Raft.heartbeatReply_quiet _ _).dead, List.Subset.refl _⟩
  · obtain ⟨rf, hrf, rfl⟩ := Option.map_eq_some_iff.mp hs
    split
    · exact ⟨set_dead s (appendReply_dead hrf), List.Subset.refl _⟩
    · exact ⟨set_dead s (appendReply_dead hrf), List.subset_cons_self ..⟩

/-- Only `Kill` kills, and no commit is undone. -/
theorem step_dead {action : Action C n} (hs : step action s = some t) :
    (∀ j, action ≠ .kill j → (t.hosts j).node.dead = (s.hosts j).node.dead) ∧ s.commits ⊆ t.commits := by
  have hquiet : ∀ {i : Fin n} {host : Host C}, host.node.dead = (s.hosts i).node.dead → s.set i host = t →
      (∀ j, action ≠ .kill j → (t.hosts j).node.dead = (s.hosts j).node.dead) ∧ s.commits ⊆ t.commits := by
    rintro i host hdead rfl
    exact ⟨fun j _ => set_dead s hdead j, List.Subset.refl _⟩
  cases action with
  | startElection i => exact hquiet (Raft.startElection_quiet _).dead (Option.some.inj hs)
  | electionReply i term reply => exact hquiet (Raft.electionReply_quiet _ _ _).dead (Option.some.inj hs)
  | requestVote i args => exact hquiet (Raft.requestVote_quiet _ _).dead (Option.some.inj hs)
  | start i command =>
    obtain ⟨result, hresult, hset⟩ := Option.map_eq_some_iff.mp hs
    exact hquiet (start_still hresult).dead hset
  | send i target heart =>
    obtain ⟨args, _, rfl⟩ := Option.map_eq_some_iff.mp hs
    exact ⟨fun _ _ => rfl, List.Subset.refl _⟩
  | handle k =>
    obtain ⟨r, _, rfl⟩ := Option.map_eq_some_iff.mp hs
    exact ⟨fun j _ => set_dead s (handle_dead _ _) j, List.Subset.refl _⟩
  | receive k =>
    obtain ⟨r, _, hr⟩ := Option.bind_eq_some_iff.mp hs
    exact ⟨fun j _ => (receive_dead hr).1 j, (receive_dead hr).2⟩
  | enter i =>
    rw [step] at hs
    split at hs
    · cases hs
      exact ⟨fun j _ => set_dead s (by rfl) j, List.Subset.refl _⟩
    · cases hs
  | wake i =>
    rw [step] at hs
    split at hs
    · obtain ⟨rf, hrf, hset⟩ := Option.map_eq_some_iff.mp hs
      exact hquiet (sendMsgToTester_kept _ _ _ hrf).2.2 hset
    · cases hs
  | kill i =>
    cases hs
    refine ⟨fun j hj => ?_, List.Subset.refl _⟩
    have hne : j ≠ i := fun heq => hj (by rw [heq])
    exact congrArg (fun host : Host C => host.node.dead) (Function.update_of_ne hne _ _)

end Steps

/-- The node is killed only when something has been committed. -/
def KilledLate (j : Fin n) (action : Action C n) (s : Cluster C n) : Prop := action = .kill j → s.commits ≠ []

theorem killed_late (j : Fin n) (action : Action C n) (s t : Cluster C n)
    (h : (s.hosts j).node.dead = true → s.commits ≠ []) (hr : KilledLate j action s) (hs : step action s = some t) :
    (t.hosts j).node.dead = true → t.commits ≠ [] := by
  intro hdead
  obtain ⟨hkept, hgrows⟩ := step_dead hs
  have hsome : s.commits ≠ [] := by
    by_cases hkill : action = .kill j
    · exact hr hkill
    · exact h (hkept j hkill ▸ hdead)
  obtain ⟨commit, hmem⟩ := List.exists_mem_of_ne_nil _ hsome
  exact List.ne_nil_of_mem (hgrows hmem)

/-- **What a node hands to its state machine has been committed by a leader**, if it is not the first
entry, or the node is not killed before the first commit. -/
theorem applied_committed (peers : List String) (actions : List (Action C peers.length))
    (s : Cluster C peers.length) (j : Fin peers.length) (i : Int) (fuel : Nat)
    (hs : run step (boot peers) actions = some s) (hw : (s.hosts j).applier = .woken)
    (hi : i ∈ handed (s.hosts j).node fuel)
    (hlate : 0 < i ∨ Along step (KilledLate j) (boot peers) actions) :
    ∃ commit ∈ s.commits, i ≤ commit.2 := by
  have hinv := run_invariant_all step_inv actions _ _ (boot_inv peers) hs
  have hhost := hinv.hosts j
  have hle := handed_le _ _ i hi
  rcases hhost.covered with hzero | ⟨commit, hmem, hcommit⟩
  · -- entry 0, and then any commit covers it
    have hsome : s.commits ≠ [] := by
      rcases hlate with hpos | hlate
      · omega
      · intro hnone
        have hdead := (hhost.start hnone).2 hw
        exact run_invariant (killed_late j) actions _ _ (fun hboot => by cases hboot) hlate hs hdead hnone
    obtain ⟨commit, hmem⟩ := List.exists_mem_of_ne_nil _ hsome
    have := hinv.commits commit hmem
    exact ⟨commit, hmem, by omega⟩
  · exact ⟨commit, hmem, hle.trans hcommit⟩

/-- Three nodes elect the first, which takes a command. -/
def firstCommand : List (Action Nat 3) :=
  [.startElection 0, .requestVote 2 ⟨1, 1, -1, 0⟩, .electionReply 0 1 ⟨1, true⟩, .enter 0, .enter 2,
    .start 0 7]

/-- The second node takes the command, the leader commits it and is killed, and hands it on. -/
theorem applied_committed_first :
    ∃ s : Cluster Nat 3, run step (boot ["a", "b", "c"])
        (firstCommand ++ [.send 0 1 false, .handle 0, .receive 0, .kill 0]) = some s ∧
      handed (s.hosts 0).node (turns (s.hosts 0).node) = [0] ∧ ∃ commit ∈ s.commits, 0 ≤ commit.2 := by
  refine ⟨_, rfl, by decide, applied_committed ["a", "b", "c"]
    (firstCommand ++ [.send 0 1 false, .handle 0, .receive 0, .kill 0]) _ 0 0 1 rfl (by decide) (by decide)
    (Or.inr ?_)⟩
  exact ⟨nofun, nofun, nofun, nofun, nofun, nofun, nofun, nofun, nofun, fun _ => by decide, trivial⟩

/-- The leader is stopped instead, and hands on a command that it alone has. -/
theorem uncommitted_applied :
    ¬∀ (peers : List String) (actions : List (Action Nat peers.length)) (s : Cluster Nat peers.length)
        (j : Fin peers.length) (i : Int), run step (boot peers) actions = some s →
      (s.hosts j).applier = .woken → i ∈ handed (s.hosts j).node (turns (s.hosts j).node) →
      ∃ commit ∈ s.commits, i ≤ commit.2 := by
  intro h
  obtain ⟨commit, hmem, _⟩ := h ["a", "b", "c"] (firstCommand ++ [.kill 0]) _ 0 0 rfl (by decide)
    (by decide)
  exact List.not_mem_nil hmem

end Wjetcd.Applied
