import Wjetcd.Raft.Network

/-! Nothing is handed to a service that nobody submitted.

An entry is made by `Start` and by nothing else; it is copied into messages, out of them
into other logs, and from there into the queue of `ApplyHelper`. `Holds` follows a property
of commands through all of these, in any run whatsoever: it rests on none of the rules. -/
namespace Wjetcd

/-! ### Where the entries of a log come from -/

namespace Log
variable {C : Type} {log log' : Log C}

theorem slice_mem {k : Int} {kept : List (Entry C)} (h : log.slice k = some kept) :
    ∀ e ∈ kept, e ∈ log.entries := by
  obtain ⟨_, hkept⟩ := Option.ite_none_right_eq_some.mp h
  cases hkept
  exact fun e he => List.mem_of_mem_take he

theorem appendL_mem {entries : List (Entry C)} (h : log.appendL entries = some log') :
    ∀ e ∈ log'.entries, e ∈ log.entries ∨ e ∈ entries := by
  obtain ⟨kept, hkept, rfl⟩ := Option.map_eq_some_iff.mp h
  intro e he
  exact (List.mem_append.mp he).imp_left (slice_mem hkept e)

theorem overwrite_mem {idx : Int} {entry : Entry C} (h : log.overwrite idx entry = some log') :
    ∀ e ∈ log'.entries, e ∈ log.entries ∨ e = entry := by
  unfold overwrite at h
  split at h
  · cases h
    exact fun e he => .inl he
  · split at h
    · split at h
      · cases h
      · split at h
        · obtain ⟨kept, hkept, rfl⟩ := Option.map_eq_some_iff.mp h
          intro e he
          exact (List.mem_append.mp he).imp (slice_mem hkept e) List.mem_singleton.mp
        · cases h
          exact fun e he => .inl he
    · cases h
      intro e he
      exact (List.mem_append.mp he).imp_right List.mem_singleton.mp

theorem overwriteFrom_mem (entries : List (Entry C)) : ∀ (log : Log C) (idx : Int),
    ∀ e ∈ (log.overwriteFrom idx entries).1.entries, e ∈ log.entries ∨ e ∈ entries := by
  induction entries with
  | nil => exact fun log idx e he => .inl he
  | cons entry rest ih =>
    intro log idx e he
    rw [overwriteFrom, Width.wrap_unbounded] at he
    cases hlog : log.overwrite (idx + 1) entry with
    | none =>
      rw [hlog] at he
      exact .inl he
    | some log' =>
      rw [hlog] at he
      rcases ih log' (idx + 1) e he with hold | hnew
      · rcases overwrite_mem hlog e hold with hlog | rfl
        · exact .inl hlog
        · exact .inr List.mem_cons_self
      · exact .inr (List.mem_cons_of_mem _ hnew)

theorem getAppendEntries_mem (log : Log C) (start : Int) :
    ∀ e ∈ log.getAppendEntries start, e ∈ log.entries := by
  intro e he
  obtain ⟨_, he⟩ := List.mem_ite_nil_left.mp he
  obtain ⟨_, he⟩ := List.mem_ite_nil_left.mp he
  obtain ⟨_, he⟩ := List.mem_ite_nil_left.mp he
  exact List.mem_of_mem_take (List.mem_of_mem_drop he)

end Log

namespace Network
open Runs

variable {C : Type} {n : Nat}

/-! ### One node -/

/-- A message has nothing but what satisfies the property. -/
def Says (P : C → Prop) : ApplyMsg C → Prop
  | .command _ c => P c
  | .snapshot _ _ _ => True

/-- Neither has the log or the queue. -/
structure Holds (P : C → Prop) (rf : Raft C) : Prop where
  log : ∀ e ∈ rf.log.entries, P e.command
  queue : ∀ msg ∈ rf.applyHelper.q, Says P msg

section Node
variable {P : C → Prop} {rf rf' : Raft C}

theorem Holds.of_feed (h : Holds P rf) (hfeed : rf'.feed = rf.feed) : Holds P rf' := by
  have hlog : rf'.log = rf.log := congrArg Raft.Feed.log hfeed
  have hhelper : rf'.applyHelper = rf.applyHelper := congrArg Raft.Feed.helper hfeed
  exact ⟨by rw [hlog]; exact h.log, by rw [hhelper]; exact h.queue⟩

theorem Holds.start (h : Holds P rf) {command : C} (hc : P command) {result : Raft C × Int × Int × Bool}
    (hstart : rf.start command = some result) : Holds P result.1 := by
  rcases Raft.start_cases hstart with heq | ⟨_, log, hlog, heq⟩
  · rw [heq]
    exact h
  · rw [heq]
    have hnew : Holds P {rf with log := log} := by
      refine ⟨fun e he => ?_, h.queue⟩
      rcases Log.appendL_mem hlog e he with hold | hnew
      · exact h.log e hold
      · rw [List.mem_singleton.mp hnew]
        exact hc
    exact hnew.of_feed (Raft.persist_feed _)

theorem Holds.handleAppendEntriesRPC (h : Holds P rf) {args : RequestAppendEntriesArgs C}
    (hargs : ∀ e ∈ args.entries, P e.command) : Holds P (rf.handleAppendEntriesRPC args).1 := by
  have hobserve := h.of_feed (rf.observeLeader_quiet args.leaderTerm).feed
  have hentries : Holds P (rf.withEntries args) :=
    ⟨fun e he => (Log.overwriteFrom_mem _ _ _ e he).elim (h.log e) (hargs e), hobserve.queue⟩
  rcases rf.handleAppendEntriesRPC_cases args with ⟨_, heq | heq⟩ | ⟨_, heq | heq⟩
  · rw [heq]
    exact h
  · rw [heq]
    exact hobserve
  · rw [heq]
    exact hentries
  · rw [heq]
    show Holds P ((rf.withEntries args).followCommit args.leaderCommit)
    unfold Raft.followCommit
    split
    · exact ⟨hentries.log, hentries.queue⟩
    · exact hentries

theorem Holds.applyNext (h : Holds P rf) (hnext : rf.applyNext = some rf') : Holds P rf' := by
  obtain ⟨_, entry, helper, hentry, hhelper, rfl⟩ := Raft.applyNext_cases hnext
  have hmem : entry ∈ rf.log.entries := by
    unfold Log.getOneEntry at hentry
    dsimp only at hentry
    split at hentry
    · cases hentry
    · exact List.mem_of_getElem? hentry
  refine ⟨h.log, fun msg hmsg => ?_⟩
  rw [ApplyHelper.tryApply] at hhelper
  split_ifs at hhelper
  · cases hhelper
    exact h.queue msg hmsg
  · cases hhelper
    rcases List.mem_append.mp hmsg with hold | hnew
    · exact h.queue msg hold
    · rw [List.mem_singleton.mp hnew]
      exact h.log entry hmem

theorem Holds.sendMsgToTester (fuel : Nat) : ∀ rf rf' : Raft C, Holds P rf →
    rf.sendMsgToTester fuel = some rf' → Holds P rf' := by
  induction fuel with
  | zero =>
    intro rf rf' h hsend
    cases hsend
    exact h
  | succ fuel ih =>
    intro rf rf' h hsend
    rw [Raft.sendMsgToTester] at hsend
    split at hsend
    · cases hnext : rf.applyNext with
      | none =>
        rw [hnext] at hsend
        cases hsend
      | some mid =>
        rw [hnext] at hsend
        exact ih mid rf' (h.applyNext hnext) hsend
    · cases hsend
      exact h

/-- A message has entries of its sender's log. -/
theorem Holds.outgoing (h : Holds P rf) {target : Fin n} {heart : Bool} {args : RequestAppendEntriesArgs C}
    (hout : Applied.outgoing rf target heart = some args) : ∀ e ∈ args.entries, P e.command := by
  unfold Applied.outgoing at hout
  split_ifs at hout with hself hheart
  · unfold Raft.heartbeatArgs at hout
    split_ifs at hout
    cases hout
    exact fun e he => absurd he List.not_mem_nil
  · unfold Raft.appendEntriesArgs at hout
    simp only [Width.wrap_unbounded] at hout
    split_ifs at hout
    cases htracker : rf.peerTrackers[(target : Nat)]? with
    | none =>
      rw [htracker] at hout
      cases hout
    | some tracker =>
      rw [htracker] at hout
      dsimp only at hout
      split_ifs at hout
      cases hterm : rf.getEntryTerm (min rf.log.lastLogIndex (tracker.nextIndex - 1)) with
      | none =>
        rw [hterm] at hout
        cases hout
      | some term =>
        rw [hterm] at hout
        cases hout
        exact fun e he => h.log e (Log.getAppendEntries_mem _ _ e he)

end Node

/-! ### The cluster -/

/-- Nothing in the cluster violates the property. -/
structure Supplied (P : C → Prop) (s : Cluster C n) : Prop where
  nodes : ∀ i, Holds P (s.node i)
  requests : ∀ q ∈ s.requests, ∀ e ∈ q.args.entries, P e.command
  delivered : ∀ i, ∀ msg ∈ s.delivered i, Says P msg

/-- What is submitted satisfies it. -/
def Submits (P : C → Prop) : Action C n → Prop
  | .start _ c => P c
  | _ => True

section Steps
variable {P : C → Prop} {s : Cluster C n} {i : Fin n}

theorem Supplied.polls (h : Supplied P s) {polls : Election.Cluster C n} {rf : Raft C}
    (hnodes : polls.nodes = Function.update s.polls.nodes i rf) (hrf : Holds P rf) :
    Supplied P {s with polls := polls} :=
  { h with
    nodes := by
      intro j
      show Holds P (polls.nodes j)
      rw [hnodes]
      exact Election.update_all (fun _ rf => Holds P rf) h.nodes hrf j }

theorem Supplied.setNode (h : Supplied P s) {rf : Raft C} (hrf : Holds P rf) : Supplied P (s.setNode i rf) :=
  h.polls rfl hrf

theorem Supplied.election (h : Supplied P s) {action : Election.Action n} {polls : Election.Cluster C n}
    (hstep : Election.step action s.polls = some polls) : Supplied P {s with polls := polls} := by
  cases action with
  | startElection i =>
    cases hstep
    exact h.polls rfl ((h.nodes i).of_feed (Raft.startElection_quiet _).feed)
  | serve k =>
    obtain ⟨p, _, rfl⟩ := Option.map_eq_some_iff.mp hstep
    exact h.polls rfl ((h.nodes p.server).of_feed (Raft.requestVote_quiet _ _).feed)
  | loseRequest k =>
    obtain ⟨p, _, rfl⟩ := Option.map_eq_some_iff.mp hstep
    exact {h with}
  | receive k =>
    obtain ⟨r, _, rfl⟩ := Option.map_eq_some_iff.mp hstep
    exact h.polls rfl ((h.nodes r.candidate).of_feed (Raft.electionReply_quiet _ _ _).feed)
  | loseReply k =>
    obtain ⟨r, _, rfl⟩ := Option.map_eq_some_iff.mp hstep
    exact {h with}

theorem Supplied.receive (h : Supplied P s) {p : Applied.Reply C n} {t : Cluster C n}
    (ht : receive s p = some t) : Supplied P t := by
  unfold Network.receive at ht
  dsimp only at ht
  split at ht
  · cases ht
    exact h.setNode ((h.nodes _).of_feed (Raft.heartbeatReply_quiet _ _).feed)
  · obtain ⟨rf, happend, rfl⟩ := Option.map_eq_some_iff.mp ht
    have hrf := (h.nodes p.request.source).of_feed (Raft.appendReply_feed happend)
    split
    · exact h.setNode hrf
    · exact {h.setNode hrf with}

theorem Supplied.handle {wire : C → C} (hwire : ∀ c, P c → P (wire c)) (h : Supplied P s)
    {q : Applied.Request C n} (hq : q ∈ s.requests) : Supplied P (handle wire s q) := by
  have hrf : Holds P ((s.node q.target).handleAppendEntriesRPC (q.args.received wire)).1 := by
    refine (h.nodes q.target).handleAppendEntriesRPC fun e he => ?_
    obtain ⟨sent, hsent, rfl⟩ := List.mem_map.mp he
    exact hwire _ (h.requests q hq sent hsent)
  unfold Network.handle
  dsimp only
  split
  · exact {h.setNode hrf with}
  · exact {h.setNode hrf with}

theorem step_supplied {wire : C → C} (hwire : ∀ c, P c → P (wire c)) (action : Action C n)
    (s t : Cluster C n) (h : Supplied P s) (ha : Submits P action) (hs : step wire action s = some t) :
    Supplied P t := by
  cases action with
  | election action =>
    obtain ⟨polls, hpolls, rfl⟩ := Option.map_eq_some_iff.mp hs
    exact h.election hpolls
  | start i command =>
    obtain ⟨result, hresult, rfl⟩ := Option.map_eq_some_iff.mp hs
    exact h.setNode ((h.nodes i).start ha hresult)
  | send i target heart =>
    obtain ⟨args, hargs, rfl⟩ := Option.map_eq_some_iff.mp hs
    refine {h with requests := fun q hq => ?_}
    rcases List.mem_append.mp hq with hold | hnew
    · exact h.requests q hold
    · rw [List.mem_singleton.mp hnew]
      exact (h.nodes i).outgoing hargs
  | handle k =>
    obtain ⟨q, hq, rfl⟩ := Option.map_eq_some_iff.mp hs
    exact h.handle hwire (List.mem_of_getElem? hq)
  | receive k =>
    obtain ⟨p, _, ht⟩ := Option.bind_eq_some_iff.mp hs
    exact h.receive ht
  | enter i =>
    obtain ⟨_, heq⟩ := Option.ite_none_right_eq_some.mp hs
    cases heq
    exact {h with}
  | wake i =>
    obtain ⟨_, hwake⟩ := Option.ite_none_right_eq_some.mp hs
    obtain ⟨rf, hsend, rfl⟩ := Option.map_eq_some_iff.mp hwake
    exact {h.setNode (Holds.sendMsgToTester _ _ _ (h.nodes i) hsend) with}
  | deliver i =>
    unfold step at hs
    dsimp only at hs
    cases hq : (s.node i).applyHelper.q with
    | nil =>
      rw [hq] at hs
      cases hs
    | cons msg rest =>
      rw [hq] at hs
      cases hs
      have hqueue := (h.nodes i).queue
      rw [hq] at hqueue
      have hrf : Holds P {s.node i with applyHelper := {(s.node i).applyHelper with q := rest}} :=
        ⟨(h.nodes i).log, fun m hm => hqueue m (List.mem_cons_of_mem _ hm)⟩
      refine {h.setNode hrf with delivered := fun j m hm => ?_}
      have hm' : m ∈ Function.update s.delivered i (s.delivered i ++ [msg]) j := hm
      by_cases hj : j = i
      · subst hj
        rw [Function.update_self] at hm'
        rcases List.mem_append.mp hm' with hold | hnew
        · exact h.delivered j m hold
        · rw [List.mem_singleton.mp hnew]
          exact hqueue msg List.mem_cons_self
      · rw [Function.update_of_ne hj] at hm'
        exact h.delivered j m hm'
  | stop i =>
    cases hs
    have hrf : Holds P {s.node i with dead := true} := ⟨(h.nodes i).log, (h.nodes i).queue⟩
    exact h.setNode hrf
  | kill i =>
    cases hs
    have hrf : Holds P (s.node i).kill := ⟨(h.nodes i).log, (h.nodes i).queue⟩
    exact {h.setNode hrf with}

end Steps

theorem boot_supplied (P : C → Prop) (peers : List String) :
    Supplied P (boot peers : Cluster C peers.length) where
  nodes _ := ⟨fun _ he => absurd he List.not_mem_nil, fun _ hm => absurd hm List.not_mem_nil⟩
  requests := by simp [boot]
  delivered := by simp [boot]

/-- A property of everything that is submitted, and that the wire keeps, holds of everything
anywhere in the cluster. -/
theorem run_supplied {P : C → Prop} {wire : C → C} (hwire : ∀ c, P c → P (wire c)) {peers : List String}
    {actions : List (Action C peers.length)} {s : Cluster C peers.length}
    (hsubmits : ∀ action ∈ actions, Submits P action)
    (hrun : run (step wire) (boot peers) actions = some s) : Supplied P s :=
  run_invariant (step_supplied hwire) actions (boot peers) s (boot_supplied P peers)
    (along_of_forall hsubmits) hrun

/-- **What a service is handed was submitted to some node**, and has been over the wire a number of
times since. -/
theorem delivered_submitted {wire : C → C} {peers : List String} (actions : List (Action C peers.length))
    (s : Cluster C peers.length) (hrun : run (step wire) (boot peers) actions = some s) (i : Fin peers.length)
    (k : Int) (c : C) (hmsg : ApplyMsg.command k c ∈ s.delivered i) :
    ∃ j c' hops, Action.start j c' ∈ actions ∧ c = wire^[hops] c' := by
  let P : C → Prop := fun c => ∃ j c' hops, Action.start j c' ∈ actions ∧ c = wire^[hops] c'
  have hwire : ∀ c, P c → P (wire c) := by
    rintro c ⟨j, c', hops, hmem, rfl⟩
    exact ⟨j, c', hops + 1, hmem, (Function.iterate_succ_apply' ..).symm⟩
  have hsubmits : ∀ action ∈ actions, Submits P action := by
    intro action hmem
    cases action with
    | start j c' => exact ⟨j, c', 0, hmem, rfl⟩
    | _ => trivial
  exact (run_supplied hwire hsubmits hrun).delivered i _ hmsg

/-- A wire that counts: the third node is handed the second command after one message. -/
theorem delivered_submitted_changed :
    ∃ j c' hops, Action.start j c' ∈ changes 7 18 29 ∧ 19 = Nat.succ^[hops] c' :=
  @delivered_submitted Nat Nat.succ ["a", "b", "c"] (changes 7 18 29) (changed Nat.succ 7 18 29) rfl 2 1 19
    (List.mem_cons_of_mem _ List.mem_cons_self)

end Network
end Wjetcd
