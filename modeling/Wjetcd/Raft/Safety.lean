import Wjetcd.Raft.Refinement

/-! What holds in every state that a sane run of the cluster leads to.

Each theorem takes the state of the protocol that `run_sim` gives and reads one of the
protocol's consequences back: logs with an entry of one term in one place agree up to there,
leaders hold what was committed before them, commits agree, and the services of any two
nodes are handed the same commands in the same places, all of them committed. -/
namespace Wjetcd.Network
open Runs Consensus

section Reachable
variable {C : Type} {peers : List String}

/-- The states of sane runs of a fresh cluster. -/
def Reachable (wire : C → C) (s : Cluster C peers.length) : Prop :=
  ∃ actions, Along (step wire) Sane (boot peers) actions ∧ run (step wire) (boot peers) actions = some s

variable {D : Type} {canon : C → D} {wire : C → C} {s : Cluster C peers.length}

theorem Reachable.sim (h : Reachable wire s) (hcanon : ∀ c, canon (wire c) = canon c) :
    ∃ a, Sim canon s a := by
  obtain ⟨actions, hsane, hrun⟩ := h
  obtain ⟨a, _, hsim⟩ := run_sim hcanon hsane hrun
  exact ⟨a, hsim⟩

end Reachable

theorem changed_reachable : @Reachable Nat ["a", "b", "c"] id (changed id 7 8 9) :=
  ⟨changes 7 8 9, by decide +kernel, rfl⟩

/-! ### Safety -/

section Safety
variable {C D : Type} {canon : C → D} {wire : C → C} {peers : List String} {s : Cluster C peers.length}

/-- **Logs that have an entry of one term in one place are the same up to there.** -/
theorem logs_match (hcanon : ∀ c, canon (wire c) = canon c) (hs : Reachable wire s) (i j : Fin peers.length)
    (k : Nat) (e e' : Entry C) (hi : (s.node i).log.entries[k]? = some e)
    (hj : (s.node j).log.entries[k]? = some e') (hterm : e.term = e'.term) :
    ((s.node i).log.entries.take (k + 1)).map (view canon) =
      ((s.node j).log.entries.take (k + 1)).map (view canon) := by
  obtain ⟨a, h⟩ := hs.sim hcanon
  have hget : ∀ {l : Fin peers.length} {e : Entry C}, (s.node l).log.entries[k]? = some e →
      (a.log l)[k]? = some (view canon e) := by
    intro l e he
    rw [(h.nodes l).log, List.getElem?_map, he]
    rfl
  have hsame := (h.inv.log_sound i).matching (h.inv.log_sound j) (hget hi) (hget hj) hterm
  rw [(h.nodes i).log, (h.nodes j).log] at hsame
  rw [List.map_take, List.map_take]
  exact hsame

theorem logs_match_changed :
    (((changed id 7 8 9).node 0).log.entries.take 2).map (view id) =
      (((changed id 7 8 9).node 1).log.entries.take 2).map (view id) :=
  logs_match (fun _ => rfl) changed_reachable 0 1 1 ⟨1, 8⟩ ⟨1, 8⟩ rfl rfl rfl

/-- **A leader holds all that was committed in its term or before**, whoever committed it. -/
theorem leader_complete (hcanon : ∀ c, canon (wire c) = canon c) (hs : Reachable wire s) (c : Commit C _)
    (hc : c ∈ s.commits) (i : Fin peers.length) (hlead : (s.node i).state = .leader)
    (hterm : c.term ≤ (s.node i).currentTerm) :
    c.entries.map (view canon) <+: (s.node i).log.entries.map (view canon) := by
  obtain ⟨a, h⟩ := hs.sim hcanon
  obtain ⟨_, d, hd, hdterm, hentries⟩ := h.commits c hc
  obtain ⟨r, hr, rfl, hrterm⟩ := (h.nodes i).reigning hlead
  have hlog := h.inv.leader_log r hr ((h.nodes r.leader).term.trans hrterm.symm)
  rw [hentries, ← (h.nodes r.leader).log, hlog]
  exact h.inv.commit_ledger hd hr (by omega)

theorem leader_complete_changed :
    ([⟨1, 7⟩, ⟨1, 8⟩] : List (Entry Nat)).map (view id) <+: ((changed id 7 8 9).node 2).log.entries.map (view id) :=
  leader_complete (fun _ => rfl) changed_reachable ⟨0, 1, [⟨1, 7⟩, ⟨1, 8⟩]⟩
    (List.mem_cons_of_mem _ List.mem_cons_self) 2 rfl (by decide)

/-- **Commits agree**: of any two, by whichever leaders, one has what the other has. -/
theorem commits_agree (hcanon : ∀ c, canon (wire c) = canon c) (hs : Reachable wire s) (c d : Commit C _)
    (hc : c ∈ s.commits) (hd : d ∈ s.commits) :
    c.entries.map (view canon) <+: d.entries.map (view canon) ∨
      d.entries.map (view canon) <+: c.entries.map (view canon) := by
  obtain ⟨a, h⟩ := hs.sim hcanon
  obtain ⟨_, c', hc', _, hcentries⟩ := h.commits c hc
  obtain ⟨_, d', hd', _, hdentries⟩ := h.commits d hd
  rw [hcentries, hdentries]
  exact h.inv.commit_agree hc' hd'

theorem commits_agree_changed :
    ([⟨2, 2, [⟨1, 7⟩, ⟨1, 8⟩, ⟨2, 9⟩]⟩, ⟨0, 1, [⟨1, 7⟩, ⟨1, 8⟩]⟩, ⟨0, 1, [⟨1, 7⟩]⟩] : List (Commit Nat 3)) =
        (changed id 7 8 9).commits ∧
      ((changed id 7 8 9).commits.Pairwise fun c d => c.entries.map (view id) <+: d.entries.map (view id) ∨
        d.entries.map (view id) <+: c.entries.map (view id)) :=
  ⟨rfl, List.pairwise_of_forall_mem_list fun c hc d hd =>
    commits_agree (fun _ => rfl) changed_reachable c d hc hd⟩

/-- What a service has been handed is a beginning of what its node takes for committed. -/
theorem Sim.delivered {a : Abstract n D} {s : Cluster C n} (h : Sim canon s a) (i : Fin n) :
    (s.delivered i).map (content canon) <+: messages ((a.log i).take (a.known i)) := by
  have hm := h.nodes i
  have hstream : (s.delivered i ++ (s.node i).applyHelper.q).map (content canon) <+:
      messages ((a.log i).take (a.known i)) := by
    rw [hm.stream]
    exact messages_begins (List.take_prefix_take_left hm.applied)
  rw [List.map_append] at hstream
  exact (List.prefix_append _ _).trans hstream

/-- Two services have been handed beginnings of one sequence. -/
theorem Sim.shared {a : Abstract n D} {s : Cluster C n} (h : Sim canon s a) (i j : Fin n) :
    ∃ l : List (Int × D), (s.delivered i).map (content canon) <+: messages l ∧
      (s.delivered j).map (content canon) <+: messages l := by
  rcases h.inv.known_agree i j with hle | hle
  · exact ⟨_, (h.delivered i).trans (messages_begins hle), h.delivered j⟩
  · exact ⟨_, h.delivered i, (h.delivered j).trans (messages_begins hle)⟩

/-- **The services of any two nodes are handed the same commands**, the one of them that is
behind a beginning of what the other has had, each command with its place as its index. -/
theorem services_agree (hcanon : ∀ c, canon (wire c) = canon c) (hs : Reachable wire s)
    (i j : Fin peers.length) :
    ∃ l : List (Int × D), (s.delivered i).map (content canon) <+: messages l ∧
      (s.delivered j).map (content canon) <+: messages l := by
  obtain ⟨a, h⟩ := hs.sim hcanon
  exact h.shared i j

theorem services_agree_changed : ∃ l : List (Int × Nat),
    ((changed id 7 8 9).delivered 0).map (content id) <+: messages l ∧
      ((changed id 7 8 9).delivered 2).map (content id) <+: messages l :=
  services_agree (fun _ => rfl) changed_reachable 0 2

/-- **What a service is handed has been committed by a leader**, as it was handed, and in the
same place. -/
theorem delivered_committed (hcanon : ∀ c, canon (wire c) = canon c) (hs : Reachable wire s)
    (i : Fin peers.length) (hsome : s.delivered i ≠ []) :
    ∃ c ∈ s.commits, (s.delivered i).map (content canon) <+: messages (c.entries.map (view canon)) := by
  obtain ⟨a, h⟩ := hs.sim hcanon
  have hdelivered := h.delivered i
  rcases h.inv.known_commit i with hzero | ⟨d, hd, _, hpre, _⟩
  · rw [hzero] at hdelivered
    exact absurd (List.map_eq_nil_iff.mp (List.prefix_nil.mp hdelivered)) hsome
  · obtain ⟨c, hc, _, hentries⟩ := h.committed d hd
    refine ⟨c, hc, hdelivered.trans ?_⟩
    rw [hentries]
    exact messages_begins hpre

theorem delivered_committed_changed : ∃ c ∈ (changed id 7 8 9).commits,
    ((changed id 7 8 9).delivered 1).map (content id) <+: messages (c.entries.map (view id)) :=
  delivered_committed (fun _ => rfl) changed_reachable 1 (List.cons_ne_nil _ _)

end Safety

end Wjetcd.Network
