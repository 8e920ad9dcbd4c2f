import Wjetcd.Server.History

/-! Who wins a compare-and-swap.

Clients that read a key at one revision race to replace it. `cas_wins_once` says that at most
one of them is told "OK", whatever else is committed in between, and that the winner has
replaced the version it had read: it was the key's latest, live, and untouched since it
was written. All of it rests on the versions of a key having increasing revisions. -/
namespace Wjetcd.Node
open Runs

/-- The command is a compare-and-swap and the server says that it has been carried out. -/
structure Wins (s : Node) (d : Delivery) : Prop where
  cas : d.cmd.type = .cas
  ok : (s.server.applyLoop d).reply = .ok (ascii "OK")

/-- The winner has been executed, on a store whose latest version it expects. -/
theorem Wins.matches {s : Node} {d : Delivery} (h : s.Wins d) :
    (s.server.persistenceErr = none ∧ d.writeErr = none) ∧
      s.store.casMatches d.cmd.key d.cmd.expectedRev = true := by
  obtain ⟨hkey, _, _, _, hrev, _⟩ := s.server.machine.fill_fields d.env.now d.cmd
  have hok := h.ok
  rcases s.server.applyLoop_cases d with ⟨_, failure, heq⟩ | ⟨hopen, outcome, rfl, heq⟩
  · rw [heq] at hok
    cases hok
  · refine ⟨hopen, ?_⟩
    rw [heq] at hok
    have ht : (s.server.machine.fill d.env.now d.cmd).2.type = .cas := by
      rw [Machine.fill_type]
      exact h.cas
    have hresult : Machine.textOf ((s.server.machine.fill d.env.now d.cmd).1.store.apply
        (s.server.machine.fill d.env.now d.cmd).2).2 = ascii "OK" := by
      simp only [Machine.execute, ht, Except.ok.injEq] at hok
      split at hok
      · assumption
      · exact hok
    rw [Machine.casMatches_iff _ ht, Machine.fill_store, hkey, hrev] at hresult
    exact hresult

theorem casMatches_latest {kv : KVStore} {key : Bytes} {expectedRev : Int}
    (h : kv.casMatches key expectedRev = true) :
    ∃ entry, (kv.versions key).getLast? = some entry ∧ entry.revision = expectedRev ∧
      entry.tombstone = false := by
  unfold KVStore.casMatches at h
  split at h
  · cases h
  · rename_i entry hlast
    simp only [Bool.and_eq_true, Bool.not_eq_true', beq_iff_eq] at h
    exact ⟨entry, hlast, h.2, h.1⟩

/-- A winner adds a version to its key. -/
theorem Wins.grows {s : Node} {d : Delivery} (h : s.Wins d) (hc : Consistent s.server.machine) :
    ∃ entry, (s.server.applyLoop d).server.machine.store.versions d.cmd.key =
      s.store.versions d.cmd.key ++ [entry] := by
  obtain ⟨hexecuted, hmatches⟩ := h.matches
  obtain ⟨hkey, _, _, _, hrev, _⟩ := s.server.machine.fill_fields d.env.now d.cmd
  replace hmatches : s.server.machine.store.casMatches d.cmd.key d.cmd.expectedRev = true := hmatches
  have happ := Server.applyLoop_appends hc d
  rw [Server.appended, if_pos hexecuted, Machine.appended, Machine.fill_type, h.cas] at happ
  dsimp only at happ
  rw [Machine.fill_store, hkey, hrev, if_pos hmatches] at happ
  have hgrown := happ.grown d.cmd.key
  rw [Versions.ofKey, List.filterMap_cons, if_pos rfl, List.filterMap_nil] at hgrown
  exact ⟨_, hgrown⟩

/-- A key that has been written since has a latest version with a higher revision. -/
theorem latest_above {past more : List Action} {a b : Node} (ha : run step boot past = some a)
    (hb : run step a more = some b) {key : Bytes} (hne : a.store.versions key ≠ b.store.versions key)
    {entry : VersionEntry} (hlast : (b.store.versions key).getLast? = some entry) :
    ∀ v ∈ a.store.versions key, v.revision < entry.revision := by
  have hc : Consistent a.server.machine := Reachable.consistent ⟨past, a, ha, rfl⟩
  obtain ⟨before, hbefore⟩ := history ha
  obtain ⟨log, hlog⟩ := run_appends hc hb
  have hgrown := hlog.grown key
  intro v hv
  have hentry : entry ∈ Versions.ofKey log key := by
    rw [hgrown, List.getLast?_append] at hlast
    cases hnew : (Versions.ofKey log key).getLast? with
    | none =>
      rw [List.getLast?_eq_none_iff.mp hnew, List.append_nil] at hgrown
      exact absurd hgrown.symm hne
    | some last =>
      rw [hnew] at hlast
      cases hlast
      exact List.mem_of_getLast? hnew
  calc
    v.revision ≤ a.store.currentRev := hbefore.le_hi hv
    _ < entry.revision := (hlog.within _ (Versions.mem_ofKey.mp hentry)).1

/-- The version that a winner has added is there in every later state. -/
theorem Wins.changed {s : Node} {d : Delivery} (h : s.Wins d) (hc : Consistent s.server.machine)
    {later : List Action} {t : Node} (ht : run step s (.deliver d :: later) = some t) :
    s.store.versions d.cmd.key ≠ t.store.versions d.cmd.key := by
  obtain ⟨won, hwon⟩ := h.grows hc
  obtain ⟨s', hs', hlater⟩ := run_cons ht
  cases hs'
  obtain ⟨log, hlog⟩ := run_appends (hc.applyLoop d) hlater
  have hgrown : t.store.versions d.cmd.key =
      (s.server.applyLoop d).server.machine.store.versions d.cmd.key ++ Versions.ofKey log d.cmd.key :=
    hlog.grown d.cmd.key
  rw [hwon] at hgrown
  intro heq
  have hlen := congrArg List.length (heq.trans hgrown)
  simp at hlen

/-- **A compare-and-swap wins at most once**, against the latest version of its key, which
nothing has touched since it was made. -/
theorem cas_wins_once (past : List Action) (s : Node) (hs : run step boot past = some s)
    (d : Delivery) (hwins : s.Wins d) :
    (∃ entry, (s.store.versions d.cmd.key).getLast? = some entry ∧
      entry.revision = d.cmd.expectedRev ∧ entry.tombstone = false) ∧
    (∃ before action after a b, past = before ++ action :: after ∧ run step boot before = some a ∧
      step action a = some b ∧
      (∀ entry ∈ a.store.versions d.cmd.key, entry.revision ≠ d.cmd.expectedRev) ∧
      (∃ entry ∈ b.store.versions d.cmd.key, entry.revision = d.cmd.expectedRev) ∧
      ∀ x y c, after = x ++ y → run step b x = some c →
        c.store.versions d.cmd.key = b.store.versions d.cmd.key) ∧
    ∀ (later : List Action) (t : Node) (d' : Delivery),
      run step s (.deliver d :: later) = some t →
      d'.cmd.key = d.cmd.key → d'.cmd.expectedRev = d.cmd.expectedRev → ¬t.Wins d' := by
  have hc : Consistent s.server.machine := Reachable.consistent ⟨past, s, hs, rfl⟩
  obtain ⟨entry, hlast, hrev, hlive⟩ := casMatches_latest hwins.matches.2
  refine ⟨⟨entry, hlast, hrev, hlive⟩, ?_, ?_⟩
  · -- the key was last written when its latest version was made
    have hchanged : boot.store.versions d.cmd.key ≠ s.store.versions d.cmd.key := by
      intro heq
      rw [← heq] at hlast
      cases hlast
    obtain ⟨before, action, after, a, b, rfl, ha, hb, hafter, hchange, hconst⟩ :=
      run_last_change (fun s : Node => s.store.versions d.cmd.key) past boot s hs hchanged
    have hend : b.store.versions d.cmd.key = s.store.versions d.cmd.key := hconst [] after b rfl rfl
    refine ⟨before, action, after, a, b, rfl, ha, hb, ?_, ?_, ?_⟩
    · intro v hv heq
      have hone : run step a [action] = some b := by
        unfold run
        rw [hb]
        rfl
      have hlt := latest_above ha hone hchange (hend ▸ hlast) v hv
      omega
    · refine ⟨entry, ?_, hrev⟩
      rw [hend]
      exact List.mem_of_getLast? hlast
    · intro x y c hxy hx
      exact (hconst x y c hxy hx).trans hend.symm
  · intro later t d' ht hkey hexpected hagain
    obtain ⟨entry', hlast', hrev', _⟩ := casMatches_latest hagain.matches.2
    rw [hkey] at hlast'
    -- the winner's own version has come after the one both expect
    have hlt := latest_above hs ht (hwins.changed hc ht) hlast' entry (List.mem_of_getLast? hlast)
    omega

def swapping (key value : Bytes) (expectedRev : Int) : Delivery :=
  ⟨Env.at 0, {Command.ofType .cas with key := key, value := value, expectedRev := expectedRev}, none⟩

/-- Two clients that have read revision 1: the second is refused. -/
theorem cas_wins_once_two :
    ∃ s, run step boot [putting [97] [1]] = some s ∧ s.Wins (swapping [97] [2] 1) ∧
      ∃ t, run step s [.deliver (swapping [97] [2] 1)] = some t ∧ ¬t.Wins (swapping [97] [3] 1) := by
  have hwins : Wins ((run step boot [putting [97] [1]]).get rfl) (swapping [97] [2] 1) := ⟨rfl, by decide⟩
  obtain ⟨_, _, hlater⟩ := cas_wins_once [putting [97] [1]] _ rfl (swapping [97] [2] 1) hwins
  exact ⟨_, rfl, hwins, _, rfl, hlater [] _ (swapping [97] [3] 1) rfl rfl rfl⟩

end Wjetcd.Node
