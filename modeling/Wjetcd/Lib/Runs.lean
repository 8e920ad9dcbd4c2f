import Mathlib.Data.Fintype.Card

/-! Systems that take one step at a time, and majorities.

A system is a partial step function: `step a s = none` says that the action `a`
cannot be taken in `s`, or takes the system down. `run` chains actions, `Along`
asks a rule of every action in the state in which it is taken, and
`run_invariant` is the one induction over runs: what a rule-abiding step
preserves, a rule-abiding run preserves. `run_measured` bounds the length of a run.
`majority_meet` is the other fact that protocols rest on: two majorities of the same
voters share one. -/
namespace Wjetcd.Runs

variable {A S : Type}

/-- The state a list of actions leads to, if each of them can be taken. -/
def run (step : A → S → Option S) (s : S) : List A → Option S
  | [] => some s
  | a :: rest =>
    match step a s with
    | none => none
    | some t => run step t rest

/-- The rule holds of every action, in the state in which it is taken. -/
def Along (step : A → S → Option S) (Rule : A → S → Prop) (s : S) : List A → Prop
  | [] => True
  | a :: rest =>
    Rule a s ∧
      match step a s with
      | none => True
      | some t => Along step Rule t rest

variable {step : A → S → Option S} {Rule : A → S → Prop} {P : S → Prop}

instance decidableAlong [∀ a s, Decidable (Rule a s)] :
    (s : S) → (actions : List A) → Decidable (Along step Rule s actions)
  | _, [] => .isTrue trivial
  | s, a :: rest =>
    have : Decidable (match step a s with | none => True | some t => Along step Rule t rest) :=
      match step a s with
      | none => .isTrue trivial
      | some t => decidableAlong t rest
    inferInstanceAs (Decidable (Rule a s ∧ _))

theorem run_cons {s u : S} {a : A} {rest : List A} (h : run step s (a :: rest) = some u) :
    ∃ t, step a s = some t ∧ run step t rest = some u := by
  unfold run at h
  cases hs : step a s with
  | none => simp [hs] at h
  | some t => exact ⟨t, rfl, by simpa [hs] using h⟩

/-- One more action at the end. -/
theorem run_concat {s t u : S} {actions : List A} {a : A} (h : run step s actions = some t)
    (hs : step a t = some u) : run step s (actions ++ [a]) = some u := by
  induction actions generalizing s with
  | nil =>
    cases h
    show (match step a t with | none => none | some t => run step t []) = some u
    rw [hs]
    rfl
  | cons b rest ih =>
    obtain ⟨v, hb, hrest⟩ := run_cons h
    show (match step b s with | none => none | some t => run step t (rest ++ [a])) = some u
    rw [hb]
    exact ih hrest

theorem run_append {s u : S} {actions later : List A} (h : run step s (actions ++ later) = some u) :
    ∃ t, run step s actions = some t ∧ run step t later = some u := by
  induction actions generalizing s with
  | nil => exact ⟨s, rfl, h⟩
  | cons a rest ih =>
    obtain ⟨v, ha, hrest⟩ := run_cons h
    obtain ⟨t, ht, hlater⟩ := ih hrest
    refine ⟨t, ?_, hlater⟩
    unfold run
    rw [ha]
    exact ht

/-- What has changed has changed for the last time at some action. -/
theorem run_last_change {V : Type} (f : S → V) (actions : List A) (s u : S)
    (hu : run step s actions = some u) (hne : f s ≠ f u) :
    ∃ before a after v w, actions = before ++ a :: after ∧ run step s before = some v ∧
      step a v = some w ∧ run step w after = some u ∧ f v ≠ f w ∧
      ∀ x y z, after = x ++ y → run step w x = some z → f z = f u := by
  induction actions using List.reverseRecOn generalizing u with
  | nil =>
    cases hu
    exact absurd rfl hne
  | append_singleton init a ih =>
    obtain ⟨v, hv, hlast⟩ := run_append hu
    obtain ⟨w, hstep, hw⟩ := run_cons hlast
    cases hw
    by_cases hsame : f v = f u
    · obtain ⟨before, b, after, v', w', rfl, hbefore, hb, hafter, hchange, hconst⟩ := ih v hv (hsame ▸ hne)
      refine ⟨before, b, after ++ [a], v', w', by simp, hbefore, hb, run_concat hafter hstep, hchange, ?_⟩
      intro x y z hxy hz
      rcases List.eq_nil_or_concat y with rfl | ⟨y', last, rfl⟩
      · -- all of it, the last action included
        rw [List.append_nil] at hxy
        rw [← hxy, run_concat hafter hstep] at hz
        cases hz
        rfl
      · rw [List.concat_eq_append, ← List.append_assoc] at hxy
        exact (hconst x y' z (List.append_inj_left' hxy rfl) hz).trans hsame
    · refine ⟨init, a, [], v, u, rfl, hv, hstep, rfl, hsame, ?_⟩
      intro x y z hxy hz
      obtain ⟨rfl, _⟩ := List.append_eq_nil_iff.mp hxy.symm
      cases hz
      rfl

theorem along_cons {s t : S} {a : A} {rest : List A} (h : Along step Rule s (a :: rest))
    (hs : step a s = some t) : Rule a s ∧ Along step Rule t rest := by
  unfold Along at h
  rw [hs] at h
  exact h

/-- A rule on actions alone is obeyed by a run of actions that obey it. -/
theorem along_of_forall {Rule : A → Prop} {actions : List A} (h : ∀ a ∈ actions, Rule a) {s : S} :
    Along step (fun a _ => Rule a) s actions := by
  induction actions generalizing s with
  | nil => trivial
  | cons a rest ih =>
    refine ⟨h a List.mem_cons_self, ?_⟩
    cases step a s with
    | none => trivial
    | some t => exact ih fun b hb => h b (List.mem_cons_of_mem _ hb)

/-- A step that keeps an invariant under a rule makes every run that obeys the
rule keep it. -/
theorem run_invariant
    (hstep : ∀ a s t, P s → Rule a s → step a s = some t → P t)
    (actions : List A) (s u : S) (h : P s) (hr : Along step Rule s actions)
    (hu : run step s actions = some u) : P u := by
  induction actions generalizing s with
  | nil =>
    cases hu
    exact h
  | cons a rest ih =>
    obtain ⟨t, hs, ht⟩ := run_cons hu
    obtain ⟨hrule, hrest⟩ := along_cons hr hs
    exact ih t (hstep a s t h hrule hs) hrest ht

/-- The same without a rule. -/
theorem run_invariant_all
    (hstep : ∀ a s t, P s → step a s = some t → P t)
    (actions : List A) (s u : S) (h : P s) (hu : run step s actions = some u) : P u := by
  induction actions generalizing s with
  | nil =>
    cases hu
    exact h
  | cons a rest ih =>
    obtain ⟨t, hs, ht⟩ := run_cons hu
    exact ih t (hstep a s t h hs) ht

/-- Of the runs that obey a rule, the same obey two others that mean the same wherever an invariant
holds, which they keep. -/
theorem along_congr {First Second : A → S → Prop} (hrule : ∀ a s, P s → Rule a s → (First a s ↔ Second a s))
    (hstep : ∀ a s t, P s → Rule a s → First a s → step a s = some t → P t)
    (actions : List A) (s : S) (h : P s) (hr : Along step Rule s actions) :
    Along step First s actions ↔ Along step Second s actions := by
  induction actions generalizing s with
  | nil => exact Iff.rfl
  | cons a rest ih =>
    unfold Along
    rw [← hrule a s h hr.1]
    apply and_congr_right
    intro ha
    cases hs : step a s with
    | none => exact Iff.rfl
    | some t => exact ih t (hstep a s t h hr.1 ha hs) (along_cons hr hs).2

/-- A loop whose body may fail does not, if the body does not in any state with an
invariant that it keeps. It ends where the body without the failure leads, and relates the two
ends as the body relates its own. -/
theorem foldlM_total {R : S → S → Prop} (hrefl : ∀ s, P s → R s s)
    (htrans : ∀ {s t u}, R s t → R t u → R s u) {body : S → A → Option S} {next : S → A → S}
    (hbody : ∀ s a, P s → body s a = some (next s a) ∧ P (next s a) ∧ R s (next s a)) (l : List A) :
    ∀ s, P s → l.foldlM body s = some (l.foldl next s) ∧ P (l.foldl next s) ∧ R s (l.foldl next s) := by
  induction l with
  | nil =>
    intro s h
    exact ⟨rfl, h, hrefl s h⟩
  | cons a rest ih =>
    intro s h
    obtain ⟨hs, hnext, hone⟩ := hbody s a h
    obtain ⟨hrest, hlast, hmore⟩ := ih (next s a) hnext
    refine ⟨?_, hlast, htrans hone hmore⟩
    rw [List.foldlM_cons, hs]
    exact hrest

/-- A run is such a loop. -/
theorem run_eq_foldlM (actions : List A) (s : S) :
    run step s actions = actions.foldlM (fun s a => step a s) s := by
  induction actions generalizing s with
  | nil => rfl
  | cons a rest ih =>
    rw [run, List.foldlM_cons]
    cases step a s with
    | none => rfl
    | some t => exact ih t

/-- A measure that every step lowers, but for at most `cost` where the action is from outside, bounds
the length of runs. -/
theorem run_measured {measure : S → Nat} {outside : A → Bool} {cost : Nat}
    (hstep : ∀ a s t, step a s = some t → measure t + 1 ≤ measure s + if outside a then cost else 0)
    (actions : List A) (s u : S) (hu : run step s actions = some u) :
    actions.length + measure u ≤ measure s + cost * actions.countP outside := by
  induction actions generalizing s with
  | nil =>
    cases hu
    rw [List.length_nil, List.countP_nil, Nat.mul_zero, Nat.zero_add, Nat.add_zero]
  | cons a rest ih =>
    obtain ⟨t, hs, ht⟩ := run_cons hu
    have hfirst := hstep a s t hs
    have hrest := ih t ht
    rw [List.length_cons]
    by_cases ha : outside a = true
    · rw [if_pos ha] at hfirst
      rw [List.countP_cons_of_pos ha, Nat.mul_succ]
      omega
    · rw [if_neg ha] at hfirst
      rw [List.countP_cons_of_neg ha]
      omega

/-- What is to be seen of each action of a run, in the state in which it is taken. -/
def observe {B : Type} (step : A → S → Option S) (look : A → S → B) (s : S) : List A → List B
  | [] => []
  | a :: rest =>
    look a s ::
      match step a s with
      | none => []
      | some t => observe step look t rest

/-- A system whose steps are the steps of another one, seen through a view of its states, runs
only as the other one does. -/
theorem run_refines {B T : Type} {look : A → S → B} {view : S → T} {step' : B → T → Option T}
    (hstep : ∀ a s t, P s → Rule a s → step a s = some t → P t ∧ step' (look a s) (view s) = some (view t))
    (actions : List A) (s u : S) (h : P s) (hr : Along step Rule s actions)
    (hu : run step s actions = some u) : run step' (view s) (observe step look s actions) = some (view u) := by
  induction actions generalizing s with
  | nil =>
    cases hu
    rfl
  | cons a rest ih =>
    obtain ⟨t, hs, ht⟩ := run_cons hu
    obtain ⟨hrule, hrest⟩ := along_cons hr hs
    obtain ⟨hP, hview⟩ := hstep a s t h hrule hs
    unfold observe run
    rw [hs, hview]
    exact ih t hP hrest ht

/-- Two majorities of `n` voters share a voter. -/
theorem majority_meet {n : Nat} {p q : List (Fin n)} (hp : p.Nodup) (hq : q.Nodup)
    (hpn : n / 2 < p.length) (hqn : n / 2 < q.length) : ∃ v, v ∈ p ∧ v ∈ q := by
  have hcard : (Finset.univ : Finset (Fin n)).card < p.toFinset.card + q.toFinset.card := by
    rw [List.toFinset_card_of_nodup hp, List.toFinset_card_of_nodup hq, Finset.card_fin]
    omega
  obtain ⟨v, hv⟩ := Finset.inter_nonempty_of_card_lt_card_add_card
    (Finset.subset_univ _) (Finset.subset_univ _) hcard
  rw [Finset.mem_inter, List.mem_toFinset, List.mem_toFinset] at hv
  exact ⟨v, hv⟩

end Wjetcd.Runs
