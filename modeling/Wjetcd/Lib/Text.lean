import Mathlib

/-! Texts over any alphabet: lines, and occurrences.

A line is a text without the separator, and `unlines` ends every one of them with it. What a file
holds is then a list of lines, and a rest that nothing has ended yet: `splitOn_unlines` takes it
apart, `rdropWhile_unlines` drops the rest, `take_unlines` says that a cut anywhere leaves a file of
that kind, and `sep_boundary` that a separator in it is the end of a line.

`index` finds the first occurrence of a text in another. `index_append` says where it is if the text
around it is known, whatever comes after. -/
namespace Wjetcd.Text

variable {α : Type}

/-- The texts, each with its separator. -/
def unlines (sep : α) (texts : List (List α)) : List α := texts.flatMap fun text => text ++ [sep]

/-- The texts are lines: the separator is in none of them. -/
def Separate (sep : α) (texts : List (List α)) : Prop := ∀ text ∈ texts, sep ∉ text

variable {sep : α}

@[simp] theorem unlines_nil : unlines sep [] = [] := rfl

theorem unlines_cons (text : List α) (texts : List (List α)) :
    unlines sep (text :: texts) = text ++ sep :: unlines sep texts := by
  simp [unlines]

theorem length_unlines_cons (text : List α) (texts : List (List α)) :
    (unlines sep (text :: texts)).length = text.length + 1 + (unlines sep texts).length := by
  rw [unlines_cons, List.length_append, List.length_cons]
  omega

theorem unlines_append (a b : List (List α)) : unlines sep (a ++ b) = unlines sep a ++ unlines sep b :=
  List.flatMap_append

theorem Separate.head {text : List α} {texts : List (List α)} (h : Separate sep (text :: texts)) :
    sep ∉ text :=
  h text List.mem_cons_self

theorem Separate.tail {text : List α} {texts : List (List α)} (h : Separate sep (text :: texts)) :
    Separate sep texts :=
  fun other hother => h other (List.mem_cons_of_mem _ hother)

theorem Separate.nil : Separate sep [] := fun _ hother => absurd hother List.not_mem_nil

theorem Separate.cons {text : List α} {texts : List (List α)} (htext : sep ∉ text)
    (h : Separate sep texts) : Separate sep (text :: texts) :=
  List.forall_mem_cons.mpr ⟨htext, h⟩

theorem Separate.append {a b : List (List α)} (ha : Separate sep a) (hb : Separate sep b) :
    Separate sep (a ++ b) :=
  List.forall_mem_append.mpr ⟨ha, hb⟩

/-! ### The end -/

theorem getLast_unlines (texts : List (List α)) :
    unlines sep texts = [] ∨ (unlines sep texts).getLast? = some sep := by
  induction texts using List.reverseRecOn with
  | nil => exact Or.inl rfl
  | append_singleton texts text _ =>
    right
    rw [unlines_append, unlines_cons, unlines_nil, ← List.append_assoc, List.getLast?_concat]

/-- Joining with separators between the texts, and one more at the end. -/
theorem intercalate_unlines {texts : List (List α)} (h : texts ≠ []) :
    [sep].intercalate texts ++ [sep] = unlines sep texts := by
  induction texts with
  | nil => exact absurd rfl h
  | cons text rest ih =>
    by_cases hrest : rest = []
    · rw [hrest, List.intercalate_singleton, unlines_cons, unlines_nil]
    · rw [List.intercalate_cons_of_ne_nil hrest, List.append_assoc, ih hrest, unlines_cons,
        List.append_assoc, List.singleton_append]

section Decidable
variable [DecidableEq α]

/-- What follows the last separator can be dropped. -/
theorem rdropWhile_unlines (texts : List (List α)) {rest : List α} (h : sep ∉ rest) :
    (unlines sep texts ++ rest).rdropWhile (· ≠ sep) = unlines sep texts := by
  induction rest using List.reverseRecOn with
  | nil =>
    rw [List.append_nil]
    rcases @getLast_unlines α sep texts with hnil | hlast
    · rw [hnil]
      rfl
    · obtain ⟨init, hinit⟩ := List.getLast?_eq_some_iff.mp hlast
      rw [hinit]
      exact List.rdropWhile_concat_neg _ _ _ (by simp)
  | append_singleton rest b ih =>
    simp only [List.mem_append, List.mem_singleton, not_or] at h
    rw [← List.append_assoc, List.rdropWhile_concat_pos _ _ _ (by simpa using Ne.symm h.2)]
    exact ih h.1

/-! ### Taking lines apart -/

theorem not_sep {text : List α} (h : sep ∉ text) : ∀ b ∈ text, (b == sep) = false := by
  intro b hb
  rw [beq_eq_false_iff_ne]
  rintro rfl
  exact h hb

theorem splitOn_line {text : List α} (h : sep ∉ text) (rest : List α) :
    (text ++ sep :: rest).splitOn sep = text :: rest.splitOn sep :=
  List.splitOnP_append_cons_of_forall_mem (not_sep h) sep (by simp) rest

theorem splitOn_rest {rest : List α} (h : sep ∉ rest) : rest.splitOn sep = [rest] :=
  List.splitOnP_eq_singleton (not_sep h)

theorem splitOn_unlines {texts : List (List α)} (h : Separate sep texts) (rest : List α) :
    (unlines sep texts ++ rest).splitOn sep = texts ++ rest.splitOn sep := by
  induction texts with
  | nil => rfl
  | cons text texts ih =>
    rw [unlines_cons, List.append_assoc, List.cons_append, splitOn_line h.head, ih h.tail,
      List.cons_append]

end Decidable

/-! ### Cuts -/

/-- Cut anywhere, a text of lines is the lines that end before the cut, and a rest without a
separator. -/
theorem take_unlines {texts : List (List α)} (h : Separate sep texts) : ∀ n : Nat, ∃ k rest,
    k ≤ texts.length ∧ (unlines sep texts).take n = unlines sep (texts.take k) ++ rest ∧
      sep ∉ rest ∧ ∀ i < texts.length, i < k ↔ (unlines sep (texts.take (i + 1))).length ≤ n := by
  induction texts with
  | nil =>
    intro n
    exact ⟨0, [], le_refl _, by simp, by simp, by simp⟩
  | cons text texts ih =>
    intro n
    by_cases hcut : n ≤ text.length
    · -- the cut is in the first line
      refine ⟨0, text.take n, Nat.zero_le _, ?_, ?_, ?_⟩
      · rw [unlines_cons, List.take_append_of_le_length hcut]
        rfl
      · exact fun hmem => h.head (List.mem_of_mem_take hmem)
      · intro i _
        rw [List.take_succ_cons, length_unlines_cons]
        omega
    · obtain ⟨k, rest, hk, htake, hclean, hends⟩ := ih h.tail (n - (text.length + 1))
      refine ⟨k + 1, rest, Nat.succ_le_succ hk, ?_, hclean, ?_⟩
      · have hn : n - text.length = (n - (text.length + 1)) + 1 := by omega
        rw [unlines_cons, List.take_append, List.take_of_length_le (by omega), hn, List.take_succ_cons,
          htake, List.take_succ_cons, unlines_cons, List.append_assoc, List.cons_append]
      · intro i hi
        rw [List.take_succ_cons, length_unlines_cons]
        cases i with
        | zero =>
          simp only [Nat.zero_lt_succ, List.take_zero, unlines_nil, List.length_nil, true_iff]
          omega
        | succ i =>
          rw [List.length_cons] at hi
          rw [Nat.add_lt_add_iff_right, hends i (by omega)]
          omega

/-- A separator is the end of a line. -/
theorem sep_boundary {texts : List (List α)} (h : Separate sep texts) {rest : List α}
    (hrest : sep ∉ rest) : ∀ i : Nat, (unlines sep texts ++ rest)[i]? = some sep →
      ∃ j, j ≤ texts.length ∧ i + 1 = (unlines sep (texts.take j)).length := by
  induction texts with
  | nil =>
    intro i hi
    exact absurd (List.mem_of_getElem? hi) hrest
  | cons text texts ih =>
    intro i hi
    rw [unlines_cons, List.append_assoc] at hi
    rcases Nat.lt_trichotomy i text.length with hlt | heq | hgt
    · rw [List.getElem?_append_left hlt] at hi
      exact absurd (List.mem_of_getElem? hi) h.head
    · exact ⟨1, by simp, by rw [List.take_succ_cons, List.take_zero, length_unlines_cons, heq]; rfl⟩
    · rw [List.getElem?_append_right (by omega), List.cons_append, List.getElem?_cons,
        if_neg (by omega)] at hi
      obtain ⟨j, hj, hend⟩ := ih h.tail _ hi
      refine ⟨j + 1, Nat.succ_le_succ hj, ?_⟩
      rw [List.take_succ_cons, length_unlines_cons]
      omega

/-! ### Occurrences -/

section Search
variable [DecidableEq α]

/-- Where `sub` occurs first. -/
def index (sub : List α) : List α → Option Nat
  | [] => if sub = [] then some 0 else none
  | b :: rest => if sub.isPrefixOf (b :: rest) then some 0 else (index sub rest).map (· + 1)

theorem index_head {sub text : List α} (h : sub <+: text) : index sub text = some 0 := by
  cases text with
  | nil => rw [index, if_pos (List.prefix_nil.mp h)]
  | cons b rest => rw [index, if_pos (List.isPrefixOf_iff_prefix.mpr h)]

/-- The occurrence after `before` is the first one, whatever follows, if none starts in `before`. -/
theorem index_append {sub before : List α}
    (h : ∀ i < before.length, ¬sub <+: (before ++ sub).drop i) (rest : List α) :
    index sub (before ++ sub ++ rest) = some before.length := by
  induction before with
  | nil => exact index_head (List.prefix_append _ _)
  | cons b before ih =>
    have hhere : ¬sub <+: b :: (before ++ sub ++ rest) := by
      intro hsub
      refine h 0 (Nat.succ_pos _) ?_
      rw [List.drop_zero]
      -- `sub` is not longer than what stands before `rest`
      refine List.prefix_of_prefix_length_le hsub (List.prefix_append (b :: before ++ sub) rest) ?_
      rw [List.length_append]
      omega
    have hthere := ih fun i hi => h (i + 1) (Nat.succ_lt_succ hi)
    rw [List.cons_append, List.cons_append, index,
      if_neg fun hsub => hhere (List.isPrefixOf_iff_prefix.mp hsub), hthere]
    rfl

/-- The first occurrence of one letter. -/
theorem index_letter {q : α} {before : List α} (h : q ∉ before) (rest : List α) :
    index [q] (before ++ q :: rest) = some before.length := by
  have hindex := @index_append _ _ [q] before ?_ rest
  · rwa [List.append_assoc] at hindex
  · intro i hi hsub
    rw [List.drop_append_of_le_length hi.le, List.drop_eq_getElem_cons hi, List.cons_append,
      List.cons_prefix_cons] at hsub
    exact h (hsub.1 ▸ List.getElem_mem hi)

/-- What stands before the first occurrence of a letter does not have it. -/
theorem not_mem_take_index {q : α} {text : List α} {n : Nat} (h : index [q] text = some n) :
    q ∉ text.take n := by
  induction text generalizing n with
  | nil => simp
  | cons b rest ih =>
    rw [index] at h
    split at h
    · cases h
      simp
    · rename_i hhere
      obtain ⟨m, hm, rfl⟩ := Option.map_eq_some_iff.mp h
      rw [List.take_succ_cons, List.mem_cons, not_or]
      refine ⟨?_, ih hm⟩
      rintro rfl
      exact hhere (by simp)

end Search

end Wjetcd.Text
