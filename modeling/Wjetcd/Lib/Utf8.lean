import Mathlib.Data.List.Basic

/-! UTF-8, and what an encoder does to bytes that are not.

`runeSize` is the length of the character at the head of a byte string, if there is
a well-formed one. A text encoder that meets anything else writes the replacement
character for that one byte and goes on (`coerce`). So a string survives exactly
if it is valid (`coerce_eq_iff`), and otherwise it comes out longer. -/
namespace Wjetcd.Utf8

/-- A continuation byte, or one of a narrower range after some lead bytes. -/
def between (low high b : UInt8) : Bool := decide (low ≤ b) && decide (b ≤ high)

/-- The three-byte forms: the second byte is limited after `E0` and `ED`. -/
def tail2 (low high : UInt8) : List UInt8 → Option Nat
  | b1 :: b2 :: _ => if between low high b1 && between 0x80 0xBF b2 then some 3 else none
  | _ => none

/-- The four-byte forms: the second byte is limited after `F0` and `F4`. -/
def tail3 (low high : UInt8) : List UInt8 → Option Nat
  | b1 :: b2 :: b3 :: _ =>
    if between low high b1 && between 0x80 0xBF b2 && between 0x80 0xBF b3 then some 4 else none
  | _ => none

/-- The length of the character that starts with byte `b`. -/
def runeSize (b : UInt8) (rest : List UInt8) : Option Nat :=
  if b < 0x80 then some 1
  else if b < 0xC2 then none
  else if b < 0xE0 then
    match rest with
    | b1 :: _ => if between 0x80 0xBF b1 then some 2 else none
    | [] => none
  else if b = 0xE0 then tail2 0xA0 0xBF rest
  else if b = 0xED then tail2 0x80 0x9F rest
  else if b < 0xF0 then tail2 0x80 0xBF rest
  else if b = 0xF0 then tail3 0x90 0xBF rest
  else if b < 0xF4 then tail3 0x80 0xBF rest
  else if b = 0xF4 then tail3 0x80 0x8F rest
  else none

/-- Validity with `skip` bytes of the present character still to come. -/
def validFrom : Nat → List UInt8 → Bool
  | _, [] => true
  | skip + 1, _ :: rest => validFrom skip rest
  | 0, b :: rest =>
    match runeSize b rest with
    | some size => validFrom (size - 1) rest
    | none => false

def valid (s : List UInt8) : Bool := validFrom 0 s

/-- U+FFFD. -/
def replacement : List UInt8 := [0xEF, 0xBF, 0xBD]

def coerceFrom : Nat → List UInt8 → List UInt8
  | _, [] => []
  | skip + 1, b :: rest => b :: coerceFrom skip rest
  | 0, b :: rest =>
    match runeSize b rest with
    | some size => b :: coerceFrom (size - 1) rest
    | none => replacement ++ coerceFrom 0 rest

/-- The string with every byte that is part of no character replaced. -/
def coerce (s : List UInt8) : List UInt8 := coerceFrom 0 s

theorem le_of_between {low high b : UInt8} (hlow : 0x80 ≤ low) (h : between low high b = true) :
    0x80 ≤ b := by
  simp only [between, Bool.and_eq_true, decide_eq_true_eq] at h
  exact UInt8.le_trans hlow h.1

theorem tail2_tail {low high : UInt8} {rest : List UInt8} {size : Nat} (hlow : 0x80 ≤ low)
    (h : tail2 low high rest = some size) : ∀ x ∈ rest.take (size - 1), 0x80 ≤ x := by
  unfold tail2 at h
  split at h
  · split at h
    · rename_i hb
      cases h
      simp only [Bool.and_eq_true] at hb
      intro x hx
      simp only [Nat.add_one_sub_one, List.take_succ_cons, List.take_zero, List.mem_cons,
        List.not_mem_nil, or_false] at hx
      rcases hx with rfl | rfl
      · exact le_of_between hlow hb.1
      · exact le_of_between (by decide) hb.2
    · cases h
  · cases h

theorem tail3_tail {low high : UInt8} {rest : List UInt8} {size : Nat} (hlow : 0x80 ≤ low)
    (h : tail3 low high rest = some size) : ∀ x ∈ rest.take (size - 1), 0x80 ≤ x := by
  unfold tail3 at h
  split at h
  · split at h
    · rename_i hb
      cases h
      simp only [Bool.and_eq_true] at hb
      intro x hx
      simp only [Nat.add_one_sub_one, List.take_succ_cons, List.take_zero, List.mem_cons,
        List.not_mem_nil, or_false] at hx
      rcases hx with rfl | rfl | rfl
      · exact le_of_between hlow hb.1.1
      · exact le_of_between (by decide) hb.1.2
      · exact le_of_between (by decide) hb.2
    · cases h
  · cases h

/-- What follows the lead byte of a character is no ASCII. -/
theorem runeSize_tail {b : UInt8} {rest : List UInt8} {size : Nat} (h : runeSize b rest = some size) :
    ∀ x ∈ rest.take (size - 1), 0x80 ≤ x := by
  unfold runeSize at h
  split at h
  · cases h
    simp
  split at h
  · cases h
  split at h
  · split at h
    · split at h
      · rename_i hb
        cases h
        intro x hx
        simp only [Nat.add_one_sub_one, List.take_succ_cons, List.take_zero, List.mem_cons,
          List.not_mem_nil, or_false] at hx
        rw [hx]
        exact le_of_between (by decide) hb
      · cases h
    · cases h
  split at h
  · exact tail2_tail (by decide) h
  split at h
  · exact tail2_tail (by decide) h
  split at h
  · exact tail2_tail (by decide) h
  split at h
  · exact tail3_tail (by decide) h
  split at h
  · exact tail3_tail (by decide) h
  split at h
  · exact tail3_tail (by decide) h
  · cases h

theorem length_le_coerceFrom (s : List UInt8) : ∀ skip, s.length ≤ (coerceFrom skip s).length := by
  induction s with
  | nil =>
    intro skip
    exact Nat.zero_le _
  | cons b rest ih =>
    intro skip
    cases skip with
    | succ skip =>
      rw [coerceFrom, List.length_cons, List.length_cons]
      exact Nat.succ_le_succ (ih skip)
    | zero =>
      rw [coerceFrom]
      split
      · rw [List.length_cons, List.length_cons]
        exact Nat.succ_le_succ (ih _)
      · have := ih 0
        rw [List.length_append, List.length_cons]
        simp only [replacement, List.length_cons, List.length_nil]
        omega

theorem coerceFrom_eq_iff (s : List UInt8) :
    ∀ skip, coerceFrom skip s = s ↔ validFrom skip s = true := by
  induction s with
  | nil =>
    intro skip
    cases skip <;> simp [coerceFrom, validFrom]
  | cons b rest ih =>
    intro skip
    cases skip with
    | succ skip =>
      rw [coerceFrom, validFrom, List.cons.injEq]
      simp only [true_and]
      exact ih skip
    | zero =>
      rw [coerceFrom, validFrom]
      split
      · rw [List.cons.injEq]
        simp only [true_and]
        exact ih _
      · -- three bytes stand for one, so the string has grown
        constructor
        · intro h
          have hlen := congrArg List.length h
          have hle := length_le_coerceFrom rest 0
          rw [List.length_append, List.length_cons] at hlen
          simp only [replacement, List.length_cons, List.length_nil] at hlen
          omega
        · intro h
          cases h

/-- **A string survives exactly if it is valid.** -/
theorem coerce_eq_iff (s : List UInt8) : coerce s = s ↔ valid s = true := coerceFrom_eq_iff s 0

/-- What is not valid comes out longer. -/
theorem length_lt_coerceFrom (s : List UInt8) :
    ∀ skip, validFrom skip s = false → s.length < (coerceFrom skip s).length := by
  induction s with
  | nil =>
    intro skip h
    cases skip <;> cases h
  | cons b rest ih =>
    intro skip h
    cases skip with
    | succ skip =>
      rw [coerceFrom, List.length_cons, List.length_cons]
      exact Nat.succ_lt_succ (ih skip h)
    | zero =>
      rw [validFrom] at h
      rw [coerceFrom]
      split
      · rename_i size hsize
        rw [hsize] at h
        rw [List.length_cons, List.length_cons]
        exact Nat.succ_lt_succ (ih _ h)
      · have hle := length_le_coerceFrom rest 0
        rw [List.length_append, List.length_cons]
        simp only [replacement, List.length_cons, List.length_nil]
        omega

end Wjetcd.Utf8
