import Mathlib

/-! Integers through a 64-bit float.

`round` is the nearest integer with a significand of 53 bits, ties to even, which
is what reading a decimal integer as a float gives. `toInt64` is the conversion
back; past the range of 64 bits it gives the least integer, as amd64 does. A number
is `Exact` if it survives both. Rounding keeps the sign, and below 2^53 it changes
nothing. -/
namespace Wjetcd.Float64

/-- The significand of `n` at exponent `e`, rounded. -/
def significand (n e : Nat) : Nat :=
  let q := n / 2 ^ e
  let r := n % 2 ^ e
  if 2 * r > 2 ^ e ∨ (2 * r = 2 ^ e ∧ q % 2 = 1) then q + 1 else q

def roundNat (n : Nat) : Nat :=
  if n < 2 ^ 53 then n
  else
    let e := n.log2 - 52
    significand n e * 2 ^ e

def round (x : Int) : Int := if x < 0 then -(roundNat x.natAbs : Int) else roundNat x.natAbs

def toInt64 (x : Int) : Int := if -2 ^ 63 ≤ x ∧ x < 2 ^ 63 then x else -2 ^ 63

/-- An integer after a trip through a float. -/
def through (x : Int) : Int := toInt64 (round x)

def Exact (x : Int) : Prop := through x = x

instance (x : Int) : Decidable (Exact x) := inferInstanceAs (Decidable (through x = x))

theorem roundNat_small {n : Nat} (h : n < 2 ^ 53) : roundNat n = n := if_pos h

theorem round_small {x : Int} (hl : -2 ^ 53 < x) (hu : x < 2 ^ 53) : round x = x := by
  have hn : x.natAbs < 2 ^ 53 := by omega
  unfold round
  rw [roundNat_small hn]
  split <;> omega

/-- A number of at least 53 bits keeps 53 of them. -/
theorem le_roundNat {n : Nat} (h : 2 ^ 53 ≤ n) : 2 ^ 53 ≤ roundNat n := by
  have hn : n ≠ 0 := by omega
  have hlog : 53 ≤ n.log2 := (Nat.le_log2 hn).mpr h
  obtain ⟨e, he⟩ : ∃ e, n.log2 = 52 + (e + 1) := ⟨n.log2 - 53, by omega⟩
  have hexp : n.log2 - 52 = e + 1 := by omega
  have hpos : 0 < 2 ^ e := Nat.pow_pos (by decide)
  -- the significand keeps its leading bit
  have hq : 2 ^ 52 ≤ n / 2 ^ (e + 1) := by
    rw [Nat.le_div_iff_mul_le (Nat.pow_pos (by decide)), ← Nat.pow_add, ← he]
    exact Nat.log2_self_le hn
  have hs : 2 ^ 52 ≤ significand n (e + 1) := by
    unfold significand
    dsimp only
    split
    · exact Nat.le_trans hq (Nat.le_succ _)
    · exact hq
  have htwo : 2 ≤ 2 ^ (e + 1) := by
    rw [Nat.pow_succ]
    omega
  have hround : roundNat n = significand n (e + 1) * 2 ^ (e + 1) := by
    unfold roundNat
    rw [if_neg (by omega), hexp]
  rw [hround]
  exact Nat.mul_le_mul hs htwo

theorem round_nonpos {x : Int} (h : x ≤ 0) : round x ≤ 0 := by
  unfold round
  split
  · omega
  · have hx : x = 0 := by omega
    subst hx
    decide

theorem through_nonpos {x : Int} (h : x ≤ 0) : through x ≤ 0 := by
  have := round_nonpos h
  unfold through toInt64
  split <;> omega

/-- Small numbers are exact. -/
theorem exact_small {x : Int} (hl : -2 ^ 53 < x) (hu : x < 2 ^ 53) : Exact x := by
  unfold Exact through toInt64
  rw [round_small hl hu, if_pos (by constructor <;> omega)]

/-- No large number becomes a small one that is not negative. -/
theorem through_large {x : Int} (h : x < -2 ^ 53 + 1 ∨ 2 ^ 53 - 1 < x) :
    through x < 0 ∨ 2 ^ 53 ≤ through x := by
  have hn : 2 ^ 53 ≤ x.natAbs := by omega
  have hr := le_roundNat hn
  have hround : round x < 0 ∨ 2 ^ 53 ≤ round x := by
    unfold round
    split
    · exact Or.inl (by omega)
    · exact Or.inr (by omega)
  unfold through toInt64
  split
  · exact hround
  · exact Or.inl (by decide)

/-! ### Twice -/

/-- A number with a significand of 53 bits stays as it is. -/
theorem roundNat_mul_pow {s : Nat} (hs : s ≤ 2 ^ 53) (e : Nat) : roundNat (s * 2 ^ e) = s * 2 ^ e := by
  unfold roundNat
  split
  · rfl
  · rename_i hlarge
    have hpos : s * 2 ^ e ≠ 0 := by omega
    have hlog := Nat.log2_self_le hpos
    -- the exponent it gets divides it
    have hdvd : 2 ^ ((s * 2 ^ e).log2 - 52) ∣ s * 2 ^ e := by
      rcases Nat.lt_or_eq_of_le hs with hlt | rfl
      · have hbound : (s * 2 ^ e).log2 < 53 + e := by
          rw [Nat.log2_lt hpos, Nat.pow_add]
          exact Nat.mul_lt_mul_of_pos_right hlt (Nat.pow_pos (by decide))
        exact Dvd.dvd.mul_left (Nat.pow_dvd_pow 2 (by omega)) s
      · rw [← Nat.pow_add] at hlog ⊢
        rw [Nat.log2_two_pow]
        exact Nat.pow_dvd_pow 2 (by omega)
    have hzero := Nat.mod_eq_zero_of_dvd hdvd
    have hunit : 0 < 2 ^ ((s * 2 ^ e).log2 - 52) := Nat.pow_pos (by decide)
    unfold significand
    dsimp only
    rw [hzero, if_neg (by omega), Nat.div_mul_cancel hdvd]

theorem significand_le {n e : Nat} (h : n < 2 ^ (53 + e)) : significand n e ≤ 2 ^ 53 := by
  have hq : n / 2 ^ e < 2 ^ 53 := by
    rw [Nat.div_lt_iff_lt_mul (Nat.pow_pos (by decide)), ← Nat.pow_add]
    exact h
  unfold significand
  dsimp only
  split <;> omega

theorem roundNat_roundNat (n : Nat) : roundNat (roundNat n) = roundNat n := by
  by_cases hsmall : n < 2 ^ 53
  · rw [roundNat_small hsmall, roundNat_small hsmall]
  · have hround : roundNat n = significand n (n.log2 - 52) * 2 ^ (n.log2 - 52) := if_neg hsmall
    rw [hround]
    refine roundNat_mul_pow (significand_le ?_) _
    have hlog : 53 ≤ n.log2 := (Nat.le_log2 (by omega)).mpr (not_lt.mp hsmall)
    rw [show 53 + (n.log2 - 52) = n.log2 + 1 by omega]
    exact Nat.lt_log2_self

theorem round_round (x : Int) : round (round x) = round x := by
  unfold round
  by_cases hneg : x < 0
  · rw [if_pos hneg, Int.natAbs_neg, Int.natAbs_natCast, roundNat_roundNat]
    split
    · rfl
    · omega
  · rw [if_neg hneg, Int.natAbs_natCast, roundNat_roundNat, if_neg (by omega)]

/-- **A second trip changes nothing.** -/
theorem through_through (x : Int) : through (through x) = through x := by
  unfold through toInt64
  by_cases hrange : -2 ^ 63 ≤ round x ∧ round x < 2 ^ 63
  · rw [if_pos hrange, round_round, if_pos hrange]
  · rw [if_neg hrange]
    decide

end Wjetcd.Float64
