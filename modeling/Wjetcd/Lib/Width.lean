import Mathlib.Algebra.Group.Int.Defs
import Mathlib.Algebra.Group.Nat.Defs

/-! Integers of a machine word.

A function of machine integers is written once, over `Int`, with `wrap` around every result.
What that does is a `Width`: nothing by default, so that a theorem may count without bound
where that does not matter, and two's complement of 64 bits in a section that opens `Word64`.
There a result that fits is left as it is (`Word64.wrap_of_fits`). -/
namespace Wjetcd

class Width where
  /-- What a register keeps of a result. -/
  wrap : Int → Int

export Width (wrap)

/-- Registers without bound. -/
instance (priority := low) Width.unbounded : Width := ⟨fun i => i⟩

@[simp] theorem Width.wrap_unbounded (i : Int) : Width.unbounded.wrap i = i := (rfl)

namespace Word64

scoped instance width : Width := ⟨fun i => i.bmod (2 ^ 64)⟩

/-- The value of a register. -/
def Fits (i : Int) : Prop := -2 ^ 63 ≤ i ∧ i < 2 ^ 63

instance (i : Int) : Decidable (Fits i) := inferInstanceAs (Decidable (_ ∧ _))

theorem wrap_of_fits {i : Int} (h : Fits i) : wrap i = i := by
  obtain ⟨hlow, hhigh⟩ := h
  show i.bmod (2 ^ 64) = i
  rw [Int.bmod_def]
  split <;> omega

end Word64
end Wjetcd
