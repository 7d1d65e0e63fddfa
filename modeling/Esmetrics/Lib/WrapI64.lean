import Mathlib.Algebra.Group.Int.Defs
import Mathlib.Algebra.Group.Nat.Defs
import Mathlib.Tactic.Common

/-!
# Integers of 64 bits

The arithmetic of `i64` in a release build: a result that does not fit wraps around. It is the exact
one if and only if that is a number of `i64` (`wrapI64_eq_self_iff`).
-/

namespace Esmetrics

/-- A difference of `i64` numbers wraps. -/
def wrapI64 (n : ℤ) : ℤ := n.bmod (2 ^ 64)

/-- The number is one of `i64`. -/
def IsI64 (n : ℤ) : Prop := -(2 ^ 63) ≤ n ∧ n < 2 ^ 63

instance (n : ℤ) : Decidable (IsI64 n) := inferInstanceAs (Decidable (_ ∧ _))

theorem wrapI64_of_isI64 {n : ℤ} (h : IsI64 n) : wrapI64 n = n :=
  Int.bmod_eq_of_le (by have := h.1; omega) (by have := h.2; omega)

theorem isI64_wrapI64 (n : ℤ) : IsI64 (wrapI64 n) :=
  ⟨Int.le_bmod (by decide), Int.bmod_lt (by decide)⟩

/-- **A result is exact if and only if it fits.** -/
theorem wrapI64_eq_self_iff {n : ℤ} : wrapI64 n = n ↔ IsI64 n :=
  ⟨fun h => h ▸ isI64_wrapI64 n, wrapI64_of_isI64⟩

end Esmetrics
