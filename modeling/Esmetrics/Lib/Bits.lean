import Esmetrics.Lib.FixedWidth

/-!
# Bits of a machine word

The bits of a 64-bit word under the bitwise operations, and the number of trailing zeros.
-/

namespace Esmetrics

/-- Bit `i` of a word. -/
def testBit (w : UInt64) (i : ℕ) : Bool := w.toNat.testBit i

/-- The word with bit `i` only. -/
def bitMask (i : ℕ) : UInt64 := 1 <<< UInt64.ofNat i

@[simp]
theorem testBit_zero (i : ℕ) : testBit 0 i = false := by
  simp [testBit]

@[simp]
theorem testBit_and (v w : UInt64) (i : ℕ) :
    testBit (v &&& w) i = (testBit v i && testBit w i) := by
  simp [testBit]

variable {i : ℕ}

theorem testBit_of_ge {w : UInt64} (h : 64 ≤ i) : testBit w i = false :=
  Nat.testBit_lt_two_pow (lt_of_lt_of_le w.toNat_lt (Nat.pow_le_pow_right (by omega) h))

theorem testBit_not {w : UInt64} (h : i < 64) : testBit (~~~w) i = !testBit w i := by
  have hsub : UInt64.size - 1 - w.toNat = 2 ^ 64 - (w.toNat + 1) := by
    simp only [UInt64.size]
    omega
  rw [testBit, testBit, UInt64.toNat_not, hsub, Nat.testBit_two_pow_sub_succ w.toNat_lt]
  simp [h]

theorem toNat_bitMask (h : i < 64) : (bitMask i).toNat = 2 ^ i := by
  rw [bitMask, UInt64.toNat_shiftLeft, UInt64.toNat_ofNat',
    Nat.mod_eq_of_lt (show i < 2 ^ 64 by omega), Nat.mod_eq_of_lt h, Nat.shiftLeft_eq]
  have hlt : 2 ^ i < 2 ^ 64 := Nat.pow_lt_pow_right (by omega) h
  rw [UInt64.toNat_one, Nat.one_mul, Nat.mod_eq_of_lt hlt]

theorem testBit_bitMask (h : i < 64) (j : ℕ) : testBit (bitMask i) j = decide (i = j) := by
  rw [testBit, toNat_bitMask h, Nat.testBit_two_pow]

/-- Words with the same bits are equal. -/
theorem eq_of_testBit {v w : UInt64} (h : ∀ i < 64, testBit v i = testBit w i) : v = w := by
  apply UInt64.toNat_inj.mp
  apply Nat.eq_of_testBit_eq
  intro i
  rcases Nat.lt_or_ge i 64 with hi | hi
  · exact h i hi
  · exact (testBit_of_ge hi).trans (testBit_of_ge hi).symm

/-- The test of one bit with a mask. -/
theorem and_bitMask_eq_zero_iff {w : UInt64} (h : i < 64) :
    w &&& bitMask i = 0 ↔ testBit w i = false := by
  refine ⟨fun hzero => ?_, fun hbit => eq_of_testBit fun j _ => ?_⟩
  · have := congrArg (testBit · i) hzero
    simpa [testBit_bitMask h] using this
  · rw [testBit_and, testBit_bitMask h, testBit_zero]
    by_cases hij : i = j
    · subst hij
      rw [hbit, Bool.false_and]
    · simp [hij]

/-- The number of trailing zero bits. -/
def trailingZeros (w : UInt64) : ℕ := ((List.range 64).find? fun i => testBit w i).getD 64

end Esmetrics
