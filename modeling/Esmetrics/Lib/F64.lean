import Mathlib.Data.Int.Log
import Mathlib.Data.Rat.Floor
import Mathlib.Tactic.Linarith
import Mathlib.Tactic.NormNum

/-!
# Nonnegative binary64 numbers

The part of the arithmetic of `f64` that heuristics over sizes use: conversions from unsigned
integers, division, multiplication, comparison and the conversion back. A finite value is the
rational number it stands for, rounded to a significand of 53 bits with ties to even. Values are
nonnegative and stay in the normal range, so there is neither a sign nor a subnormal number.
-/

namespace Esmetrics

/-- Rounds to the nearest integer, ties to even. -/
def roundHalfEven (q : ℚ) : ℤ :=
  let f := ⌊q⌋
  if q - f < 1 / 2 then f
  else if 1 / 2 < q - f then f + 1
  else if f % 2 = 0 then f
  else f + 1

/-- The nearest number with a significand of 53 bits. -/
def roundF64 (q : ℚ) : ℚ :=
  if q = 0 then 0
  else
    let ulp : ℚ := 2 ^ (Int.log 2 q - 52)
    roundHalfEven (q / ulp) * ulp

/-- A nonnegative `f64`. -/
inductive F64 where
  | fin (q : ℚ)
  | inf
  | nan
  deriving DecidableEq

namespace F64

/-- The literal or the converted integer `q`. -/
def ofRat (q : ℚ) : F64 := .fin (roundF64 q)

/-- The operator `/`. -/
def div : F64 → F64 → F64
  | .fin a, .fin b =>
    if b = 0 then (if a = 0 then .nan else .inf) else .fin (roundF64 (a / b))
  | .fin _, .inf => .fin 0
  | .inf, .fin _ => .inf
  | _, _ => .nan

/-- The operator `*`. -/
def mul : F64 → F64 → F64
  | .fin a, .fin b => .fin (roundF64 (a * b))
  | .fin a, .inf => if a = 0 then .nan else .inf
  | .inf, .fin b => if b = 0 then .nan else .inf
  | .inf, .inf => .inf
  | _, _ => .nan

/-- The operator `<`, which is false for NaN. -/
def lt : F64 → F64 → Bool
  | .fin a, .fin b => decide (a < b)
  | .fin _, .inf => true
  | _, _ => false

/-- The function `f64::max`, which ignores NaN. -/
def max (x y : F64) : F64 :=
  match x, y with
  | .nan, y => y
  | x, .nan => x
  | x, y => if lt x y then y else x

/-- The conversion `as u64`: towards zero, and saturating. -/
def toU64 : F64 → ℕ
  | .fin q => min ⌊q⌋.toNat (2 ^ 64 - 1)
  | .inf => 2 ^ 64 - 1
  | .nan => 0

end F64

theorem floor_le_roundHalfEven (q : ℚ) : ⌊q⌋ ≤ roundHalfEven q := by
  simp only [roundHalfEven]
  split_ifs <;> omega

theorem roundHalfEven_le_floor_add_one (q : ℚ) : roundHalfEven q ≤ ⌊q⌋ + 1 := by
  simp only [roundHalfEven]
  split_ifs <;> omega

/-- The significand of a positive number is at least one. -/
theorem one_le_div_ulp {q : ℚ} (hq : 0 < q) : 1 ≤ q / 2 ^ (Int.log 2 q - 52) := by
  have hulp : (0 : ℚ) < 2 ^ (Int.log 2 q - 52) := zpow_pos (by norm_num) _
  rw [le_div_iff₀ hulp, one_mul]
  calc (2 : ℚ) ^ (Int.log 2 q - 52) ≤ 2 ^ Int.log 2 q :=
        zpow_le_zpow_right₀ (by norm_num) (by omega)
    _ ≤ q := Int.zpow_log_le_self (by norm_num) hq

theorem roundF64_pos {q : ℚ} (hq : 0 < q) : 0 < roundF64 q := by
  have hulp : (0 : ℚ) < 2 ^ (Int.log 2 q - 52) := zpow_pos (by norm_num) _
  have hfloor : 1 ≤ ⌊q / 2 ^ (Int.log 2 q - 52)⌋ :=
    Int.le_floor.mpr (by exact_mod_cast one_le_div_ulp hq)
  have hround : 1 ≤ roundHalfEven (q / 2 ^ (Int.log 2 q - 52)) :=
    hfloor.trans (floor_le_roundHalfEven _)
  rw [roundF64, if_neg hq.ne']
  exact mul_pos (by exact_mod_cast hround) hulp

/-- Rounding changes a number by less than a factor of two. -/
theorem half_le_roundF64_le_two {q : ℚ} (hq : 0 < q) : q / 2 ≤ roundF64 q ∧ roundF64 q ≤ 2 * q := by
  have hulp : (0 : ℚ) < 2 ^ (Int.log 2 q - 52) := zpow_pos (by norm_num) _
  have hone := one_le_div_ulp hq
  have hq' : q = q / 2 ^ (Int.log 2 q - 52) * 2 ^ (Int.log 2 q - 52) :=
    (div_mul_cancel₀ q hulp.ne').symm
  simp only [roundF64, if_neg hq.ne']
  generalize q / 2 ^ (Int.log 2 q - 52) = x at hone hq' ⊢
  generalize (2 : ℚ) ^ (Int.log 2 q - 52) = ulp at hulp hq' ⊢
  have hfloor : (1 : ℚ) ≤ ⌊x⌋ := by exact_mod_cast Int.le_floor.mpr (by exact_mod_cast hone)
  have hlt := Int.lt_floor_add_one x
  have hle := Int.floor_le x
  have hround : (⌊x⌋ : ℚ) ≤ roundHalfEven x := by exact_mod_cast floor_le_roundHalfEven x
  have hround' : (roundHalfEven x : ℚ) ≤ ⌊x⌋ + 1 := by
    exact_mod_cast roundHalfEven_le_floor_add_one x
  rw [hq']
  constructor
  · rw [mul_comm x, mul_div_assoc, mul_comm ulp]
    exact mul_le_mul_of_nonneg_right (by linarith) hulp.le
  · rw [← mul_assoc]
    exact mul_le_mul_of_nonneg_right (by linarith) hulp.le

namespace F64

/-- A positive literal or integer is above zero. -/
theorem zero_lt_ofRat {q : ℚ} (hq : 0 < q) : lt (.fin 0) (ofRat q) = true :=
  decide_eq_true (roundF64_pos hq)

theorem zero_lt_max {x y : F64} (hx : lt (.fin 0) x = true) (hy : lt (.fin 0) y = true) :
    lt (.fin 0) (max x y) = true := by
  cases x <;> cases y <;> simp only [max] <;> try split_ifs
  all_goals assumption

end F64

end Esmetrics
