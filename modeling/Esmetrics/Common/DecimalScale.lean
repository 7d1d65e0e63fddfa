import Esmetrics.Common.Decimal
import Esmetrics.Lib.FixedWidth
import Mathlib.Algebra.Order.Field.Power
import Mathlib.Data.Rat.Floor
import Mathlib.Tactic.Linarith
import Mathlib.Tactic.Positivity
import Mathlib.Tactic.Push

/-!
# Scaling decimal values

What `esm-common/src/decimal.rs` promises of a value that is moved to another exponent is
`Rescaled`: special values stay as they are, a regular value stays regular, and it is exact at a
lower exponent and truncated toward zero at a higher one. Going down is limited by the head-room of
a value (`mul_pow_le_iff_maxUpExponent`); zeros and special values have an artificial one of 1024.

The loops of `calibrate_scale` work in wrapping arithmetic on `i16` exponents and `i64` values. For
exponents at most 1024 apart none of it wraps, and both lists are rescaled to the exponent that is
returned (`calibrateScale_spec`).
-/

namespace Esmetrics

open List

/-! ### The head-room of a value -/

variable {v : Int64}

/-- The values that stand for themselves. -/
theorem isSpecialValue_eq_false_iff :
    isSpecialValue v = false ↔ -(2 ^ 63 - 1) ≤ v.toInt ∧ v.toInt ≤ 2 ^ 63 - 3 := by
  have hmin : vMin.toInt = -(2 ^ 63 - 1) := by decide
  have hmax : vMax.toInt = 2 ^ 63 - 3 := by decide
  rw [isSpecialValue, Bool.not_eq_false', Bool.and_eq_true, decide_eq_true_iff, decide_eq_true_iff,
    Int64.le_iff_toInt_le, Int64.le_iff_toInt_le, hmin, hmax]

theorem toInt_decimalMultiplier {e : ℕ} (he : e ≤ 18) :
    (decimalMultipliers.getD e 1).toInt = 10 ^ e := by
  have hall : ∀ e : Fin 19, (decimalMultipliers.getD e 1).toInt = 10 ^ (e : ℕ) := by decide
  exact hall ⟨e, by omega⟩

theorem toInt_maxValue_div {e : ℕ} (he : e ≤ 18) :
    (Int64.maxValue / decimalMultipliers.getD e 1).toInt = (2 ^ 63 - 1) / 10 ^ e := by
  have hall : ∀ e : Fin 19,
      (Int64.maxValue / decimalMultipliers.getD e 1).toInt = (2 ^ 63 - 1) / 10 ^ (e : ℕ) := by
    decide
  exact hall ⟨e, by omega⟩

/-- The search from `m` downwards finds the greatest number that passes a test. -/
theorem find?_reverse_range' {p : ℕ → Bool} {m : ℕ} :
    (∀ e, (List.range' 1 m).reverse.find? p = some e →
      e ≤ m ∧ p e ∧ ∀ j, e < j → j ≤ m → ¬ p j) ∧
    ((List.range' 1 m).reverse.find? p = none → ∀ j, 1 ≤ j → j ≤ m → ¬ p j) := by
  induction m with
  | zero => exact ⟨by simp, fun _ j hj hj' => by omega⟩
  | succ m ih =>
    rw [range'_concat, reverse_append, reverse_singleton, singleton_append,
      Nat.one_mul, Nat.add_comm 1 m]
    constructor
    · intro e he
      rw [find?_cons] at he
      split at he
      · next hp =>
        obtain rfl := Option.some.inj he
        exact ⟨le_rfl, hp, fun j hj hj' => by omega⟩
      · next hp =>
        obtain ⟨hle, hpe, hgt⟩ := ih.1 e he
        refine ⟨by omega, hpe, fun j hj hj' => ?_⟩
        rcases Nat.lt_or_ge m j with hlt | hge
        · obtain rfl : j = m + 1 := by omega
          simp [hp]
        · exact hgt j hj hge
    · intro hnone j hj hj'
      rw [find?_cons] at hnone
      split at hnone
      · cases hnone
      · next hp =>
        rcases Nat.lt_or_ge m j with hlt | hge
        · obtain rfl : j = m + 1 := by omega
          simp [hp]
        · exact ih.2 hnone j hj hge

/-- The absolute value, which a regular value has. -/
theorem toInt_abs (hv : isSpecialValue v = false) :
    (if v < 0 then -v else v).toInt = |v.toInt| := by
  obtain ⟨hlo, hhi⟩ := isSpecialValue_eq_false_iff.mp hv
  have hzero : (0 : Int64).toInt = 0 := rfl
  split_ifs with hneg
  · have hlt := Int64.lt_iff_toInt_lt.mp hneg
    rw [Int64.toInt_neg, Int.bmod_eq_of_le (by omega) (by omega), abs_of_neg (by omega)]
  · have hge := Int64.le_iff_toInt_le.mp (Int64.not_lt.mp hneg)
    rw [abs_of_nonneg (by omega)]

/-- A regular value that is not zero can be multiplied by the powers of ten up to its head-room
without overflow, and by no others. -/
theorem mul_pow_le_iff_maxUpExponent (hv : isSpecialValue v = false) (h0 : v ≠ 0) (k : ℕ) :
    |v.toInt| * 10 ^ k ≤ 2 ^ 63 - 1 ↔ (k : ℤ) ≤ (maxUpExponent v).toInt := by
  obtain ⟨hlo, hhi⟩ := isSpecialValue_eq_false_iff.mp hv
  have habs := toInt_abs hv
  have hpos : 1 ≤ |v.toInt| :=
    Int.one_le_abs fun h => h0 (Int64.toInt_inj.mp (by rw [h]; rfl))
  have hle : |v.toInt| ≤ 2 ^ 63 - 1 := by
    rw [abs_le]
    omega
  generalize hx : (if v < 0 then -v else v) = x at habs
  have hnonneg : ¬ x < 0 := by
    rw [Int64.lt_iff_toInt_lt, habs]
    exact not_lt.mpr (abs_nonneg _)
  have htest : ∀ e ≤ 18, decide (x ≤ Int64.maxValue / decimalMultipliers.getD e 1) = true ↔
      |v.toInt| * 10 ^ e ≤ 2 ^ 63 - 1 := fun e he => by
    rw [decide_eq_true_iff, Int64.le_iff_toInt_le, toInt_maxValue_div he, habs,
      Int.le_ediv_iff_mul_le (by positivity)]
  have hbig : 19 ≤ k → ¬ |v.toInt| * 10 ^ k ≤ 2 ^ 63 - 1 := fun hk hcon => by
    have hpow : (10 : ℤ) ^ 19 ≤ 10 ^ k := pow_le_pow_right₀ (by norm_num) hk
    have hmul : (10 : ℤ) ^ k ≤ |v.toInt| * 10 ^ k :=
      le_mul_of_one_le_left (by positivity) hpos
    omega
  have hmono : ∀ e, k ≤ e → |v.toInt| * 10 ^ e ≤ 2 ^ 63 - 1 → |v.toInt| * 10 ^ k ≤ 2 ^ 63 - 1 :=
    fun e hke hfit => (mul_le_mul_of_nonneg_left (pow_le_pow_right₀ (by norm_num) hke)
      (abs_nonneg _)).trans hfit
  obtain ⟨hsome, hnone⟩ := find?_reverse_range'
    (p := fun e => decide (x ≤ Int64.maxValue / decimalMultipliers.getD e 1)) (m := 18)
  rw [maxUpExponent, hv, if_neg (by simpa using h0)]
  simp only [hx, if_neg hnonneg]
  cases hfind : (List.range' 1 18).reverse.find? fun e =>
      decide (x ≤ Int64.maxValue / decimalMultipliers.getD e 1) with
  | some e =>
    obtain ⟨he, hpe, hgt⟩ := hsome e hfind
    simp only
    rw [Int16.toInt_ofNat_of_lt (by omega)]
    constructor
    · intro hfit
      by_contra hlt
      rcases Nat.lt_or_ge 18 k with hk | hk
      · exact hbig (by omega) hfit
      · exact hgt k (by omega) hk ((htest k hk).mpr hfit)
    · intro hke
      exact hmono e (by omega) ((htest e he).mp hpe)
  | none =>
    simp only
    constructor
    · intro hfit
      by_contra hlt
      have hzero : (0 : Int16).toInt = 0 := rfl
      rcases Nat.lt_or_ge 18 k with hk | hk
      · exact hbig (by omega) hfit
      · exact hnone hfind k (by omega) hk ((htest k hk).mpr hfit)
    · intro hke
      have hzero : (0 : Int16).toInt = 0 := rfl
      obtain rfl : k = 0 := by omega
      simpa using hle

/-- A value that is not zero has room for at most 18 digits. -/
theorem maxUpExponent_le (hv : isSpecialValue v = false) (h0 : v ≠ 0) :
    0 ≤ (maxUpExponent v).toInt ∧ (maxUpExponent v).toInt ≤ 18 := by
  have hiff := mul_pow_le_iff_maxUpExponent hv h0
  obtain ⟨hlo, hhi⟩ := isSpecialValue_eq_false_iff.mp hv
  have hpos : 1 ≤ |v.toInt| :=
    Int.one_le_abs fun h => h0 (Int64.toInt_inj.mp (by rw [h]; rfl))
  have hle : |v.toInt| ≤ 2 ^ 63 - 1 := abs_le.mpr (by omega)
  have hzero := (hiff 0).mp (by simpa using hle)
  have htop := mt (hiff 19).mpr (by omega)
  omega

/-- A zero and a special value may be scaled as far as the exponents reach in practice. -/
theorem maxUpExponent_of_free (h : v = 0 ∨ isSpecialValue v = true) :
    (maxUpExponent v).toInt = 1024 := by
  rw [maxUpExponent, if_pos (by simpa using h)]
  rfl

theorem maxUpExponent_bounds (v : Int64) :
    0 ≤ (maxUpExponent v).toInt ∧ (maxUpExponent v).toInt ≤ 1024 := by
  by_cases h : v = 0 ∨ isSpecialValue v = true
  · rw [maxUpExponent_of_free h]
    decide
  · obtain ⟨h0, hv⟩ := not_or.mp h
    have := maxUpExponent_le (by simpa using hv) h0
    omega

/-! ### Truncation -/

/-- Rounds toward zero. -/
def truncate (q : ℚ) : ℤ := if 0 ≤ q then ⌊q⌋ else ⌈q⌉

/-- The division of machine integers truncates. -/
theorem truncate_mul_zpow (v : ℤ) (k : ℕ) :
    truncate (v * (10 : ℚ) ^ (-(k : ℤ))) = v.tdiv (10 ^ k) := by
  have hdiv : ∀ w : ℤ, (w : ℚ) * (10 : ℚ) ^ (-(k : ℤ)) = w / ((10 ^ k : ℕ) : ℚ) := fun w => by
    rw [zpow_neg, zpow_natCast, div_eq_mul_inv]
    norm_num
  have hfloor : ∀ w : ℤ, ⌊(w : ℚ) / ((10 ^ k : ℕ) : ℚ)⌋ = w / 10 ^ k := fun w => by
    rw [Rat.floor_intCast_div_natCast]
    norm_num
  rw [hdiv, truncate]
  have hden : (0 : ℚ) < ((10 ^ k : ℕ) : ℚ) := by positivity
  rcases le_or_gt 0 v with hv | hv
  · rw [if_pos (div_nonneg (by exact_mod_cast hv) hden.le), hfloor, Int.tdiv_eq_ediv_of_nonneg hv]
  · have hneg : ¬ (0 : ℚ) ≤ v / ((10 ^ k : ℕ) : ℚ) :=
      not_le.mpr (div_neg_of_neg_of_pos (by exact_mod_cast hv) hden)
    have hflip : (v : ℚ) / ((10 ^ k : ℕ) : ℚ) = -(((-v : ℤ) : ℚ) / ((10 ^ k : ℕ) : ℚ)) := by
      push_cast
      ring
    rw [if_neg hneg, hflip, Int.ceil_neg, hfloor, ← Int.tdiv_eq_ediv_of_nonneg (by omega),
      Int.neg_tdiv, neg_neg]

/-- More than 18 digits are all the digits there are. -/
theorem tdiv_pow_eq_zero (v : Int64) {k : ℕ} (hk : 19 ≤ k) : v.toInt.tdiv (10 ^ k) = 0 := by
  have hpow : (10 : ℤ) ^ 19 ≤ 10 ^ k := pow_le_pow_right₀ (by norm_num) hk
  have hlo := v.le_toInt
  have hhi := v.toInt_lt
  rcases le_or_gt 0 v.toInt with hv | hv
  · exact Int.tdiv_eq_zero_of_lt hv (by omega)
  · have hneg := Int.tdiv_eq_zero_of_lt (show 0 ≤ -v.toInt by omega)
      (show -v.toInt < 10 ^ k by omega)
    rw [Int.neg_tdiv] at hneg
    omega

/-- Dividing again truncates as dividing once does. -/
theorem tdiv_tdiv_of_nonneg (v n : ℤ) {m : ℤ} (hm : 0 ≤ m) :
    (v.tdiv m).tdiv n = v.tdiv (m * n) := by
  have hpos : ∀ w : ℤ, 0 ≤ w → (w.tdiv m).tdiv n = w.tdiv (m * n) := fun w hw => by
    rw [Int.tdiv_eq_ediv_of_nonneg hw, Int.tdiv_eq_ediv_of_nonneg (Int.ediv_nonneg hw hm),
      Int.tdiv_eq_ediv_of_nonneg hw, Int.ediv_ediv_of_nonneg hm]
  rcases le_or_gt 0 v with hv | hv
  · exact hpos v hv
  · have hneg := hpos (-v) (by omega)
    rw [Int.neg_tdiv, Int.neg_tdiv, Int.neg_tdiv] at hneg
    exact neg_injective hneg

/-! ### Moving a value to another exponent -/

/-- `v'` is what `v` with exponent `ve` becomes at exponent `e`: special values stay as they are,
and the others stay regular, are exact at a lower exponent and truncated at a higher one. -/
structure Rescaled (ve e : ℤ) (v v' : Int64) : Prop where
  special : isSpecialValue v = true → v' = v
  regular : isSpecialValue v = false → isSpecialValue v' = false
  exact : isSpecialValue v = false → e ≤ ve →
    (v'.toInt : ℚ) * (10 : ℚ) ^ e = v.toInt * (10 : ℚ) ^ ve
  truncated : isSpecialValue v = false → ve < e →
    v'.toInt = truncate (v.toInt * (10 : ℚ) ^ (ve - e))

theorem rescaled_of_special {ve e : ℤ} (h : isSpecialValue v = true) :
    Rescaled ve e v v :=
  ⟨fun _ => rfl, fun hv => absurd h (by simp [hv]), fun hv => absurd h (by simp [hv]),
    fun hv => absurd h (by simp [hv])⟩

/-- A product that does not overflow is exact; being a multiple of ten, it is no special value. -/
theorem rescaled_mul {v' : Int64} {e : ℤ} {k : ℕ} (hv : isSpecialValue v = false)
    (hfit : |v.toInt| * 10 ^ k ≤ 2 ^ 63 - 1) (hv' : v'.toInt = v.toInt * 10 ^ k) :
    Rescaled (e + k) e v v' := by
  refine ⟨fun h => absurd h (by simp [hv]), fun _ => ?_, fun _ _ => ?_, fun _ hlt => ?_⟩
  · rcases Nat.eq_zero_or_pos k with rfl | hk
    · have hsame : v' = v := Int64.toInt_inj.mp (by simpa using hv')
      rwa [hsame]
    · obtain ⟨j, rfl⟩ := Nat.exists_eq_add_of_lt hk
      rw [Nat.zero_add, pow_succ, ← mul_assoc] at hfit hv'
      have habs : |v.toInt| * 10 ^ j = |v.toInt * 10 ^ j| := by
        rw [abs_mul, abs_of_nonneg (a := (10 : ℤ) ^ j) (by positivity)]
      rw [habs] at hfit
      generalize v.toInt * 10 ^ j = w at hfit hv'
      have hw : |w| ≤ 922337203685477580 := by omega
      obtain ⟨hlo, hhi⟩ := abs_le.mp hw
      rw [isSpecialValue_eq_false_iff, hv']
      omega
  · rw [hv', zpow_add₀ (by norm_num), zpow_natCast]
    push_cast
    ring
  · omega

/-- A quotient is truncated. -/
theorem rescaled_tdiv {v' : Int64} {ve : ℤ} {k : ℕ} (hv : isSpecialValue v = false)
    (hv' : v'.toInt = v.toInt.tdiv (10 ^ k)) : Rescaled ve (ve + k) v v' := by
  refine ⟨fun h => absurd h (by simp [hv]), fun _ => ?_, fun _ hle => ?_, fun _ _ => ?_⟩
  · have habs : |v'.toInt| ≤ |v.toInt| := by
      rw [hv', Int.abs_eq_natAbs, Int.abs_eq_natAbs, Int.natAbs_tdiv]
      exact_mod_cast Nat.div_le_self _ _
    obtain ⟨hlo, hhi⟩ := isSpecialValue_eq_false_iff.mp hv
    rw [isSpecialValue_eq_false_iff]
    rcases le_or_gt 0 v.toInt with hpos | hneg
    · rw [abs_of_nonneg hpos, abs_le] at habs
      omega
    · have hle : v'.toInt ≤ 0 := by
        have hflip := Int.tdiv_nonneg (show 0 ≤ -v.toInt by omega)
          (show 0 ≤ (10 : ℤ) ^ k by positivity)
        rw [Int.neg_tdiv] at hflip
        omega
      rw [abs_of_neg hneg, abs_le] at habs
      omega
  · obtain rfl : k = 0 := by omega
    simp [hv']
  · rw [hv', ← truncate_mul_zpow]
    congr 3
    omega

/-! ### Calibrating two lists -/

/-- The loop that finds the greatest of some numbers, if they are above the start. -/
theorem foldl_max_spec {α : Type} (f : α → Int16) (l : List α) (d : Int16) :
    let r := l.foldl (fun d x => if f x > d then f x else d) d
    d.toInt ≤ r.toInt ∧ (∀ x ∈ l, (f x).toInt ≤ r.toInt) ∧ (r = d ∨ ∃ x ∈ l, r = f x) := by
  induction l generalizing d with
  | nil => simp
  | cons x l ih =>
    rw [foldl_cons]
    obtain ⟨hle, hall, hone⟩ := ih (if f x > d then f x else d)
    have hd : d.toInt ≤ (if f x > d then f x else d).toInt ∧
        (f x).toInt ≤ (if f x > d then f x else d).toInt := by
      split_ifs with hlt
      · exact ⟨(Int16.lt_iff_toInt_lt.mp hlt).le, le_rfl⟩
      · exact ⟨le_rfl, Int16.le_iff_toInt_le.mp (Int16.not_lt.mp hlt)⟩
    refine ⟨hd.1.trans hle, fun y hy => ?_, ?_⟩
    · rcases mem_cons.mp hy with rfl | hy
      · exact hd.2.trans hle
      · exact hall y hy
    · have hstart : (if f x > d then f x else d) = f x ∨ (if f x > d then f x else d) = d := by
        split_ifs <;> simp
      rcases hone with h | ⟨y, hy, h⟩
      · rcases hstart with h' | h'
        · exact .inr ⟨x, mem_cons_self, h.trans h'⟩
        · exact .inl (h.trans h')
      · exact .inr ⟨y, mem_cons_of_mem _ hy, h⟩

theorem toInt_sub16 {a b : Int16} (hlo : -2 ^ 15 ≤ a.toInt - b.toInt)
    (hhi : a.toInt - b.toInt < 2 ^ 15) : (a - b).toInt = a.toInt - b.toInt := by
  rw [Int16.toInt_sub]
  exact Int.bmod_eq_of_le (by omega) (by omega)

theorem toInt_add16 {a b : Int16} (hlo : -2 ^ 15 ≤ a.toInt + b.toInt)
    (hhi : a.toInt + b.toInt < 2 ^ 15) : (a + b).toInt = a.toInt + b.toInt := by
  rw [Int16.toInt_add]
  exact Int.bmod_eq_of_le (by omega) (by omega)

/-- What is left of the difference of the exponents when every value has used its head-room. -/
theorem downExponent_spec {upExp : Int16} {values : List Int64} (hlo : 0 ≤ upExp.toInt)
    (hhi : upExp.toInt ≤ 1024) :
    0 ≤ (downExponent upExp values).toInt ∧ (downExponent upExp values).toInt ≤ upExp.toInt ∧
      ∀ v ∈ values, upExp.toInt - (maxUpExponent v).toInt ≤ (downExponent upExp values).toInt := by
  have hsub : ∀ v, (upExp - maxUpExponent v).toInt = upExp.toInt - (maxUpExponent v).toInt :=
    fun v => by
      obtain ⟨h0, h1⟩ := maxUpExponent_bounds v
      exact toInt_sub16 (by omega) (by omega)
  obtain ⟨hle, hall, hone⟩ := foldl_max_spec (fun v => upExp - maxUpExponent v) values 0
  have hfold : values.foldl (fun d v => if upExp - maxUpExponent v > d then upExp - maxUpExponent v
      else d) 0 = downExponent upExp values := rfl
  rw [hfold] at hle hall hone
  refine ⟨hle, ?_, fun v hv => hsub v ▸ hall v hv⟩
  rcases hone with h | ⟨v, -, h⟩
  · rw [h]
    exact hlo
  · have hroom := (maxUpExponent_bounds v).1
    rw [h, hsub]
    omega

/-- A scaling that leaves special values alone is judged by what it does to the others. -/
theorem forall₂_rescaled {ve e : ℤ} {f : Int64 → Int64} {l : List Int64}
    (h : ∀ v ∈ l, isSpecialValue v = false → Rescaled ve e v (f v)) :
    List.Forall₂ (Rescaled ve e) l (l.map fun v => if isSpecialValue v then v else f v) := by
  rw [forall₂_map_right_iff, forall₂_same]
  intro v hv
  cases hs : isSpecialValue v with
  | true => exact rescaled_of_special hs
  | false => exact h v hv hs

/-- Staying at an exponent changes no value. -/
theorem rescaled_self (e : ℤ) (v : Int64) : Rescaled e e v v := by
  cases hv : isSpecialValue v with
  | true => exact rescaled_of_special hv
  | false =>
    have h : Rescaled e (e + (0 : ℕ)) v v := rescaled_tdiv hv (by simp)
    simpa using h

/-- The multiplier of a positive exponent. -/
theorem toInt_getDecimalMultiplier {exp : Int16} {k : ℕ} (hk : exp.toInt = k) (hle : k ≤ 18) :
    (getDecimalMultiplier exp.toUInt16).toInt = 10 ^ k := by
  have hpos : 0 ≤ exp := Int16.le_iff_toInt_le.mpr (by rw [hk]; exact Int.natCast_nonneg k)
  rw [getDecimalMultiplier, Int16.toNat_toUInt16_of_le hpos, ← Int16.toNat_toInt, hk,
    Int.toNat_natCast, toInt_decimalMultiplier hle]

theorem toInt_mul_of_abs_le {m : Int64} {w : ℤ} (hw : v.toInt * m.toInt = w)
    (h : |w| ≤ 2 ^ 63 - 1) : (v * m).toInt = w := by
  obtain ⟨hlo, hhi⟩ := abs_le.mp h
  rw [Int64.toInt_mul, hw, Int.bmod_eq_of_le (by omega) (by omega)]

/-- Scaling up by an exponent that every value has room for is exact. -/
theorem scaleUp_spec {upExp : Int16} {values : List Int64} (e : ℤ) (hlo : 0 ≤ upExp.toInt)
    (hroom : ∀ v ∈ values, upExp.toInt ≤ (maxUpExponent v).toInt) :
    List.Forall₂ (Rescaled (e + upExp.toInt) e) values (scaleUp upExp values) := by
  have hzero : (0 : Int16).toInt = 0 := rfl
  obtain ⟨k, hk⟩ := Int.eq_ofNat_of_zero_le hlo
  rw [scaleUp]
  split_ifs with hpos
  · rw [hk]
    refine forall₂_rescaled fun v hv hreg => ?_
    by_cases h0 : v = 0
    · subst h0
      refine rescaled_mul hreg ?_ ?_ <;> simp
    · have hkv : (k : ℤ) ≤ (maxUpExponent v).toInt := hk ▸ hroom v hv
      have hfit := (mul_pow_le_iff_maxUpExponent hreg h0 k).mpr hkv
      have hle : k ≤ 18 := by
        have := maxUpExponent_le hreg h0
        omega
      refine rescaled_mul hreg hfit (toInt_mul_of_abs_le ?_ ?_)
      · rw [toInt_getDecimalMultiplier hk hle]
      · rwa [abs_mul, abs_of_nonneg (a := (10 : ℤ) ^ k) (by positivity)]
  · have hsame : upExp.toInt = 0 := by
      rw [gt_iff_lt, Int16.lt_iff_toInt_lt] at hpos
      omega
    rw [hsame, add_zero, forall₂_same]
    exact fun v _ => rescaled_self e v

/-- Scaling down truncates. -/
theorem scaleDown_spec {downExp : Int16} (values : List Int64) (e : ℤ) (hlo : 0 ≤ downExp.toInt) :
    List.Forall₂ (Rescaled e (e + downExp.toInt)) values (scaleDown downExp values) := by
  have hzero : (0 : Int16).toInt = 0 := rfl
  have heighteen : (18 : Int16).toInt = 18 := rfl
  obtain ⟨k, hk⟩ := Int.eq_ofNat_of_zero_le hlo
  rw [scaleDown]
  split_ifs with hpos hfar
  · rw [hk]
    refine forall₂_rescaled fun v hv hreg => ?_
    have hk19 : 19 ≤ k := by
      have := Int16.lt_iff_toInt_lt.mp hfar
      omega
    refine rescaled_tdiv hreg ?_
    rw [tdiv_pow_eq_zero v hk19]
    rfl
  · rw [hk]
    refine forall₂_rescaled fun v hv hreg => ?_
    have hle : k ≤ 18 := by
      have := Int16.le_iff_toInt_le.mp (Int16.not_lt.mp hfar)
      omega
    refine rescaled_tdiv hreg ?_
    have hmul := toInt_getDecimalMultiplier hk hle
    rw [Int64.toInt_div_of_ne_left, hmul]
    rintro rfl
    exact absurd hreg (by decide)
  · have hsame : downExp.toInt = 0 := by
      rw [gt_iff_lt, Int16.lt_iff_toInt_lt] at hpos
      omega
    rw [hsame, add_zero, forall₂_same]
    exact fun v _ => rescaled_self e v

/-- The lists of which the first has the greater exponent. -/
theorem calibrateOrdered_spec {a b : List Int64} {ae be : Int16} (hlt : be.toInt < ae.toInt)
    (hle : ae.toInt - be.toInt ≤ 1024) :
    let r := calibrateOrdered a ae b be
    List.Forall₂ (Rescaled ae.toInt r.2.2.toInt) a r.1 ∧
      List.Forall₂ (Rescaled be.toInt r.2.2.toInt) b r.2.1 := by
  have hup : (ae - be).toInt = ae.toInt - be.toInt := toInt_sub16 (by omega) (by omega)
  obtain ⟨hd0, hd1, hroom⟩ := @downExponent_spec (ae - be) a (by omega) (by omega)
  have hbe := be.le_toInt
  have hae := ae.toInt_lt
  have hadd : (be + downExponent (ae - be) a).toInt =
      be.toInt + (downExponent (ae - be) a).toInt := toInt_add16 (by omega) (by omega)
  have hsub : (ae - be - downExponent (ae - be) a).toInt =
      ae.toInt - be.toInt - (downExponent (ae - be) a).toInt := by
    rw [toInt_sub16 (by omega) (by omega), hup]
  rw [calibrateOrdered]
  simp only [hadd]
  constructor
  · have h := @scaleUp_spec (ae - be - downExponent (ae - be) a) a
      (be.toInt + (downExponent (ae - be) a).toInt) (by omega) fun v hv => by
        have := hroom v hv
        omega
    have he : be.toInt + (downExponent (ae - be) a).toInt +
        (ae - be - downExponent (ae - be) a).toInt = ae.toInt := by omega
    rwa [he] at h
  · exact scaleDown_spec b be.toInt hd0

/-- The greater exponent decides which list is scaled up. -/
theorem calibrateScale_of_lt {a b : List Int64} {ae be : Int16} (ha : a ≠ []) (hb : b ≠ [])
    (hlt : be.toInt < ae.toInt) :
    calibrateScale a ae b be = calibrateOrdered a ae b be ∧
      calibrateScale b be a ae =
        ((calibrateOrdered a ae b be).2.1, (calibrateOrdered a ae b be).1,
          (calibrateOrdered a ae b be).2.2) := by
  have hne : ae ≠ be := fun h => absurd hlt (by rw [h]; exact lt_irrefl _)
  have hnot : ¬ ae < be := fun h => absurd (Int16.lt_iff_toInt_lt.mp h) (by omega)
  constructor
  · rw [calibrateScale, if_neg hne, if_neg ha, if_neg hb, if_neg hnot]
  · rw [calibrateScale, if_neg hne.symm, if_neg hb, if_neg ha,
      if_pos (Int16.lt_iff_toInt_lt.mpr hlt)]

/-- Calibration keeps special values, is exact for every list whose exponent is not below the result
and truncates the other, without overflow; the arguments may be swapped. -/
theorem calibrateScale_spec {a b : List Int64} {ae be : Int16} (ha : a ≠ []) (hb : b ≠ [])
    (hle : |ae.toInt - be.toInt| ≤ 1024) :
    ∃ a' b' e, calibrateScale a ae b be = (a', b', e) ∧ calibrateScale b be a ae = (b', a', e) ∧
      List.Forall₂ (Rescaled ae.toInt e.toInt) a a' ∧
      List.Forall₂ (Rescaled be.toInt e.toInt) b b' := by
  obtain ⟨hlo, hhi⟩ := abs_le.mp hle
  rcases lt_trichotomy ae.toInt be.toInt with hlt | heq | hlt
  · obtain ⟨hba, hab⟩ := calibrateScale_of_lt hb ha hlt
    obtain ⟨hb', ha'⟩ := calibrateOrdered_spec (a := b) (b := a) hlt (by omega)
    exact ⟨_, _, _, hab, hba, ha', hb'⟩
  · obtain rfl := Int16.toInt_inj.mp heq
    refine ⟨a, b, ae, calibrateScale_self a b ae, calibrateScale_self b a ae, ?_, ?_⟩
    · exact forall₂_same.mpr fun v _ => rescaled_self _ v
    · exact forall₂_same.mpr fun v _ => rescaled_self _ v
  · obtain ⟨hab, hba⟩ := calibrateScale_of_lt ha hb hlt
    obtain ⟨ha', hb'⟩ := calibrateOrdered_spec (a := a) (b := b) hlt (by omega)
    exact ⟨_, _, _, hab, hba, ha', hb'⟩

/-- A list without room for the whole difference of the exponents, and one that loses digits. -/
theorem calibrateScale_spec_two :
    ∃ a' b' e, calibrateScale [123456789012345678, vMax + 1] 3 [-345] (-1) = (a', b', e) ∧
      calibrateScale [-345] (-1) [123456789012345678, vMax + 1] 3 = (b', a', e) ∧
      List.Forall₂ (Rescaled 3 e.toInt) [123456789012345678, vMax + 1] a' ∧
      List.Forall₂ (Rescaled (-1) e.toInt) [-345] b' :=
  @calibrateScale_spec _ _ 3 (-1) (by simp) (by simp) (by decide)

end Esmetrics
