import Esmetrics.Common.DecimalScale
import Mathlib.Order.Bounds.Defs

/-!
# The common exponent of a list of floats

`append_float_to_decimal` of `esm-common/src/decimal.rs` starts from the least exponent of the
regular values and raises it until no value would overflow. The exponent it ends with is the least
one for which that holds, and at which every value is exact or truncated
(`appendFloatToDecimal_spec`). Zeros and special values have a head-room of 1024 instead of an
unlimited one: one of them with an exponent farther above the others takes part after all
(`appendFloatToDecimal_not_least`). The exponents of floats are not that far apart, and zeros and
special values have exponent zero.
-/

namespace Esmetrics

open List

/-! ### The loops -/

/-- Multiplying by ten does not overflow where the last product does not. -/
theorem toInt_iterate_mul (v : Int64) {k : ℕ} (h : |v.toInt| * 10 ^ k ≤ 2 ^ 63 - 1) :
    ((· * 10)^[k] v).toInt = v.toInt * 10 ^ k := by
  induction k with
  | zero => simp
  | succ k ih =>
    have hstep : |v.toInt| * 10 ^ k ≤ |v.toInt| * 10 ^ (k + 1) :=
      mul_le_mul_of_nonneg_left (pow_le_pow_right₀ (by norm_num) (by omega)) (abs_nonneg _)
    have hten : (10 : Int64).toInt = 10 := rfl
    rw [Function.iterate_succ_apply']
    refine toInt_mul_of_abs_le ?_ ?_
    · rw [ih (hstep.trans h), hten, pow_succ, mul_assoc]
    · rwa [abs_mul, abs_of_nonneg (a := (10 : ℤ) ^ (k + 1)) (by positivity)]

/-- Dividing by ten again and again truncates once. -/
theorem toInt_iterate_div (v : Int64) (k : ℕ) :
    ((· / 10)^[k] v).toInt = v.toInt.tdiv (10 ^ k) := by
  induction k with
  | zero => simp
  | succ k ih =>
    have hten : (10 : Int64).toInt = 10 := rfl
    rw [Function.iterate_succ_apply', Int64.toInt_div_of_ne_right _ _ (by decide), ih, hten,
      tdiv_tdiv_of_nonneg _ _ (by positivity), pow_succ]

/-- A value is exact or truncated when the loops move it to an exponent it has room for. -/
theorem rescaled_adjustExponent {v : Int64} {exp : Int16} {e : ℤ} (hv : isSpecialValue v = false)
    {adjExp : Int16} (hadj : adjExp.toInt = exp.toInt - e)
    (hroom : exp.toInt - e ≤ (maxUpExponent v).toInt) :
    Rescaled exp.toInt e v (adjustExponent v adjExp) := by
  rw [adjustExponent]
  rcases le_or_gt e exp.toInt with hle | hlt
  · obtain ⟨k, hk⟩ := Int.eq_ofNat_of_zero_le (show 0 ≤ adjExp.toInt by omega)
    have hzero : (-(k : ℤ)).toNat = 0 := by omega
    have hexp : exp.toInt = e + k := by omega
    rw [hk, hzero, Function.iterate_zero, id, Int.toNat_natCast, hexp]
    have hfit : |v.toInt| * 10 ^ k ≤ 2 ^ 63 - 1 := by
      by_cases h0 : v = 0
      · subst h0
        simp
      · exact (mul_pow_le_iff_maxUpExponent hv h0 k).mpr (by omega)
    exact rescaled_mul hv hfit (toInt_iterate_mul v hfit)
  · obtain ⟨k, hk⟩ := Int.eq_ofNat_of_zero_le (show 0 ≤ -adjExp.toInt by omega)
    have hzero : adjExp.toInt.toNat = 0 := by omega
    have he : e = exp.toInt + k := by omega
    rw [hk, hzero, Function.iterate_zero, id, Int.toNat_natCast, he]
    exact rescaled_tdiv hv (toInt_iterate_div v k)

theorem foldl_minExponent_spec (vea : List (Int64 × Int16)) (m : Int16) :
    let r := vea.foldl
      (fun minExp ve => if ve.2 < minExp && !isSpecialValue ve.1 then ve.2 else minExp) m
    r.toInt ≤ m.toInt ∧ (∀ ve ∈ vea, isSpecialValue ve.1 = false → r.toInt ≤ ve.2.toInt) ∧
      (r = m ∨ ∃ ve ∈ vea, isSpecialValue ve.1 = false ∧ ve.2 = r) := by
  induction vea generalizing m with
  | nil => simp
  | cons x vea ih =>
    rw [foldl_cons]
    by_cases hx : (x.2 < m && !isSpecialValue x.1) = true
    · obtain ⟨hle, hall, hone⟩ := ih x.2
      rw [if_pos hx]
      rw [Bool.and_eq_true, decide_eq_true_iff, Bool.not_eq_true', Int16.lt_iff_toInt_lt] at hx
      refine ⟨hle.trans hx.1.le, fun ve hve hreg => ?_, ?_⟩
      · rcases mem_cons.mp hve with rfl | hve
        · exact hle
        · exact hall ve hve hreg
      · rcases hone with h | ⟨ve, hve, h⟩
        · exact .inr ⟨x, mem_cons_self, hx.2, h.symm⟩
        · exact .inr ⟨ve, mem_cons_of_mem _ hve, h⟩
    · obtain ⟨hle, hall, hone⟩ := ih m
      rw [if_neg hx]
      refine ⟨hle, fun ve hve hreg => ?_, ?_⟩
      · rcases mem_cons.mp hve with rfl | hve
        · have hge : ¬ ve.2 < m := fun hlt => hx (by simp [hlt, hreg])
          exact hle.trans (Int16.le_iff_toInt_le.mp (Int16.not_lt.mp hge))
        · exact hall ve hve hreg
      · rcases hone with h | ⟨ve, hve, h⟩
        · exact .inl h
        · exact .inr ⟨ve, mem_cons_of_mem _ hve, h⟩

/-- The loop over the exponents finds the least one of a regular value. -/
theorem minExponent_spec {vea : List (Int64 × Int16)}
    (hreg : ∃ ve ∈ vea, isSpecialValue ve.1 = false) (hmax : ∀ ve ∈ vea, ve.2.toInt ≤ 1100) :
    (∃ ve ∈ vea, isSpecialValue ve.1 = false ∧ ve.2 = minExponent vea) ∧
      ∀ ve ∈ vea, isSpecialValue ve.1 = false → (minExponent vea).toInt ≤ ve.2.toInt := by
  obtain ⟨-, hall, hone⟩ := foldl_minExponent_spec vea Int16.maxValue
  rw [← minExponent] at hall hone
  refine ⟨hone.resolve_left fun h => ?_, hall⟩
  obtain ⟨ve, hve, hs⟩ := hreg
  have hle := hall ve hve hs
  have htop := hmax ve hve
  rw [h, Int16.toInt_maxValue] at hle
  omega

/-! ### The least exponent -/

/-- A product fits an `i64`. -/
def Fits (w : ℤ) : Prop := -2 ^ 63 ≤ w ∧ w < 2 ^ 63

/-- The product of a regular value and a power of ten fits if its absolute value does: it is not
`-2 ^ 63`, which is no multiple of ten. -/
theorem fits_mul_pow_iff {v : Int64} (hv : isSpecialValue v = false) (k : ℕ) :
    Fits (v.toInt * 10 ^ k) ↔ |v.toInt| * 10 ^ k ≤ 2 ^ 63 - 1 := by
  have habs : |v.toInt| * 10 ^ k = |v.toInt * 10 ^ k| := by
    rw [abs_mul, abs_of_nonneg (a := (10 : ℤ) ^ k) (by positivity)]
  have hne : v.toInt * 10 ^ k ≠ -2 ^ 63 := by
    obtain ⟨hlo, -⟩ := isSpecialValue_eq_false_iff.mp hv
    rcases Nat.eq_zero_or_pos k with rfl | hk
    · rw [pow_zero, mul_one]
      omega
    · obtain ⟨j, rfl⟩ := Nat.exists_eq_add_of_lt hk
      rw [Nat.zero_add, pow_succ, ← mul_assoc]
      omega
  rw [habs, abs_le, Fits]
  omega

/-- The exponents, from the least one of a regular value on, at which no regular value overflows. -/
def ExponentsWithRoom (vea : List (Int64 × Int16)) : Set ℤ :=
  {e | (∃ ve ∈ vea, isSpecialValue ve.1 = false ∧ ve.2.toInt ≤ e) ∧
    ∀ ve ∈ vea, isSpecialValue ve.1 = false → e ≤ ve.2.toInt →
      Fits (ve.1.toInt * 10 ^ (ve.2.toInt - e).toNat)}

/-- Those of them that are at most 1024 below the exponents of zeros and special values. -/
def CommonExponents (vea : List (Int64 × Int16)) : Set ℤ :=
  {e | e ∈ ExponentsWithRoom vea ∧
    ∀ ve ∈ vea, ve.1 = 0 ∨ isSpecialValue ve.1 = true → ve.2.toInt ≤ e + 1024}

variable {vea : List (Int64 × Int16)}

/-- Raising the least exponent by the excess gives the least exponent there is room for. -/
theorem isLeast_commonExponents (hreg : ∃ ve ∈ vea, isSpecialValue ve.1 = false)
    (hexp : ∀ ve ∈ vea, -1100 ≤ ve.2.toInt ∧ ve.2.toInt ≤ 1100) :
    let e := (minExponent vea + excessExponent (minExponent vea) vea).toInt
    IsLeast (CommonExponents vea) e ∧ -1100 ≤ e ∧ e ≤ 1100 ∧
      ∀ ve ∈ vea, ve.2.toInt - e ≤ (maxUpExponent ve.1).toInt := by
  obtain ⟨⟨m, hm, hmreg, hmexp⟩, hmin⟩ := minExponent_spec hreg fun ve hve => (hexp ve hve).2
  have hbounds := hexp m hm
  rw [hmexp] at hbounds
  -- none of the differences wraps
  have hsub : ∀ ve ∈ vea, (ve.2 - minExponent vea - maxUpExponent ve.1).toInt =
      ve.2.toInt - (minExponent vea).toInt - (maxUpExponent ve.1).toInt := fun ve hve => by
    obtain ⟨hlo, hhi⟩ := hexp ve hve
    obtain ⟨h0, h1⟩ := maxUpExponent_bounds ve.1
    have hup : (ve.2 - minExponent vea).toInt = ve.2.toInt - (minExponent vea).toInt :=
      toInt_sub16 (by omega) (by omega)
    rw [toInt_sub16 (by omega) (by omega), hup]
  obtain ⟨hle, hall, hone⟩ :=
    foldl_max_spec (fun ve => ve.2 - minExponent vea - maxUpExponent ve.1) vea 0
  rw [show vea.foldl (fun d ve => if ve.2 - minExponent vea - maxUpExponent ve.1 > d then
    ve.2 - minExponent vea - maxUpExponent ve.1 else d) 0 =
      excessExponent (minExponent vea) vea from rfl] at hle hall hone
  have hzero : (0 : Int16).toInt = 0 := rfl
  generalize excessExponent (minExponent vea) vea = d at hle hall hone ⊢
  have hd : d.toInt = 0 ∨ ∃ ve ∈ vea, d.toInt =
      ve.2.toInt - (minExponent vea).toInt - (maxUpExponent ve.1).toInt := by
    rcases hone with rfl | ⟨ve, hve, rfl⟩
    · exact .inl rfl
    · exact .inr ⟨ve, hve, hsub ve hve⟩
  have htop : (minExponent vea).toInt + d.toInt ≤ 1100 := by
    rcases hd with h | ⟨ve, hve, h⟩
    · omega
    · have := (hexp ve hve).2
      have := (maxUpExponent_bounds ve.1).1
      omega
  have hadd : (minExponent vea + d).toInt = (minExponent vea).toInt + d.toInt :=
    toInt_add16 (by omega) (by omega)
  have hroom : ∀ ve ∈ vea,
      ve.2.toInt - ((minExponent vea).toInt + d.toInt) ≤ (maxUpExponent ve.1).toInt := by
    intro ve hve
    have h := hall ve hve
    rw [hsub ve hve] at h
    omega
  simp only [hadd]
  refine ⟨⟨⟨⟨⟨m, hm, hmreg, by rw [hmexp]; omega⟩, fun ve hve hs hev => ?_⟩,
    fun ve hve hfree => ?_⟩, fun x hx => ?_⟩, by omega, htop, hroom⟩
  · rw [fits_mul_pow_iff hs]
    by_cases h0 : ve.1 = 0
    · rw [h0]
      simp
    · have := hroom ve hve
      exact (mul_pow_le_iff_maxUpExponent hs h0 _).mpr (by omega)
  · have h := hroom ve hve
    rw [maxUpExponent_of_free hfree] at h
    omega
  · obtain ⟨⟨⟨ve, hve, hs, hvex⟩, hfits⟩, hfree⟩ := hx
    rcases hd with h | ⟨w, hw, h⟩
    · have := hmin ve hve hs
      omega
    · by_cases hwfree : w.1 = 0 ∨ isSpecialValue w.1 = true
      · have hw' := hfree w hw hwfree
        rw [maxUpExponent_of_free hwfree] at h
        omega
      · obtain ⟨hw0, hws⟩ := not_or.mp hwfree
        have hws' : isSpecialValue w.1 = false := by simpa using hws
        have hroomw := maxUpExponent_le hws' hw0
        by_contra hlt
        have hfit := hfits w hw hws' (by omega)
        rw [fits_mul_pow_iff hws', mul_pow_le_iff_maxUpExponent hws' hw0] at hfit
        omega

/-- A list of one small value with exponent zero. -/
theorem isLeast_commonExponents_replicate {v : Int64} (hv : isSpecialValue v = false)
    (hne : vea ≠ []) (hall : ∀ ve ∈ vea, ve = (v, 0)) : IsLeast (CommonExponents vea) 0 := by
  have hzero : (0 : Int16).toInt = 0 := rfl
  obtain ⟨ve, hve⟩ := exists_mem_of_ne_nil vea hne
  refine ⟨⟨⟨⟨ve, hve, ?_⟩, fun w hw _ _ => ?_⟩, fun w hw _ => ?_⟩, fun x hx => ?_⟩
  · rw [hall ve hve]
    exact ⟨hv, le_rfl⟩
  · rw [hall w hw]
    have := v.le_toInt
    have := v.toInt_lt
    simp only [hzero, sub_zero, Int.toNat_zero, pow_zero, mul_one, Fits]
    omega
  · rw [hall w hw, hzero]
    omega
  · obtain ⟨⟨⟨w, hw, -, hle⟩, -⟩, -⟩ := hx
    rw [hall w hw] at hle
    exact hle

/-- The appended values are those of the floats, exact where their exponent is not below the common
one and truncated elsewhere; special values are kept. The common exponent is the least one from the
exponents of the regular values on at which none of them overflows, as far as zeros and special
values are not more than 1024 above it. -/
theorem appendFloatToDecimal_spec {fromFloat : UInt64 → Int64 × Int16}
    (hzero : fromFloat 0 = (0, 0))
    (hone : fromFloat 0x3ff0000000000000 = (1, 0)) {src : List UInt64}
    (hexp : ∀ f ∈ src, -1100 ≤ (fromFloat f).2.toInt ∧ (fromFloat f).2.toInt ≤ 1100)
    (hreg : ∃ f ∈ src, isSpecialValue (fromFloat f).1 = false) (dst : List Int64) :
    ∃ d e, appendFloatToDecimal fromFloat dst src = (dst ++ d, e) ∧
      List.Forall₂ (fun f v' => Rescaled (fromFloat f).2.toInt e.toInt (fromFloat f).1 v') src d ∧
      IsLeast (CommonExponents (src.map fromFloat)) e.toInt := by
  obtain ⟨f₀, hf₀, hs₀⟩ := hreg
  have hne : src ≠ [] := ne_nil_of_mem hf₀
  -- the fast paths for zeros and ones
  have hfast : ∀ (bits : UInt64) (v : Int64), fromFloat bits = (v, 0) → isSpecialValue v = false →
      src.all (· == bits) = true →
      List.Forall₂ (fun f v' => Rescaled (fromFloat f).2.toInt (0 : Int16).toInt (fromFloat f).1 v')
        src (List.replicate src.length v) ∧ IsLeast (CommonExponents (src.map fromFloat)) 0 := by
    intro bits v hbits hv hall
    have hsame : ∀ f ∈ src, f = bits := fun f hf => by simpa using all_eq_true.mp hall f hf
    constructor
    · rw [← map_const', forall₂_map_right_iff, forall₂_same]
      intro f hf
      rw [hsame f hf, hbits]
      exact rescaled_self _ _
    · refine isLeast_commonExponents_replicate hv (by simpa using hne) fun ve hve => ?_
      obtain ⟨f, hf, rfl⟩ := mem_map.mp hve
      rw [hsame f hf, hbits]
  rw [appendFloatToDecimal, if_neg hne]
  split_ifs with hzeros hones
  · exact ⟨_, 0, rfl, hfast 0 0 hzero (by decide) hzeros⟩
  · exact ⟨_, 0, rfl, hfast _ 1 hone (by decide) hones⟩
  have hreg : ∃ ve ∈ src.map fromFloat, isSpecialValue ve.1 = false :=
    ⟨_, mem_map_of_mem hf₀, hs₀⟩
  obtain ⟨hleast, hlo, hhi, hroom⟩ := isLeast_commonExponents hreg (by simpa using hexp)
  refine ⟨_, _, rfl, ?_, hleast⟩
  rw [map_map, forall₂_map_right_iff, forall₂_same]
  intro f hf
  simp only [Function.comp_apply]
  cases hs : isSpecialValue (fromFloat f).1 with
  | true => exact rescaled_of_special hs
  | false =>
    have hf' := hexp f hf
    refine rescaled_adjustExponent hs ?_ (hroom _ (mem_map_of_mem hf))
    exact toInt_sub16 (by omega) (by omega)

/-- Regular values of which one has to be truncated, and a special one. -/
theorem appendFloatToDecimal_spec_three :
    let fromFloat : UInt64 → Int64 × Int16 := fun f =>
      if f = 0 then (0, 0)
      else if f = 0x3ff0000000000000 then (1, 0)
      else if f = 2 then (vMax + 2, 0)
      else if f = 3 then (123456789012345678, 5)
      else (45, -1)
    ∃ d e, appendFloatToDecimal fromFloat [] [2, 3, 4] = ([] ++ d, e) ∧
      List.Forall₂ (fun f v' => Rescaled (fromFloat f).2.toInt e.toInt (fromFloat f).1 v') [2, 3, 4]
        d ∧
      IsLeast (CommonExponents ([2, 3, 4].map fromFloat)) e.toInt :=
  appendFloatToDecimal_spec rfl rfl (by
    intro f hf
    have hcases : f = 2 ∨ f = 3 ∨ f = 4 := by simpa using hf
    rcases hcases with rfl | rfl | rfl <;> decide) ⟨3, by decide, by decide⟩ []

/-- A zero with a great exponent takes part although it cannot overflow. -/
theorem appendFloatToDecimal_not_least :
    let fromFloat : UInt64 → Int64 × Int16 := fun f =>
      if f = 0 then (0, 0)
      else if f = 0x3ff0000000000000 then (1, 0)
      else if f = 2 then (0, 1100)
      else (1, -1100)
    ¬ IsLeast (ExponentsWithRoom ([2, 3].map fromFloat))
      (appendFloatToDecimal fromFloat [] [2, 3]).2.toInt := by
  intro fromFloat hleast
  have he : (appendFloatToDecimal fromFloat [] [2, 3]).2.toInt = 76 := by decide
  have hmem : (-1100 : ℤ) ∈ ExponentsWithRoom ([2, 3].map fromFloat) := by
    refine ⟨⟨(1, -1100), by decide, by decide, by decide⟩, fun ve hve _ _ => ?_⟩
    have hcases : ve = (0, 1100) ∨ ve = (1, -1100) := by simpa [fromFloat] using hve
    rcases hcases with rfl | rfl
    · have hzero : (0 : Int64).toInt = 0 := rfl
      simp only [hzero, zero_mul, Fits]
      omega
    · have hzero : ((-1100 : Int16).toInt - -1100).toNat = 0 := by decide
      have hone : (1 : Int64).toInt = 1 := rfl
      simp only [hzero, hone, pow_zero, mul_one, Fits]
      omega
  have hle := hleast.2 hmem
  rw [he] at hle
  omega

end Esmetrics
