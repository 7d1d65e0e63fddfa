import Esmetrics.Encoding.Int64Array

/-!
# The error of lossy delta encodings

With `precision_bits` below 64 the encoders of `esm-encoding/src/nearest_delta.rs` and
`nearest_delta2.rs` clear the low bits of the differences. They go on from the item that the decoder
will have, not from the item they were given, so that the difference of an item makes up for the
errors before it: every decoded item is its item but for the error of one difference
(`nearestDelta_error`), and the errors do not add up (`ErrorBounded`, `marshalInt64Array_error`).

The sums and differences wrap, which does no harm: a decoded item is near its item, and the items
are below `2 ^ 62`. The distance of an item to the one decoded before it, by which second
differences measure the precision, does not wrap either, since the items of a counter are not
negative. That the numbers of trailing zeros stay in the range of a `u8` and of a shift is said by
`isSome_differencesChecked`.
-/

namespace Esmetrics

open List Outcome

/-! ### Absolute values and masks -/

/-- The wrapping absolute value, read as an unsigned number, is the absolute value: it is `2 ^ 63`
for the least integer. -/
theorem toNat_wrappingAbs (v : Int64) : (wrappingAbs v).toUInt64.toNat = v.toInt.natAbs := by
  have hlt := v.toBitVec.isLt
  have hint : v.toInt = v.toBitVec.toInt := rfl
  rw [wrappingAbs]
  split_ifs with hneg
  · have hv := Int64.lt_iff_toInt_lt.mp hneg
    have hzero : (0 : Int64).toInt = 0 := rfl
    rw [← Int64.toNat_toBitVec, Int64.toBitVec_neg, BitVec.toNat_neg]
    rw [hint, BitVec.toInt_eq_toNat_cond] at hv ⊢
    split_ifs at hv ⊢ with hhalf <;> omega
  · have hv := Int64.le_iff_toInt_le.mp (Int64.not_lt.mp hneg)
    have hzero : (0 : Int64).toInt = 0 := rfl
    rw [← Int64.toNat_toBitVec]
    rw [hint, BitVec.toInt_eq_toNat_cond] at hv ⊢
    split_ifs at hv ⊢ with hhalf <;> omega

/-- Clearing the `t` lowest bits. -/
theorem toNat_and_mask (u : UInt64) {t : ℕ} (ht : t < 64) :
    (u &&& (0 - 1) <<< UInt64.ofNat t).toNat = u.toNat / 2 ^ t * 2 ^ t := by
  have hones : (0 - 1 : UInt64).toNat = 2 ^ 64 - 1 := rfl
  have hu := u.toNat_lt
  rw [UInt64.toNat_and, UInt64.toNat_shiftLeft, hones, UInt64.toNat_ofNat',
    Nat.mod_eq_of_lt (show t < 2 ^ 64 by omega), Nat.mod_eq_of_lt ht, ← Nat.shiftLeft_eq,
    ← Nat.shiftRight_eq_div_pow]
  apply Nat.eq_of_testBit_eq
  intro i
  rw [Nat.testBit_and, Nat.testBit_mod_two_pow, Nat.testBit_shiftLeft, Nat.testBit_two_pow_sub_one,
    Nat.testBit_shiftLeft, Nat.testBit_shiftRight]
  rcases Nat.lt_or_ge i 64 with hi | hi
  · rcases Nat.lt_or_ge i t with hit | hit
    · simp [Nat.not_le.mpr hit]
    · have hsub : i - t < 64 := by omega
      have hadd : t + (i - t) = i := by omega
      simp [hi, hit, hsub, hadd]
  · have hbig : u.toNat.testBit i = false :=
      Nat.testBit_lt_two_pow (lt_of_lt_of_le hu (Nat.pow_le_pow_right (by omega) hi))
    rcases Nat.lt_or_ge i t with hit | hit
    · simp [hbig, Nat.not_le.mpr hit]
    · have hadd : t + (i - t) = i := by omega
      simp [hbig, hadd]

/-- The highest set bit of a word. -/
theorem bitLen_bounds {u : UInt64} {n : ℕ} (h : bitLen u = n + 1) :
    2 ^ n ≤ u.toNat ∧ u.toNat < 2 ^ (n + 1) := by
  rw [bitLen] at h
  split_ifs at h with hu
  have hne : u.toNat ≠ 0 := fun h0 => hu (UInt64.toNat_inj.mp h0)
  obtain rfl : u.toNat.log2 = n := by omega
  exact ⟨Nat.log2_self_le hne, Nat.lt_log2_self⟩

theorem bitLen_le (u : UInt64) : bitLen u ≤ 64 := by
  by_contra hlt
  obtain ⟨n, hn⟩ : ∃ n, bitLen u = n + 1 := ⟨bitLen u - 1, by omega⟩
  have hlo := (bitLen_bounds hn).1
  have hpow : 2 ^ 64 ≤ 2 ^ n := Nat.pow_le_pow_right (by omega) (by omega)
  have := u.toNat_lt
  omega

/-! ### The error of one difference -/

theorem toInt64_eq_ofInt (u : UInt64) : u.toInt64 = Int64.ofInt (u.toNat : ℤ) := by
  apply Int64.toBitVec_inj.mp
  change u.toBitVec = BitVec.ofInt 64 (u.toBitVec.toNat : ℤ)
  rw [BitVec.ofInt_natCast, BitVec.ofNat_toNat, BitVec.setWidth_eq]

/-- Clearing the low bits of the absolute value of a difference changes it by less than the last of
the bits that are kept. -/
theorem mask_difference (d : Int64) {t : ℕ} (ht : t < 64) :
    let nd := ((wrappingAbs d).toUInt64 &&& (0 - 1) <<< UInt64.ofNat t).toInt64
    ∃ err : ℤ, |err| < 2 ^ t ∧ (if d < 0 then -nd else nd) = d - Int64.ofInt err := by
  intro nd
  have hmask := toNat_and_mask (wrappingAbs d).toUInt64 ht
  rw [toNat_wrappingAbs] at hmask
  have hnd : nd = Int64.ofInt ((d.toInt.natAbs / 2 ^ t * 2 ^ t : ℕ) : ℤ) := by
    rw [← hmask, ← toInt64_eq_ofInt]
  have hrem : |((d.toInt.natAbs % 2 ^ t : ℕ) : ℤ)| < 2 ^ t := by
    rw [abs_of_nonneg (Int.natCast_nonneg _)]
    exact_mod_cast Nat.mod_lt _ (by positivity)
  have habs : ((d.toInt.natAbs : ℕ) : ℤ) = ((d.toInt.natAbs / 2 ^ t * 2 ^ t : ℕ) : ℤ) +
      ((d.toInt.natAbs % 2 ^ t : ℕ) : ℤ) := by
    rw [← Nat.cast_add, Nat.div_add_mod']
  have hzero : (0 : Int64).toInt = 0 := rfl
  have hself : ∀ w err : ℤ, d.toInt = w + err → Int64.ofInt w = d - Int64.ofInt err := by
    intro w err hw
    have hw' : w = d.toInt - err := by omega
    rw [hw', Int64.ofInt_sub, Int64.ofInt_toInt]
  rw [hnd]
  split_ifs with hneg
  · have hlt := Int64.lt_iff_toInt_lt.mp hneg
    refine ⟨-((d.toInt.natAbs % 2 ^ t : ℕ) : ℤ), by rwa [abs_neg], ?_⟩
    rw [← Int64.ofInt_neg]
    exact hself _ _ (by omega)
  · have hge := Int64.le_iff_toInt_le.mp (Int64.not_lt.mp hneg)
    exact ⟨((d.toInt.natAbs % 2 ^ t : ℕ) : ℤ), hrem, hself _ _ (by omega)⟩

/-- A difference is exact but for the low bits past the precision of `next`: with `p` bits the error
is below one unit in the `p`-th of its bits. -/
theorem nearestDelta_spec (next prev : Int64) {p : ℕ} (hp : 1 ≤ p) (prevTrailingZeros : ℕ) :
    ∃ err : ℤ,
      (nearestDelta next prev p prevTrailingZeros).1 = next - prev - Int64.ofInt err ∧
        (err = 0 ∨ ∃ t, t + p = bitLen (wrappingAbs next).toUInt64 ∧ |err| < 2 ^ t) := by
  generalize hd : next - prev = d
  by_cases hzero : d = 0
  · exact ⟨0, by simp [nearestDelta, hd, hzero], .inl rfl⟩
  by_cases hbits : bitLen (wrappingAbs next).toUInt64 ≤ p
  · exact ⟨0, by simp [nearestDelta, hd, hzero, hbits], .inl rfl⟩
  have hlen := bitLen_le (wrappingAbs next).toUInt64
  obtain ⟨t, ht⟩ : ∃ t, t + p = bitLen (wrappingAbs next).toUInt64 :=
    ⟨bitLen (wrappingAbs next).toUInt64 - p, by omega⟩
  have hsub : bitLen (wrappingAbs next).toUInt64 - p = t := by omega
  by_cases hup : t > prevTrailingZeros + 4
  · exact ⟨0, by simp [nearestDelta, hd, hzero, hbits, hsub, hup], .inl rfl⟩
  by_cases hdown : t + 4 < prevTrailingZeros
  · exact ⟨0, by simp [nearestDelta, hd, hzero, hbits, hsub, hup, hdown], .inl rfl⟩
  obtain ⟨err, herr, heq⟩ := mask_difference d (t := t) (by omega)
  refine ⟨err, ?_, .inr ⟨t, ht, herr⟩⟩
  rw [← heq]
  simp [nearestDelta, hd, hzero, hbits, hsub, hup, hdown]

/-- The bound of the error in terms of the value that the precision is measured by. -/
theorem nearestDelta_error (next prev : Int64) {p : ℕ} (hp : 1 ≤ p) (prevTrailingZeros : ℕ) :
    ∃ err : ℤ,
      (nearestDelta next prev p prevTrailingZeros).1 = next - prev - Int64.ofInt err ∧
        |err| * 2 ^ (p - 1) ≤ |next.toInt| ∧
        ∀ k : ℕ, |next.toInt| < 2 ^ (k + 1) → |err| < 2 ^ k := by
  obtain ⟨err, heq, herr⟩ := nearestDelta_spec next prev hp prevTrailingZeros
  refine ⟨err, heq, ?_⟩
  rcases herr with rfl | ⟨t, ht, hlt⟩
  · exact ⟨by simp, fun k _ => by rw [abs_zero]; positivity⟩
  obtain ⟨q, rfl⟩ := Nat.exists_eq_add_of_le hp
  obtain ⟨hlo, hhi⟩ := bitLen_bounds (n := t + q) (by rw [← ht]; omega)
  rw [toNat_wrappingAbs] at hlo hhi
  have habs : |next.toInt| = ((next.toInt.natAbs : ℕ) : ℤ) := Int.abs_eq_natAbs _
  constructor
  · rw [Nat.add_sub_cancel_left, habs]
    calc |err| * 2 ^ q ≤ 2 ^ t * 2 ^ q := mul_le_mul_of_nonneg_right hlt.le (by positivity)
      _ = 2 ^ (t + q) := (pow_add _ _ _).symm
      _ ≤ ((next.toInt.natAbs : ℕ) : ℤ) := by exact_mod_cast hlo
  · intro k hk
    rw [habs] at hk
    have hpow : (2 : ℕ) ^ (t + q) < 2 ^ (k + 1) := lt_of_le_of_lt hlo (by exact_mod_cast hk)
    have hle : t + q < k + 1 := (Nat.pow_lt_pow_iff_right (by omega)).mp hpow
    exact lt_of_lt_of_le hlt (pow_le_pow_right₀ (by norm_num) (by omega))

/-! ### The error along a list -/

/-- Every item of the second list is near the item of the first one: to the given precision of the
item or of its distance to the item decoded before it, which is `v` at the start. -/
def ErrorBounded (precisionBits : ℕ) : Int64 → List Int64 → List Int64 → Prop
  | _, [], [] => True
  | v, x :: src, x' :: src' =>
    |x'.toInt - x.toInt| * 2 ^ (precisionBits - 1) ≤ max |x.toInt| |x.toInt - v.toInt| ∧
      ErrorBounded precisionBits x' src src'
  | _, _, _ => False

/-- Decoding gives the encoded item but for the error of its difference, whatever was decoded before
it. -/
theorem toInt_sub_error {x : Int64} {err : ℤ} (hx : |x.toInt| < 2 ^ 62) (herr : |err| < 2 ^ 62) :
    (x - Int64.ofInt err).toInt = x.toInt - err := by
  rw [abs_lt] at hx herr
  have hofInt := Int64.toInt_ofInt_of_le (n := err) (by omega) (by omega)
  rw [toInt_sub_of_lt (by omega) (by omega), hofInt]

theorem errorBounded_lossyDeltas {p q : ℕ} (hq : 1 ≤ q) (hqp : q ≤ p) (v : Int64) (tz : ℕ)
    {src : List Int64} (hsrc : ∀ x ∈ src, |x.toInt| < 2 ^ 62) :
    ErrorBounded q v src (sumDeltas v (lossyDeltas p v tz src)) := by
  induction src generalizing v tz with
  | nil => trivial
  | cons x src ih =>
    have hx := hsrc x mem_cons_self
    obtain ⟨err, heq, hbound, hsmall⟩ := nearestDelta_error x v (hq.trans hqp) tz
    have hnext : v + (nearestDelta x v p tz).1 = x - Int64.ofInt err := by
      rw [heq]
      grind
    have hint := toInt_sub_error hx ((hsmall 61 hx).trans (by norm_num))
    rw [lossyDeltas, sumDeltas, hnext]
    refine ⟨?_, ih _ _ fun y hy => hsrc y (mem_cons_of_mem _ hy)⟩
    have herr : |x.toInt - err - x.toInt| = |err| := by
      rw [sub_sub_cancel_left, abs_neg]
    rw [hint, herr]
    calc |err| * 2 ^ (q - 1) ≤ |err| * 2 ^ (p - 1) :=
          mul_le_mul_of_nonneg_left (pow_le_pow_right₀ (by norm_num) (by omega)) (abs_nonneg _)
      _ ≤ |x.toInt| := hbound
      _ ≤ max |x.toInt| |x.toInt - v.toInt| := le_max_left _ _

variable {v : Int64}

/-- The items of a counter are not negative, so their distance to a decoded item does not
overflow. -/
theorem errorBounded_lossyDeltas2 {p : ℕ} (hp : 1 ≤ p) (hv : -2 ^ 62 < v.toInt)
    (d1 : Int64) (tz : ℕ) {src : List Int64} (hsrc : ∀ x ∈ src, 0 ≤ x.toInt ∧ x.toInt < 2 ^ 62) :
    ErrorBounded p v src (sumDeltas2 v d1 (lossyDeltas2 p v d1 tz src)) := by
  induction src generalizing v d1 tz with
  | nil => trivial
  | cons x src ih =>
    obtain ⟨hx0, hx62⟩ := hsrc x mem_cons_self
    have hvhi := v.toInt_lt
    have hdist : (x - v).toInt = x.toInt - v.toInt := toInt_sub_of_lt (by omega) (by omega)
    obtain ⟨err, heq, hbound, hsmall⟩ := nearestDelta_error (x - v) d1 hp tz
    rw [hdist] at hbound hsmall
    have hsmall' := hsmall 62 (by rw [abs_lt]; omega)
    have hnext : v + (d1 + (nearestDelta (x - v) d1 p tz).1) = x - Int64.ofInt err := by
      rw [heq]
      grind
    have hint := toInt_sub_error (x := x) (by rw [abs_lt]; omega) hsmall'
    rw [lossyDeltas2, sumDeltas2, hnext]
    rw [abs_lt] at hsmall'
    refine ⟨?_, ih (by rw [hint]; omega) _ _ fun y hy => hsrc y (mem_cons_of_mem _ hy)⟩
    have herr : |x.toInt - err - x.toInt| = |err| := by
      rw [sub_sub_cancel_left, abs_neg]
    rw [hint, herr]
    exact hbound.trans (le_max_right _ _)

/-- Nothing is lost by the encodings without a precision. -/
theorem errorBounded_self (p : ℕ) (v : Int64) (src : List Int64) : ErrorBounded p v src src := by
  induction src generalizing v with
  | nil => trivial
  | cons x src ih =>
    refine ⟨?_, ih x⟩
    rw [sub_self, abs_zero, zero_mul]
    exact le_max_of_le_left (abs_nonneg _)

theorem ErrorBounded.length_eq {p : ℕ} {src src' : List Int64} (h : ErrorBounded p v src src') :
    src'.length = src.length := by
  induction src generalizing v src' with
  | nil =>
    match src' with
    | [] => rfl
  | cons x src ih =>
    match src' with
    | x' :: src' => rw [length_cons, length_cons, ih h.2]

/-- The bound at an index. -/
theorem ErrorBounded.get {p : ℕ} {src src' : List Int64} (h : ErrorBounded p v src src') {i : ℕ}
    {x x' y : Int64} (hx : src[i]? = some x) (hx' : src'[i]? = some x')
    (hy : (v :: src')[i]? = some y) :
    |x'.toInt - x.toInt| * 2 ^ (p - 1) ≤ max |x.toInt| |x.toInt - y.toInt| := by
  induction src generalizing v src' i with
  | nil => simp at hx
  | cons w src ih =>
    match src' with
    | w' :: src' =>
      match i with
      | 0 =>
        simp only [getElem?_cons_zero, Option.some.injEq] at hx hx' hy
        obtain rfl := hx
        obtain rfl := hx'
        obtain rfl := hy
        exact h.1
      | i + 1 =>
        simp only [getElem?_cons_succ] at hx hx' hy
        exact ih h.2 hx hx' hy

/-! ### Counters -/

/-- A counter has no negative item. -/
theorem nonneg_of_countResets {vPrev : Int64} {resets n : ℕ} {a : List Int64}
    (h : countResets vPrev resets a = some n) (hv : 0 ≤ vPrev.toInt) : ∀ x ∈ a, 0 ≤ x.toInt := by
  have hzero : (0 : Int64).toInt = 0 := rfl
  induction a generalizing vPrev resets with
  | nil => simp
  | cons w a ih =>
    rw [countResets] at h
    have hw : 0 ≤ w.toInt ∧ ∃ r, countResets w r a = some n := by
      split_ifs at h with hlt hneg hhigh
      · have := Int64.le_iff_toInt_le.mp (Int64.not_lt.mp hneg)
        exact ⟨by omega, _, h⟩
      · have := Int64.le_iff_toInt_le.mp (Int64.not_lt.mp hlt)
        exact ⟨by omega, _, h⟩
    obtain ⟨hw0, r, hr⟩ := hw
    intro x hx
    rcases mem_cons.mp hx with rfl | hx
    · exact hw0
    · exact ih hr hw0 x hx

theorem nonneg_of_not_isGauge {v0 v1 : Int64} {rest : List Int64}
    (h : ¬ isGauge (v0 :: v1 :: rest)) : ∀ x ∈ v0 :: v1 :: rest, 0 ≤ x.toInt := by
  have hzero : (0 : Int64).toInt = 0 := rfl
  rw [isGauge] at h
  split_ifs at h with hneg
  · simp at h
  · have hv0 := Int64.le_iff_toInt_le.mp (Int64.not_lt.mp hneg)
    cases hresets : countResets v0 0 (v1 :: rest) with
    | none => simp [hresets] at h
    | some n =>
      intro x hx
      rcases mem_cons.mp hx with rfl | hx
      · omega
      · exact nonneg_of_countResets hresets (by omega) x hx

/-! ### The arithmetic of the trailing zeros -/

/-- Addition of `u8`, which aborts on overflow. -/
def checkedAdd8 (a b : UInt8) : Option UInt8 :=
  if a.toNat + b.toNat < 256 then some (a + b) else none

/-- Subtraction of `u8`, which aborts on overflow. -/
def checkedSub8 (a b : UInt8) : Option UInt8 := if b.toNat ≤ a.toNat then some (a - b) else none

/-- A shift, which aborts when the amount is not below the number of bits. -/
def checkedShl64 (u : UInt64) (n : UInt8) : Option UInt64 :=
  if n.toNat < 64 then some (u <<< n.toUInt64) else none

/-- `getTrailingZeros` with the checks of the `u8` arithmetic. -/
def getTrailingZerosChecked (v : Int64) (precisionBits : UInt8) : Option UInt8 := do
  let vBits ← checkedSub8 64 (UInt8.ofNat (64 - bitLen (wrappingAbs v).toUInt64))
  if vBits ≤ precisionBits then some 0 else checkedSub8 vBits precisionBits

/-- `nearestDelta` with the checks of the `u8` arithmetic and of the shift. -/
def nearestDeltaChecked (next prev : Int64) (precisionBits prevTrailingZeros : UInt8) :
    Option (Int64 × UInt8) := do
  let d := next - prev
  let decIfNonZero := UInt8.ofNat (prevTrailingZeros.toNat - 1)
  if d = 0 then some (0, decIfNonZero)
  else
    let originBits ← checkedSub8 64 (UInt8.ofNat (64 - bitLen (wrappingAbs next).toUInt64))
    if originBits ≤ precisionBits then some (d, decIfNonZero)
    else
      let trailingZeros ← checkedSub8 originBits precisionBits
      if trailingZeros > (← checkedAdd8 prevTrailingZeros 4) then
        some (d, ← checkedAdd8 prevTrailingZeros 2)
      else if (← checkedAdd8 trailingZeros 4) < prevTrailingZeros then
        some (d, ← checkedSub8 prevTrailingZeros 2)
      else
        let mask ← checkedShl64 (0 - 1) trailingZeros
        let nd := ((wrappingAbs d).toUInt64 &&& mask).toInt64
        some (if d < 0 then -nd else nd, trailingZeros)

/-- The differences to the given precision, with the checks. -/
def lossyDeltasChecked (precisionBits : UInt8) (v : Int64) (trailingZeros : UInt8) :
    List Int64 → Option (List Int64)
  | [] => some []
  | next :: src => do
    let (d, tzs) ← nearestDeltaChecked next v precisionBits trailingZeros
    let ds ← lossyDeltasChecked precisionBits (v + d) tzs src
    some (d :: ds)

/-- The second differences to the given precision, with the checks. -/
def lossyDeltas2Checked (precisionBits : UInt8) (v d1 : Int64) (trailingZeros : UInt8) :
    List Int64 → Option (List Int64)
  | [] => some []
  | next :: src => do
    let (d2, tzs) ← nearestDeltaChecked (next - v) d1 precisionBits trailingZeros
    let ds ← lossyDeltas2Checked precisionBits (v + (d1 + d2)) (d1 + d2) tzs src
    some (d2 :: ds)

theorem checkedSub8_of_le {a b : UInt8} (h : b.toNat ≤ a.toNat) :
    ∃ c, checkedSub8 a b = some c ∧ c.toNat = a.toNat - b.toNat := by
  refine ⟨a - b, if_pos h, ?_⟩
  rw [UInt8.toNat_sub_of_le _ _ (UInt8.le_iff_toNat_le.mpr h)]

theorem checkedAdd8_of_lt {a b : UInt8} (h : a.toNat + b.toNat < 256) :
    ∃ c, checkedAdd8 a b = some c ∧ c.toNat = a.toNat + b.toNat := by
  refine ⟨a + b, if_pos h, ?_⟩
  rw [UInt8.toNat_add, Nat.mod_eq_of_lt h]

/-- The number of bits of a word is a `u8`. -/
theorem exists_bits (u : UInt64) :
    ∃ c, checkedSub8 64 (UInt8.ofNat (64 - bitLen u)) = some c ∧ c.toNat = bitLen u := by
  have hle := bitLen_le u
  have hsixty : (64 : UInt8).toNat = 64 := rfl
  have hzeros : (UInt8.ofNat (64 - bitLen u)).toNat = 64 - bitLen u := toNat_ofNat_of_lt (by omega)
  obtain ⟨c, hc, hval⟩ := checkedSub8_of_le (a := 64) (b := UInt8.ofNat (64 - bitLen u)) (by omega)
  exact ⟨c, hc, by omega⟩

/-- From a counter below 64 nothing overflows in one step, and the next counter is below 64. -/
theorem nearestDeltaChecked_eq (next prev : Int64) {p tz : UInt8} (hp : 1 ≤ p.toNat)
    (htz : tz.toNat < 64) :
    ∃ tz', nearestDeltaChecked next prev p tz =
        some ((nearestDelta next prev p.toNat tz.toNat).1, tz') ∧
      tz'.toNat = (nearestDelta next prev p.toNat tz.toNat).2 ∧ tz'.toNat < 64 := by
  have hle := bitLen_le (wrappingAbs next).toUInt64
  obtain ⟨bits, hbits, hbitsval⟩ := exists_bits (wrappingAbs next).toUInt64
  have hdec : (UInt8.ofNat (tz.toNat - 1)).toNat = tz.toNat - 1 := toNat_ofNat_of_lt (by omega)
  have hfour : (4 : UInt8).toNat = 4 := rfl
  have htwo : (2 : UInt8).toNat = 2 := rfl
  rw [nearestDeltaChecked, nearestDelta]
  by_cases hd : next - prev = 0
  · refine ⟨UInt8.ofNat (tz.toNat - 1), by simp [hd], ?_, by omega⟩
    simpa [hd, decIfNonZero] using hdec
  by_cases hprec : bitLen (wrappingAbs next).toUInt64 ≤ p.toNat
  · have hprec' : bits ≤ p := UInt8.le_iff_toNat_le.mpr (by omega)
    refine ⟨UInt8.ofNat (tz.toNat - 1), by simp [hd, hbits, hprec, hprec'], ?_, by omega⟩
    simpa [hd, hprec, decIfNonZero] using hdec
  have hprec' : ¬ bits ≤ p := fun h => by
    have := UInt8.le_iff_toNat_le.mp h
    omega
  obtain ⟨t, ht, htval⟩ := checkedSub8_of_le (a := bits) (b := p) (by omega)
  obtain ⟨prev4, hprev4, hprev4val⟩ := checkedAdd8_of_lt (a := tz) (b := 4) (by omega)
  obtain ⟨t4, ht4, ht4val⟩ := checkedAdd8_of_lt (a := t) (b := 4) (by omega)
  by_cases hup : bitLen (wrappingAbs next).toUInt64 - p.toNat > tz.toNat + 4
  · have hup' : t > prev4 := UInt8.lt_iff_toNat_lt.mpr (by omega)
    obtain ⟨tz', htz', htzval⟩ := checkedAdd8_of_lt (a := tz) (b := 2) (by omega)
    refine ⟨tz', by simp [hd, hbits, hprec, hprec', ht, hprev4, hup, hup', htz'], ?_, by omega⟩
    simp [hd, hprec, hup]
    omega
  have hup' : ¬ t > prev4 := fun h => by
    have := UInt8.lt_iff_toNat_lt.mp h
    omega
  by_cases hdown : bitLen (wrappingAbs next).toUInt64 - p.toNat + 4 < tz.toNat
  · have hdown' : t4 < tz := UInt8.lt_iff_toNat_lt.mpr (by omega)
    obtain ⟨tz', htz', htzval⟩ := checkedSub8_of_le (a := tz) (b := 2) (by omega)
    refine ⟨tz', by simp [hd, hbits, hprec, hprec', ht, hprev4, hup, hup', ht4, hdown,
      hdown', htz'], ?_, by omega⟩
    simp [hd, hprec, hup, hdown]
    omega
  have hdown' : ¬ t4 < tz := fun h => by
    have := UInt8.lt_iff_toNat_lt.mp h
    omega
  have hshift : checkedShl64 (0 - 1) t =
      some ((0 - 1) <<< UInt64.ofNat (bitLen (wrappingAbs next).toUInt64 - p.toNat)) := by
    rw [checkedShl64, if_pos (by omega), ← hbitsval, ← htval]
    congr 2
    apply UInt64.toNat_inj.mp
    rw [UInt8.toNat_toUInt64, UInt64.toNat_ofNat', Nat.mod_eq_of_lt (by omega)]
  have hones : (0 - 1 : UInt64) = -1 := rfl
  rw [hones] at hshift
  refine ⟨t, ?_, ?_, by omega⟩
  · simp [hd, hbits, hprec, hprec', ht, hprev4, hup, hup', ht4, hdown, hdown', hshift]
  · simp [hd, hprec, hup, hdown]
    omega

theorem lossyDeltasChecked_eq (v : Int64) {p tz : UInt8} (hp : 1 ≤ p.toNat) (htz : tz.toNat < 64)
    (src : List Int64) :
    lossyDeltasChecked p v tz src = some (lossyDeltas p.toNat v tz.toNat src) := by
  induction src generalizing v tz with
  | nil => rfl
  | cons next src ih =>
    obtain ⟨tz', hstep, hval, hlt⟩ := nearestDeltaChecked_eq next v hp htz
    rw [lossyDeltasChecked, hstep, lossyDeltas]
    simp [ih _ hlt, hval]

theorem lossyDeltas2Checked_eq (v d1 : Int64) {p tz : UInt8} (hp : 1 ≤ p.toNat)
    (htz : tz.toNat < 64) (src : List Int64) :
    lossyDeltas2Checked p v d1 tz src = some (lossyDeltas2 p.toNat v d1 tz.toNat src) := by
  induction src generalizing v d1 tz with
  | nil => rfl
  | cons next src ih =>
    obtain ⟨tz', hstep, hval, hlt⟩ := nearestDeltaChecked_eq (next - v) d1 hp htz
    rw [lossyDeltas2Checked, hstep, lossyDeltas2]
    simp [ih _ _ hlt, hval]

theorem getTrailingZerosChecked_eq (v : Int64) {p : UInt8} (hp : 1 ≤ p.toNat) :
    ∃ tz, getTrailingZerosChecked v p = some tz ∧ tz.toNat = getTrailingZeros v p.toNat ∧
      tz.toNat < 64 := by
  have hle := bitLen_le (wrappingAbs v).toUInt64
  obtain ⟨bits, hbits, hbitsval⟩ := exists_bits (wrappingAbs v).toUInt64
  rw [getTrailingZerosChecked, getTrailingZeros]
  by_cases hprec : bitLen (wrappingAbs v).toUInt64 ≤ p.toNat
  · have hprec' : bits ≤ p := UInt8.le_iff_toNat_le.mpr (by omega)
    exact ⟨0, by simp [hbits, hprec'], by simp [hprec], by decide⟩
  · have hprec' : ¬ bits ≤ p := fun h => by
      have := UInt8.le_iff_toNat_le.mp h
      omega
    obtain ⟨t, ht, htval⟩ := checkedSub8_of_le (a := bits) (b := p) (by omega)
    refine ⟨t, by simp [hbits, hprec', ht], ?_, by omega⟩
    simp [hprec]
    omega

/-- Gauges are written with a greater precision than they ask for when that is low. -/
def gaugePrecision (precisionBits : UInt8) : UInt8 :=
  if precisionBits < 6 then precisionBits + 2 else precisionBits

/-- The differences that are written for `a` when its differences are neither all zero nor all the
same, with the checks. -/
def differencesChecked (a : List Int64) (precisionBits : UInt8) : Option (List Int64) :=
  match a with
  | v0 :: v1 :: rest => do
    if isGauge a then
      let pb := gaugePrecision precisionBits
      let trailingZeros ← getTrailingZerosChecked v0 pb
      lossyDeltasChecked pb v0 trailingZeros (v1 :: rest)
    else
      let trailingZeros ← getTrailingZerosChecked v1 precisionBits
      lossyDeltas2Checked precisionBits v1 (v1 - v0) trailingZeros rest
  | _ => some []

theorem toNat_gaugePrecision {p : UInt8} (hp : 1 ≤ p) (hp63 : p ≤ 63) :
    p.toNat ≤ (gaugePrecision p).toNat ∧ 1 ≤ (gaugePrecision p).toNat ∧
      (gaugePrecision p).toNat < 64 := by
  have hlo := UInt8.le_iff_toNat_le.mp hp
  have hhi := UInt8.le_iff_toNat_le.mp hp63
  have hone : (1 : UInt8).toNat = 1 := rfl
  have hsixty : (63 : UInt8).toNat = 63 := rfl
  have hsix : (6 : UInt8).toNat = 6 := rfl
  have htwo : (2 : UInt8).toNat = 2 := rfl
  rw [gaugePrecision]
  split_ifs with h
  · have hlt := UInt8.lt_iff_toNat_lt.mp h
    rw [UInt8.toNat_add, Nat.mod_eq_of_lt (by omega), htwo]
    omega
  · omega

/-- Nothing overflows while a list is encoded. -/
theorem isSome_differencesChecked (a : List Int64) {p : UInt8} (hp : 1 ≤ p) (hp63 : p ≤ 63) :
    (differencesChecked a p).isSome := by
  have hlo := UInt8.le_iff_toNat_le.mp hp
  have hone : (1 : UInt8).toNat = 1 := rfl
  obtain ⟨-, hpb, -⟩ := toNat_gaugePrecision hp hp63
  match a with
  | [] => rfl
  | [_] => rfl
  | v0 :: v1 :: rest =>
    obtain ⟨tz, htz, -, hlt⟩ := getTrailingZerosChecked_eq v0 hpb
    obtain ⟨tz', htz', -, hlt'⟩ := getTrailingZerosChecked_eq v1 (p := p) (by omega)
    rw [differencesChecked]
    by_cases hg : isGauge (v0 :: v1 :: rest)
    · simp [hg, htz, lossyDeltasChecked_eq v0 hpb hlt]
    · simp [hg, htz', lossyDeltas2Checked_eq v1 (v1 - v0) (p := p) (by omega) hlt']

/-! ### Writing and reading at a precision -/

variable (z : Zstd)

/-- Reading what was written for `a` at a precision gives a list of the same length that starts with
the same item and is near `a`. -/
structure ReadsNear (a : List Int64) (p : UInt8) (enc : Bytes) (mt : MarshalType)
    (firstValue : Int64) (a' : List Int64) : Prop where
  marshal_eq : ∀ dst, marshalInt64Array z dst a p = .ok (dst ++ enc, mt, firstValue)
  unmarshal_eq : ∀ dst, unmarshalInt64Array z dst enc mt firstValue a.length = .ok (dst ++ a')
  head_eq : a'.head? = a.head?
  near : ErrorBounded p.toNat firstValue a.tail a'.tail

theorem checkPrecisionBits_of_lt {p : UInt8} (hp : 1 ≤ p.toNat) (hp64 : p.toNat < 64) :
    checkPrecisionBits p = .ok () ∧ p ≠ 64 := by
  have hsixty : (64 : UInt8).toNat = 64 := rfl
  constructor
  · rw [checkPrecisionBits, if_pos]
    exact ⟨UInt8.le_iff_toNat_le.mpr hp, UInt8.le_iff_toNat_le.mpr (by omega)⟩
  · rintro rfl
    omega

theorem length_lossyDeltas (p : ℕ) (v : Int64) (tz : ℕ) (src : List Int64) :
    (lossyDeltas p v tz src).length = src.length := by
  induction src generalizing v tz with
  | nil => rfl
  | cons next src ih => simp [lossyDeltas, ih]

theorem length_lossyDeltas2 (p : ℕ) (v d1 : Int64) (tz : ℕ) (src : List Int64) :
    (lossyDeltas2 p v d1 tz src).length = src.length := by
  induction src generalizing v d1 tz with
  | nil => rfl
  | cons next src ih => simp [lossyDeltas2, ih]

/-- Written differences are read back and summed up. -/
theorem unmarshalInt64NearestDelta_varInts (dst : List Int64) (v : Int64) (ds : List Int64) :
    unmarshalInt64NearestDelta dst (varInts ds) v (ds.length + 1) =
      .ok (dst ++ v :: sumDeltas v ds) := by
  rw [unmarshalInt64NearestDelta, assert_of (Nat.le_add_left 1 _), ok_bind,
    (isVarInts_varInts ds).unmarshalDeltas_eq, ok_bind]

theorem unmarshalInt64NearestDelta2_isVarInts (dst : List Int64) {e : Bytes} (v0 d1 : Int64)
    {ds : List Int64} (he : IsVarInts e (d1 :: ds)) :
    unmarshalInt64NearestDelta2 dst e v0 (ds.length + 2) =
      .ok (dst ++ v0 :: (v0 + d1) :: sumDeltas2 (v0 + d1) d1 ds) := by
  have hread := he.unmarshalDeltas_eq
  rw [length_cons] at hread
  rw [unmarshalInt64NearestDelta2, assert_of (Nat.le_add_left 2 _), ok_bind, hread,
    ok_bind]

theorem readsNear_gauge (hz : z.RoundTrips) {p : UInt8} (hp : 1 ≤ p) (hp63 : p ≤ 63)
    {a : List Int64}
    (hc : ¬ isConst (v :: a)) (hd : ¬ isDeltaConst (v :: a)) (hg : isGauge (v :: a))
    (ha : ∀ x ∈ a, |x.toInt| < 2 ^ 62) :
    ∃ enc mt a', ReadsNear z (v :: a) p enc mt v a' := by
  have hp1 := UInt8.le_iff_toNat_le.mp hp
  have hone : (1 : UInt8).toNat = 1 := rfl
  obtain ⟨hle, hpb, hpb64⟩ := toNat_gaugePrecision hp hp63
  obtain ⟨hcheck, hne⟩ := checkPrecisionBits_of_lt hpb hpb64
  generalize hds : lossyDeltas (gaugePrecision p).toNat v
    (getTrailingZeros v (gaugePrecision p).toNat) a = ds
  have hlen : ds.length = a.length := hds ▸ length_lossyDeltas _ _ _ _
  obtain ⟨enc, compressed, hwrite, -, hread⟩ := exists_compressed_nearestDelta z hz
    (fun dst => unmarshalInt64NearestDelta_varInts dst v ds) (v :: a).length
  refine ⟨enc, if compressed then .zstdNearestDelta else .nearestDelta, v :: sumDeltas v ds,
    fun dst => ?_, ?_, rfl, ?_⟩
  · have hmarshal : marshalInt64NearestDelta [] (v :: a) (gaugePrecision p) =
        .ok (varInts ds, v) := by
      simp only [marshalInt64NearestDelta, hcheck, hne, if_false, hds, marshalVarInt64s_eq,
        nil_append]
    rw [gaugePrecision] at hmarshal
    simp only [marshalInt64Array, hc, hd, hg, Bool.false_eq_true, if_false, if_true, hmarshal,
      ok_bind, hwrite]
  · rw [length_cons, ← hlen]
    exact hread
  · rw [tail_cons, tail_cons, ← hds]
    exact errorBounded_lossyDeltas (by omega) hle v _ ha

theorem readsNear_counter (hz : z.RoundTrips) {p : UInt8} (hp : 1 ≤ p) (hp63 : p ≤ 63)
    {v0 v1 : Int64} {a : List Int64} (hc : ¬ isConst (v0 :: v1 :: a))
    (hd : ¬ isDeltaConst (v0 :: v1 :: a)) (hg : ¬ isGauge (v0 :: v1 :: a))
    (ha : ∀ x ∈ v1 :: a, |x.toInt| < 2 ^ 62) :
    ∃ enc mt a', ReadsNear z (v0 :: v1 :: a) p enc mt v0 a' := by
  have hp1 := UInt8.le_iff_toNat_le.mp hp
  have hp2 := UInt8.le_iff_toNat_le.mp hp63
  have hone : (1 : UInt8).toNat = 1 := rfl
  have hsixty : (63 : UInt8).toNat = 63 := rfl
  obtain ⟨hcheck, hne⟩ := checkPrecisionBits_of_lt (p := p) (by omega) (by omega)
  have hnonneg := nonneg_of_not_isGauge hg
  have hv1 : v0 + (v1 - v0) = v1 := by grind
  generalize hds : lossyDeltas2 p.toNat v1 (v1 - v0) (getTrailingZeros v1 p.toNat) a = ds
  have hlen : ds.length = a.length := hds ▸ length_lossyDeltas2 _ _ _ _ _
  obtain ⟨e, he, hdst⟩ := marshalVarInt64_spec (v1 - v0)
  obtain ⟨enc, compressed, hwrite, -, hread⟩ := exists_compressed_nearestDelta2 z hz
    (fun dst => unmarshalInt64NearestDelta2_isVarInts dst v0 (v1 - v0)
      (.cons he (isVarInts_varInts ds))) (v0 :: v1 :: a).length
  rw [hv1] at hread
  refine ⟨enc, if compressed then .zstdNearestDelta2 else .nearestDelta2,
    v0 :: v1 :: sumDeltas2 v1 (v1 - v0) ds, fun dst => ?_, ?_, rfl, ?_⟩
  · have hmarshal : marshalInt64NearestDelta2 [] (v0 :: v1 :: a) p = .ok (e ++ varInts ds, v0) := by
      simp only [marshalInt64NearestDelta2, hcheck, hne, if_false, hds, marshalVarInt64s_eq, hdst,
        nil_append]
    simp only [marshalInt64Array, hc, hd, hg, Bool.false_eq_true, if_false, hmarshal,
      ok_bind, hwrite]
  · rw [length_cons, length_cons, ← hlen]
    exact hread
  · rw [tail_cons, tail_cons]
    constructor
    · -- the second item is written with its full difference
      rw [sub_self, abs_zero, zero_mul]
      exact le_max_of_le_left (abs_nonneg _)
    · have hv1lo := hnonneg v1 (by simp)
      rw [← hds]
      refine errorBounded_lossyDeltas2 (by omega) (by omega) _ _ fun x hx => ?_
      exact ⟨hnonneg x (by simp [hx]), (abs_lt.mp (ha x (mem_cons_of_mem _ hx))).2⟩

/-- Constant lists and lists of constant difference are written without loss at any precision. -/
theorem readsNear_of_readsBack {a : List Int64} {p : UInt8} {enc : Bytes} {mt : MarshalType}
    (h : ReadsBack z (v :: a) enc mt v)
    (hsame : ∀ dst, marshalInt64Array z dst (v :: a) p = marshalInt64Array z dst (v :: a) 64) :
    ReadsNear z (v :: a) p enc mt v (v :: a) :=
  ⟨fun dst => (hsame dst).trans (h.marshal_eq dst), h.unmarshal_eq, rfl, errorBounded_self _ _ _⟩

/-- The error of the lossy block codec: decoding gives a list of the same length with the same first
item, in which every item is as near to the encoded one as the precision promises for the item or
for its distance to the item decoded before it; the arithmetic of the counters and shifts stays in
range. -/
theorem marshalInt64Array_error (hz : z.RoundTrips) {p : UInt8} (hp : 1 ≤ p) (hp63 : p ≤ 63)
    {a : List Int64} (hlen : 2 ≤ a.length) (ha : ∀ x ∈ a, |x.toInt| < 2 ^ 62) (dst : Bytes)
    (dst' : List Int64) :
    (differencesChecked a p).isSome ∧
      ∃ enc mt firstValue a',
        marshalInt64Array z dst a p = .ok (dst ++ enc, mt, firstValue) ∧
          unmarshalInt64Array z dst' enc mt firstValue a.length = .ok (dst' ++ a') ∧
          a'.length = a.length ∧ a'.head? = a.head? ∧
          ∀ (i : ℕ) (x x' y : Int64), a[i + 1]? = some x → a'[i + 1]? = some x' → a'[i]? = some y →
            |x'.toInt - x.toInt| * 2 ^ (p.toNat - 1) ≤ max |x.toInt| |x.toInt - y.toInt| := by
  refine ⟨isSome_differencesChecked a hp hp63, ?_⟩
  obtain _ | ⟨v0, _ | ⟨v1, rest⟩⟩ := a
  · exact absurd hlen (by simp)
  · exact absurd hlen (by simp)
  · have htail : ∀ x ∈ v1 :: rest, |x.toInt| < 2 ^ 62 := fun x hx =>
      ha x (mem_cons_of_mem _ hx)
    have hnear : ∃ enc mt a', ReadsNear z (v0 :: v1 :: rest) p enc mt v0 a' := by
      by_cases hc : isConst (v0 :: v1 :: rest)
      · exact ⟨_, _, _, readsNear_of_readsBack z (readsBack_const z hc) fun dst => by
          simp only [marshalInt64Array, hc, if_true]⟩
      by_cases hd : isDeltaConst (v0 :: v1 :: rest)
      · obtain ⟨enc, h⟩ := readsBack_deltaConst z hc hd
        exact ⟨_, _, _, readsNear_of_readsBack z h fun dst => by
          simp only [marshalInt64Array, hc, hd, Bool.false_eq_true, if_false, if_true]⟩
      by_cases hg : isGauge (v0 :: v1 :: rest)
      · exact readsNear_gauge z hz hp hp63 hc hd hg htail
      · exact readsNear_counter z hz hp hp63 hc hd hg htail
    obtain ⟨enc, mt, a', h⟩ := hnear
    obtain ⟨src', rfl⟩ : ∃ src', a' = v0 :: src' := by
      have hhead := h.head_eq
      cases a' with
      | nil => cases hhead
      | cons w src' => exact ⟨src', by rw [Option.some.inj hhead]⟩
    have hnear := h.near
    rw [tail_cons, tail_cons] at hnear
    refine ⟨enc, mt, v0, v0 :: src', h.marshal_eq dst, h.unmarshal_eq dst', ?_, rfl, ?_⟩
    · rw [length_cons, hnear.length_eq, ← length_cons]
    · intro i x x' y hx hx' hy
      exact hnear.get hx hx' hy

/-- A counter with a reset, at 25% precision. -/
theorem marshalInt64Array_error_two :
    (differencesChecked [1000, 3000, 5007, 9000, 100, 177] 2).isSome ∧
      ∃ enc mt firstValue a',
        marshalInt64Array Zstd.stored [7] [1000, 3000, 5007, 9000, 100, 177] 2 =
            .ok ([7] ++ enc, mt, firstValue) ∧
          unmarshalInt64Array Zstd.stored [5] enc mt firstValue 6 = .ok ([5] ++ a') ∧
          a'.length = 6 ∧ a'.head? = some 1000 ∧
          ∀ (i : ℕ) (x x' y : Int64), [1000, 3000, 5007, 9000, 100, 177][i + 1]? = some x →
            a'[i + 1]? = some x' → a'[i]? = some y →
            |x'.toInt - x.toInt| * 2 ^ ((2 : UInt8).toNat - 1) ≤
              max |x.toInt| |x.toInt - y.toInt| :=
  marshalInt64Array_error Zstd.stored Zstd.roundTrips_stored (p := 2) (by decide) (by decide)
    (by decide) (by simp [abs_lt]) [7] [5]

end Esmetrics
