import Esmetrics.Lib.FixedWidth
import Esmetrics.Protoparser.FastFloat

/-!
# Printed numbers

Model of the printers of numbers of `esm-select/src/json.rs`. `Display` of `f64`, the printer of the
standard library, is a parameter. A printed integer is a decimal number without leading zeros, and
the parser of floating-point numbers reads it back (`fastfloatParse_printInteger`).
-/

namespace Esmetrics.Select

open List

open Protoparser

variable {F : Type}

/-- The operations on `f64` that the printers use too. -/
structure F64Print (F : Type) extends F64Ops F where
  isNan : F → Bool
  isInfinite : F → Bool
  /-- `_ > 0.0`. -/
  isPositive : F → Bool
  /-- `(-9_223_372_036_854_775_808.0..9_223_372_036_854_775_808.0).contains(_)`. -/
  inI64Range : F → Bool
  /-- `==`. -/
  eq : F → F → Bool
  /-- `write!(_, "{}")`. -/
  display : F → Bytes

variable (ops : F64Print F)

/-- What `append_qt_float` writes. -/
def appendQtFloat (f : F) : Bytes :=
  if ops.isNan f then ascii "NaN"
  else if ops.isInfinite f then (if ops.isPositive f then ascii "+Inf" else ascii "-Inf")
  else if ops.inI64Range f && ops.eq (ops.ofInt (ops.toI64 f)) f then printInteger (ops.toI64 f)
  else ops.display f

/-- What `append_i64` writes. -/
def appendI64 (n : ℤ) : Bytes := printInteger n

/-- The digits of a printed natural number. -/
theorem printInteger_natCast (n : ℕ) :
    printInteger n = (Nat.toDigits 10 n).map fun c => c.toUInt8 := by
  have htext : (toString (n : ℤ)).toList = Nat.toDigits 10 n := Nat.toList_repr
  exact congrArg (List.map fun c : Char => c.toUInt8) htext

theorem printInteger_negSucc (n : ℕ) : printInteger (Int.negSucc n) =
    '-'.toUInt8 :: printInteger (n + 1 : ℕ) := by
  have htoString : toString (Int.negSucc n) = "-" ++ toString ((n + 1 : ℕ) : ℤ) := rfl
  have htoList := congrArg String.toList htoString
  rw [String.toList_append] at htoList
  exact congrArg (List.map fun c : Char => c.toUInt8) htoList

theorem isAsciiDigit_digitChar {d : ℕ} (h : d < 10) :
    isAsciiDigit d.digitChar.toUInt8 = true ∧ digitValue d.digitChar.toUInt8 = d := by
  revert d
  decide

/-- Reading all of some digits. -/
theorem scanDigits_of_digits {slow : ℕ → ℕ → Bool} {s : Bytes}
    (h : ∀ b ∈ s, isAsciiDigit b = true) (d i : ℕ)
    (hslow : ∀ d' j, j ≤ i + s.length → slow d' j = false) :
    scanDigits slow s d i = some (s.foldl (fun d b => d * 10 + digitValue b) d,
      i + s.length, []) := by
  induction s generalizing d i with
  | nil => rfl
  | cons b s ih =>
    rw [length_cons] at hslow
    have hb := h b mem_cons_self
    have hfast := hslow (d * 10 + digitValue b) (i + 1) (by omega)
    rw [scanDigits, if_pos hb]
    dsimp only
    rw [hfast, if_neg Bool.false_ne_true,
      ih (fun b' hb' => h b' (mem_cons_of_mem b hb')) _ _ fun d' j hj => hslow d' j (by omega),
      foldl_cons, length_cons, Nat.add_right_comm, Nat.add_assoc]

theorem toDigits_digits (n : ℕ) :
    (∀ b ∈ (Nat.toDigits 10 n).map fun c => c.toUInt8, isAsciiDigit b = true) ∧
      ((Nat.toDigits 10 n).map fun c => c.toUInt8).foldl
      (fun d b => d * 10 + digitValue b) 0 = n := by
  induction n using Nat.strongRecOn with
  | ind n ih =>
    by_cases hn : n < 10
    · rw [Nat.toDigits_of_lt_base hn]
      obtain ⟨hdigit, hvalue⟩ := isAsciiDigit_digitChar hn
      refine ⟨?_, ?_⟩
      · simpa using hdigit
      · simpa using hvalue
    · obtain ⟨hdigits, hfold⟩ := ih (n / 10) (by omega)
      obtain ⟨hdigit, hvalue⟩ := isAsciiDigit_digitChar (Nat.mod_lt n (by omega : 0 < 10))
      rw [Nat.toDigits_of_base_le (by omega) (by omega), map_append, map_singleton]
      refine ⟨fun b hb => ?_, ?_⟩
      · obtain hb | hb := mem_append.mp hb
        · exact hdigits b hb
        · rw [mem_singleton.mp hb]
          exact hdigit
      · rw [foldl_append, hfold, foldl_cons, foldl_nil, hvalue]
        omega

/-- A printed integer has no leading zeros. -/
theorem head?_toDigits {n : ℕ} (hn : 0 < n) :
    ((Nat.toDigits 10 n).map fun c => c.toUInt8).head? ≠ some '0'.toUInt8 := by
  induction n using Nat.strongRecOn with
  | ind n ih =>
    by_cases hlt : n < 10
    · have hall : ∀ d, d < 10 → 0 < d → d.digitChar.toUInt8 ≠ '0'.toUInt8 := by decide
      rw [Nat.toDigits_of_lt_base hlt]
      exact fun heq => hall n hlt hn (Option.some.inj heq)
    · have hne : (Nat.toDigits 10 (n / 10)).map (fun c => c.toUInt8) ≠ [] := by simp
      rw [Nat.toDigits_of_base_le (by omega) (by omega), map_append, head?_append_of_ne_nil _ hne]
      exact ih (n / 10) (by omega) (by omega)

/-- **A printed integer is read back.** -/
theorem fastfloatParse_printInteger (ops : F64Ops F) {n : ℕ} (h : n < 10 ^ 18) :
    fastfloatParse ops (printInteger n) = .ok (ops.ofInt n) := by
  rw [printInteger_natCast]
  obtain ⟨hdigits, hfold⟩ := toDigits_digits n
  have hlength : ((Nat.toDigits 10 n).map fun c => c.toUInt8).length ≤ 18 := by
    rw [length_map]
    exact (Nat.length_toDigits_le_iff (by omega) (by omega)).mpr h
  have hne : (Nat.toDigits 10 n).map (fun c => c.toUInt8) ≠ [] := by
    simp
  generalize (Nat.toDigits 10 n).map (fun c => c.toUInt8) = s at hdigits hfold hlength hne
  have hslow : ∀ d j : ℕ, j ≤ 0 + s.length → (fun _ i => decide (i > 18)) d j = false :=
    fun d j hj =>
    decide_eq_false (by omega)
  have hscan := scanDigits_of_digits hdigits 0 0 hslow
  cases s with
  | nil => exact absurd rfl hne
  | cons b s =>
    have hb := hdigits b mem_cons_self
    have hminus : b ≠ '-'.toUInt8 := by
      rintro rfl
      exact absurd hb (by decide)
    have hpoint : b ≠ '.'.toUInt8 := by
      rintro rfl
      exact absurd hb (by decide)
    rw [fastfloatParse, if_neg hminus, parseUnsigned, if_neg (by simp [hpoint]), hscan]
    dsimp only
    rw [if_neg (by simp), hfold, parseFraction]
    rfl

/-- All NaNs are read as one. -/
def canonicalNan (f : F) : F := if ops.isNan f then ops.nan else f

/-- Exact arithmetic, in place of that of floating-point numbers. -/
def integerPrint : F64Print ℤ where
  toF64Ops := integerOps
  isNan _ := false
  isInfinite _ := false
  isPositive n := n > 0
  inI64Range n := -(2 ^ 63) ≤ n ∧ n < 2 ^ 63
  eq m n := m = n
  display := printInteger

theorem decimalValue_printInteger (n : ℕ) : decimalValue (printInteger n) = some n := by
  rw [printInteger_natCast]
  obtain ⟨hdigits, hfold⟩ := toDigits_digits n
  have hne : (Nat.toDigits 10 n).map (fun c => c.toUInt8) ≠ [] := by
    simp
  rw [decimalValue, if_neg (mt List.isEmpty_iff.mp hne),
    scanDigits_of_digits hdigits 0 0 fun _ _ _ => rfl, hfold]

/-- A printed natural number has no sign. -/
theorem head?_printInteger (n : ℕ) :
    (printInteger n).head? ≠ some '-'.toUInt8 ∧ (printInteger n).head? ≠ some '+'.toUInt8 := by
  rw [printInteger_natCast]
  refine ⟨fun h => ?_, fun h => ?_⟩
  · exact absurd ((toDigits_digits n).1 _ (mem_of_head? h)) (by decide)
  · exact absurd ((toDigits_digits n).1 _ (mem_of_head? h)) (by decide)

/-- **A printed integer is an integer.** -/
theorem strParseI64_printInteger {n : ℤ} (hle : -(2 ^ 63) ≤ n) (hlt : n < 2 ^ 63) :
    strParseI64 (printInteger n) = some n := by
  rw [strParseI64]
  cases n with
  | ofNat k =>
    have hk := decimalValue_printInteger k
    obtain ⟨hminus, hplus⟩ := head?_printInteger k
    dsimp only
    rw [Int.ofNat_eq_natCast] at hle hlt ⊢
    rw [if_neg (not_or.mpr ⟨hminus, hplus⟩), hk]
    dsimp only
    rw [if_neg hminus, if_pos ⟨hle, hlt⟩]
  | negSucc k =>
    have hk := decimalValue_printInteger (k + 1)
    rw [Int.negSucc_eq] at hle hlt
    have hminus : ('-'.toUInt8 :: printInteger (k + 1 : ℕ)).head? = some '-'.toUInt8 := rfl
    rw [printInteger_negSucc]
    dsimp only
    rw [if_pos (.inl hminus), tail_cons, hk]
    dsimp only
    rw [if_pos hminus, Int.negSucc_eq, Nat.cast_succ, if_pos ⟨hle, hlt⟩]

theorem strParseU64_printInteger {n : ℕ} (h : n < 2 ^ 64) :
    strParseU64 (printInteger n) = some n := by
  rw [strParseU64, if_neg (head?_printInteger n).2, decimalValue_printInteger]
  exact if_pos h

end Esmetrics.Select
