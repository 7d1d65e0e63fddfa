import Mathlib

/-!
# Linear orders on the fixed-width integers

Core Lean compares `UInt8 … UInt64` and `Int64` through their values (`toNat`, `toInt`) but
bundles no `LinearOrder`. The instances below reuse core's own `≤`, `<`, `compare`, `min` and
`max`, so nothing is redefined: they only make the order lemmas of mathlib, and its
lexicographic order on lists, available at machine integers.
-/

namespace Esmetrics

/-- Byte strings (`Vec<u8>`, `&[u8]`). -/
abbrev Bytes := List UInt8

/-- The bytes of an ASCII literal (`b"…"`). -/
def ascii (s : String) : Bytes := s.toList.map fun c => c.toUInt8

/-- `b'"'`. -/
def quote : UInt8 := '"'.toUInt8

/-- `b'\\'`. -/
def backslash : UInt8 := '\\'.toUInt8

/-- `i64::MAX`. -/
def i64Max : ℤ := 2 ^ 63 - 1

/-- `u8::is_ascii_digit`. -/
def isAsciiDigit (b : UInt8) : Bool := '0'.toUInt8 ≤ b && b ≤ '9'.toUInt8

theorem isAsciiDigit_iff {b : UInt8} : isAsciiDigit b = true ↔ 48 ≤ b.toNat ∧ b.toNat ≤ 57 := by
  rw [isAsciiDigit, Bool.and_eq_true, decide_eq_true_eq, decide_eq_true_eq]
  rfl

/-- The value of a hexadecimal digit. -/
def hexVal (b : UInt8) : Option UInt8 :=
  if '0'.toUInt8 ≤ b ∧ b ≤ '9'.toUInt8 then some (b - '0'.toUInt8)
  else if 'a'.toUInt8 ≤ b ∧ b ≤ 'f'.toUInt8 then some (b - 'a'.toUInt8 + 10)
  else if 'A'.toUInt8 ≤ b ∧ b ≤ 'F'.toUInt8 then some (b - 'A'.toUInt8 + 10)
  else none

/-- A string is cut in one way only at the first occurrence of a separator. -/
theorem append_cons_inj_of_not_mem {α : Type*} [DecidableEq α] {c : α} {x x' y y' : List α}
    (hx : c ∉ x) (hx' : c ∉ x') (h : x ++ c :: y = x' ++ c :: y') : x = x' ∧ y = y' := by
  have hlen := congrArg (List.idxOf c) h
  rw [List.idxOf_append, List.idxOf_append, if_neg hx, if_neg hx'] at hlen
  simp only [List.idxOf_cons_self, Nat.zero_add] at hlen
  obtain ⟨hxx', hyy'⟩ := List.append_inj h hlen
  exact ⟨hxx', (List.cons.inj hyy').2⟩

instance linearOrderUInt8 : LinearOrder UInt8 where
  toLE := instLEUInt8
  toLT := instLTUInt8
  le_refl := UInt8.le_refl
  le_trans _ _ _ := UInt8.le_trans
  le_antisymm _ _ := UInt8.le_antisymm
  le_total := UInt8.le_total
  lt_iff_le_not_ge a b := by grind
  toDecidableLE := inferInstance
  toDecidableLT := inferInstance
  toDecidableEq := inferInstance

instance linearOrderUInt16 : LinearOrder UInt16 where
  toLE := instLEUInt16
  toLT := instLTUInt16
  le_refl := UInt16.le_refl
  le_trans _ _ _ := UInt16.le_trans
  le_antisymm _ _ := UInt16.le_antisymm
  le_total := UInt16.le_total
  lt_iff_le_not_ge a b := by grind
  toDecidableLE := inferInstance
  toDecidableLT := inferInstance
  toDecidableEq := inferInstance

instance linearOrderUInt32 : LinearOrder UInt32 where
  toLE := instLEUInt32
  toLT := instLTUInt32
  le_refl := UInt32.le_refl
  le_trans _ _ _ := UInt32.le_trans
  le_antisymm _ _ := UInt32.le_antisymm
  le_total := UInt32.le_total
  lt_iff_le_not_ge a b := by grind
  toDecidableLE := inferInstance
  toDecidableLT := inferInstance
  toDecidableEq := inferInstance

instance linearOrderUInt64 : LinearOrder UInt64 where
  toLE := instLEUInt64
  toLT := instLTUInt64
  le_refl := UInt64.le_refl
  le_trans _ _ _ := UInt64.le_trans
  le_antisymm _ _ := UInt64.le_antisymm
  le_total := UInt64.le_total
  lt_iff_le_not_ge a b := by grind
  toDecidableLE := inferInstance
  toDecidableLT := inferInstance
  toDecidableEq := inferInstance

instance linearOrderInt64 : LinearOrder Int64 where
  toLE := instLEInt64
  toLT := instLTInt64
  le_refl := Int64.le_refl
  le_trans _ _ _ := Int64.le_trans
  le_antisymm _ _ := Int64.le_antisymm
  le_total := Int64.le_total
  lt_iff_le_not_ge a b := by grind
  toDecidableLE := inferInstance
  toDecidableLT := inferInstance
  toDecidableEq := inferInstance

/-! ### Lawful equality

The orders above offer a second way to `LawfulBEq`. These instances keep every decision of a
membership on the one of core Lean. -/

instance lawfulBEqUInt8 : LawfulBEq UInt8 := instLawfulBEq
instance lawfulBEqUInt64 : LawfulBEq UInt64 := instLawfulBEq
instance lawfulBEqBytes : LawfulBEq Bytes := inferInstance
instance lawfulBEqBytesPair : LawfulBEq (Bytes × Bytes) := inferInstance

/-! ### Signed arithmetic without overflow -/

theorem toInt_add_of_lt {a b : Int64} (hlo : -2 ^ 63 ≤ a.toInt + b.toInt)
    (hhi : a.toInt + b.toInt < 2 ^ 63) : (a + b).toInt = a.toInt + b.toInt := by
  rw [Int64.toInt_add]
  exact Int.bmod_eq_of_le (by omega) (by omega)

theorem toInt_sub_of_lt {a b : Int64} (hlo : -2 ^ 63 ≤ a.toInt - b.toInt)
    (hhi : a.toInt - b.toInt < 2 ^ 63) : (a - b).toInt = a.toInt - b.toInt := by
  rw [Int64.toInt_sub]
  exact Int.bmod_eq_of_le (by omega) (by omega)

end Esmetrics
