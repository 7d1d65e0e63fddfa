import Mathlib.Algebra.Group.Nat.Defs
import Mathlib.Logic.Function.Iterate
import Mathlib.Tactic.Common

/-!
# Decimal values

Model of the part of `esm-common/src/decimal.rs` that brings decimal values to a common exponent:
`calibrateScale` two lists of values that have one each, with a loss of digits where the integers
would overflow, and `appendFloatToDecimal` a list of floats, of which `fromFloat` makes a value and
an exponent each. Lists that have one exponent already stay as they are (`calibrateScale_self`).
-/

namespace Esmetrics

/-- The bits of the staleness mark. -/
def staleNanBits : UInt64 := 0x7ff0000000000002

/-- The maximum decimal value; the values above it stand for positive infinity and the staleness
mark. -/
def vMax : Int64 := Int64.maxValue - 2

/-- The minimum decimal value; the value below it stands for negative infinity. -/
def vMin : Int64 := Int64.minValue + 1

def isSpecialValue (v : Int64) : Bool := !(vMin ≤ v && v ≤ vMax)

/-- The powers of ten that fit an `i64`. -/
def decimalMultipliers : List Int64 := (List.range 19).map fun e => Int64.ofNat (10 ^ e)

def getDecimalMultiplier (exp : UInt16) : Int64 := decimalMultipliers.getD exp.toNat 1

/-- The greatest power of ten that `v` can be multiplied by. -/
def maxUpExponent (v : Int64) : Int16 :=
  if v = 0 || isSpecialValue v then 1024
  else
    let v := if v < 0 then -v else v
    -- the corner case of the least integer
    if v < 0 then 0
    else
      match (List.range' 1 18).reverse.find? fun e =>
        v ≤ Int64.maxValue / decimalMultipliers.getD e 1 with
      | some e => Int16.ofNat e
      | none => 0

/-- Multiplies the values, special ones apart. -/
def scaleUp (upExp : Int16) (values : List Int64) : List Int64 :=
  if upExp > 0 then
    let m := getDecimalMultiplier upExp.toUInt16
    values.map fun v => if isSpecialValue v then v else v * m
  else values

/-- Divides the values, special ones apart. -/
def scaleDown (downExp : Int16) (values : List Int64) : List Int64 :=
  if downExp > 0 then
    if downExp > 18 then values.map fun v => if isSpecialValue v then v else 0
    else
      let m := getDecimalMultiplier downExp.toUInt16
      values.map fun v => if isSpecialValue v then v else v / m
  else values

/-- The exponent by which the values with the lower exponent are divided. -/
def downExponent (upExp : Int16) (values : List Int64) : Int16 :=
  values.foldl (fun downExp v =>
    let maxUpExp := maxUpExponent v
    if upExp - maxUpExp > downExp then upExp - maxUpExp else downExp) 0

/-- Brings the values `a` with exponent `ae`, which is the greater one, and `b` with exponent `be`
to one exponent. -/
def calibrateOrdered (a : List Int64) (ae : Int16) (b : List Int64) (be : Int16) :
    List Int64 × List Int64 × Int16 :=
  let upExp := ae - be
  let downExp := downExponent upExp a
  (scaleUp (upExp - downExp) a, scaleDown downExp b, be + downExp)

/-- Brings two lists of values to one exponent. -/
def calibrateScale (a : List Int64) (ae : Int16) (b : List Int64) (be : Int16) :
    List Int64 × List Int64 × Int16 :=
  if ae = be then (a, b, ae)
  else if a = [] then (a, b, be)
  else if b = [] then (a, b, ae)
  else if ae < be then
    let (b, a, e) := calibrateOrdered b be a ae
    (a, b, e)
  else calibrateOrdered a ae b be

theorem calibrateScale_self (a b : List Int64) (e : Int16) : calibrateScale a e b e = (a, b, e) :=
  if_pos rfl

/-- Two values of different exponents are brought to the lower one, and digits are lost where the
integers would overflow. -/
example : calibrateScale [12] 1 [345] (-1) = ([1200], [345], -1) ∧
    calibrateScale [123456789012345678] 3 [345] (-1) =
      ([1234567890123456780], [0], 2) := by
  decide +kernel

/-! ### Floats -/

/-- The bits of the floats are those of `0.0`. -/
def isFloat64Zeros (a : List UInt64) : Bool := a.all (· == 0)

/-- The bits of the floats are those of `1.0`. -/
def isFloat64Ones (a : List UInt64) : Bool := a.all (· == 0x3ff0000000000000)

/-- The two loops that multiply and divide by ten until `adjExp` is zero. -/
def adjustExponent (v : Int64) (adjExp : Int16) : Int64 :=
  (· / 10)^[(-adjExp.toInt).toNat] ((· * 10)^[adjExp.toInt.toNat] v)

/-- The least exponent of the values that are not special. -/
def minExponent (vea : List (Int64 × Int16)) : Int16 :=
  vea.foldl (fun minExp ve => if ve.2 < minExp && !isSpecialValue ve.1 then ve.2 else minExp)
    Int16.maxValue

/-- The exponent by which the least one must be raised so that all values may be upscaled to it. -/
def excessExponent (minExp : Int16) (vea : List (Int64 × Int16)) : Int16 :=
  vea.foldl (fun downExp ve =>
    let upExp := ve.2 - minExp
    let maxUpExp := maxUpExponent ve.1
    if upExp - maxUpExp > downExp then upExp - maxUpExp else downExp) 0

/-- Appends the values of the floats `src`, given by their bits, at a common exponent. -/
def appendFloatToDecimal (fromFloat : UInt64 → Int64 × Int16) (dst : List Int64)
    (src : List UInt64) : List Int64 × Int16 :=
  if src = [] then (dst, 0)
  else if isFloat64Zeros src then (dst ++ List.replicate src.length 0, 0)
  else if isFloat64Ones src then (dst ++ List.replicate src.length 1, 0)
  else
    let vea := src.map fromFloat
    let minExp := minExponent vea
    let minExp := minExp + excessExponent minExp vea
    (dst ++ vea.map fun ve =>
      if isSpecialValue ve.1 then ve.1 else adjustExponent ve.1 (ve.2 - minExp), minExp)

end Esmetrics
