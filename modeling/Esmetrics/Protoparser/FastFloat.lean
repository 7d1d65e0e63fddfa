import Esmetrics.Lib.FixedWidth

/-!
# Numbers in text

Model of the parsers of numbers in text: `parse_int64`, `parse_uint64` and `parse_best_effort` of
`esm-protoparser/src/influx.rs`, `parse_prom_float` of `prometheus.rs` and `parse` of
`fastfloat.rs`. The last three read the same numbers; the first of them gives zero for what is not
one, and the others an error. The operations on floating-point numbers and the parser of the
standard library are parameters.

A text is the list of its bytes, and an error message the list of its pieces.
-/

namespace Esmetrics.Protoparser

/-- A piece of an error message. -/
inductive Piece
  | text (s : String)
  /-- A text that is written with its escapes, by `{:?}`. -/
  | debug (s : Bytes)
  | display (s : Bytes)
  /-- The message of an error of the standard library. -/
  | stdError
deriving DecidableEq

abbrev Message := List Piece

theorem exists_of_bind_eq_ok {ε α β : Type} {x : Except ε α} {f : α → Except ε β} {b : β}
    (h : (x >>= f) = .ok b) : ∃ a, x = .ok a ∧ f a = .ok b := by
  cases x with
  | error err => exact nomatch h
  | ok a => exact ⟨a, rfl, h⟩

/-- The operations on `f64` that the parsers use. -/
structure F64Ops (F : Type) where
  /-- The conversion of an integer. -/
  ofInt : ℤ → F
  infinity : F
  nan : F
  neg : F → F
  mul : F → F → F
  div : F → F → F
  /-- The literals `1e0`, `1e1` and so on. -/
  pow10 : ℕ → F
  /-- `10f64.powi(_)`. -/
  powi10 : ℤ → F
  /-- `str::parse`. -/
  strParse : Bytes → Option F
  /-- `(-2_147_483_648.0..2_147_483_648.0).contains(_)`. -/
  inSecondsRange : F → Bool
  /-- `_ as i64`. -/
  toI64 : F → ℤ

def digitValue (b : UInt8) : ℕ := (b - '0'.toUInt8).toNat

/-- Reads digits; gives up as soon as `slow` holds of the number and the position. -/
def scanDigits (slow : ℕ → ℕ → Bool) : Bytes → ℕ → ℕ → Option (ℕ × ℕ × Bytes)
  | [], d, i => some (d, i, [])
  | b :: rest, d, i =>
    if isAsciiDigit b then
      let d := d * 10 + digitValue b
      let i := i + 1
      if slow d i then none else scanDigits slow rest d i
    else some (d, i, b :: rest)

/-! ### Integers -/

/-- The digits of a decimal number, or `none`. -/
def decimalValue (s : Bytes) : Option ℕ :=
  if s.isEmpty then none
  else match scanDigits (fun _ _ => false) s 0 0 with
    | some (d, _, []) => some d
    | _ => none

/-- `str::parse::<i64>`. -/
def strParseI64 (s : Bytes) : Option ℤ :=
  let minus := s.head? = some '-'.toUInt8
  let digits := if minus ∨ s.head? = some '+'.toUInt8 then s.tail else s
  match decimalValue digits with
  | none => none
  | some d =>
    let n : ℤ := if minus then -d else d
    if -(2 ^ 63) ≤ n ∧ n < 2 ^ 63 then some n else none

/-- `str::parse::<u64>`. -/
def strParseU64 (s : Bytes) : Option ℕ :=
  let digits := if s.head? = some '+'.toUInt8 then s.tail else s
  match decimalValue digits with
  | none => none
  | some d => if d < 2 ^ 64 then some d else none

/-- `parse_int64` and `parse_uint64` after the sign. -/
def parseDigits (kind : String) (s rest : Bytes) (i : ℕ) (slowParse : Option ℤ) (minus : Bool) :
    Except Message ℤ :=
  match scanDigits (fun _ i => i > 18) rest 0 i with
  | none =>
    match slowParse with
    | some n => .ok n
    | none => .error [.text ("cannot parse " ++ kind ++ " from "), .debug s, .text ": ", .stdError]
  | some (d, i', rest) =>
    if i' ≤ i then .error [.text ("cannot parse " ++ kind ++ " from "), .debug s]
    else if ¬ rest.isEmpty then
      .error [.text ("unparsed tail left after parsing " ++ kind ++ " from "), .debug s, .text ": ",
        .debug rest]
    else .ok (if minus then -(d : ℤ) else d)

def parseInt64 (s : Bytes) : Except Message ℤ :=
  match s with
  | [] => .error [.text "cannot parse int64 from empty string"]
  | b :: rest =>
    if b = '-'.toUInt8 then
      if rest.isEmpty then .error [.text "cannot parse int64 from ", .debug s]
      else parseDigits "int64" s rest 1 (strParseI64 s) true
    else parseDigits "int64" s s 0 (strParseI64 s) false

def parseUint64 (s : Bytes) : Except Message ℤ :=
  match s with
  | [] => .error [.text "cannot parse uint64 from empty string"]
  | _ => parseDigits "uint64" s s 0 ((strParseU64 s).map Nat.cast) false

/-! ### Floating-point numbers -/

section Float

variable {F : Type} (ops : F64Ops F)

def signed (minus : Bool) (f : F) : F := if minus then ops.neg f else f

/-- `str::parse` with the message for its error. -/
def slowFloat (what : String) (s : Bytes) : Except Message F :=
  match ops.strParse s with
  | some f => .ok f
  | none => .error [.text ("cannot parse " ++ what), .debug s, .text ": ", .stdError]

def toAsciiLowercase (b : UInt8) : UInt8 :=
  if 'A'.toUInt8 ≤ b && b ≤ 'Z'.toUInt8 then b + 32 else b

def eqIgnoreAsciiCase (s t : Bytes) : Bool :=
  s.map toAsciiLowercase = t.map toAsciiLowercase

/-- What is not a number may be the name of one. -/
def parseNamed (s rest : Bytes) (minus : Bool) : Except Message F :=
  let tail := if rest.head? = some '+'.toUInt8 then rest.tail else rest
  if eqIgnoreAsciiCase tail (ascii "inf") || eqIgnoreAsciiCase tail (ascii "infinity") then
    .ok (signed ops minus ops.infinity)
  else if eqIgnoreAsciiCase tail (ascii "nan") then .ok ops.nan
  else .error [.text "unparsed tail left after parsing float64 from ", .debug s, .text ": ",
    .debug tail]

/-- The exponent, and the end of the number. -/
def parseExponent (s : Bytes) (minus : Bool) (f : F) (rest : Bytes) : Except Message F :=
  match rest with
  | [] => .ok (signed ops minus f)
  | b :: rest =>
    if b = 'e'.toUInt8 ∨ b = 'E'.toUInt8 then
      let expMinus := rest.head? = some '-'.toUInt8
      let digits := if expMinus ∨ rest.head? = some '+'.toUInt8 then rest.tail else rest
      match scanDigits (fun exp _ => exp > 300) digits 0 0 with
      | none => slowFloat ops "exponent in " s
      | some (exp, n, rest) =>
        if n = 0 then .error [.text "cannot parse exponent in ", .debug s]
        else if rest.isEmpty then
          .ok (signed ops minus (ops.mul f (ops.powi10 (if expMinus then -(exp : ℤ) else exp))))
        else .error [.text "cannot parse float64 from ", .debug s]
    else .error [.text "cannot parse float64 from ", .debug s]

/-- The part after the integer `d` of so many digits. -/
def parseFraction (s : Bytes) (minus : Bool) (d digits : ℕ) (rest : Bytes) : Except Message F :=
  match rest with
  | [] => .ok (signed ops minus (ops.ofInt d))
  | b :: rest' =>
    if b = '.'.toUInt8 then
      -- the sign is not applied when the fractional part is elided
      if rest'.isEmpty then .ok (ops.ofInt d)
      else match scanDigits (fun _ i => i ≥ 17) rest' d (digits + 1) with
        | none => slowFloat ops "mantissa in " s
        | some (d, i, rest) =>
          parseExponent ops s minus (ops.div (ops.ofInt d) (ops.pow10 (i - (digits + 1)))) rest
    else parseExponent ops s minus (ops.ofInt d) rest

/-- The number after the sign, at position `i`. -/
def parseUnsigned (s rest : Bytes) (i : ℕ) (minus : Bool) : Except Message F :=
  if rest.head? = some '.'.toUInt8 ∧ ¬ (rest.tail.head?.map isAsciiDigit).getD false then
    .error [.text "missing integer and fractional part in ", .debug s]
  else match scanDigits (fun _ i => i > 18) rest 0 i with
    | none => slowFloat ops "float64 from " s
    | some (d, i', rest') =>
      if i' ≤ i ∧ rest'.head? ≠ some '.'.toUInt8 then parseNamed ops s rest' minus
      else parseFraction ops s minus d (i' - i) rest'

/-- `fastfloat::parse`. -/
def fastfloatParse (s : Bytes) : Except Message F :=
  match s with
  | [] => .error [.text "cannot parse float64 from empty string"]
  | b :: rest =>
    if b = '-'.toUInt8 then
      if rest.isEmpty then .error [.text "cannot parse float64 from ", .debug s]
      else parseUnsigned ops s rest 1 true
    else parseUnsigned ops s s 0 false

def parsePromFloat (s : Bytes) : Except Message F := fastfloatParse ops s

def parseBestEffort (s : Bytes) : F :=
  match fastfloatParse ops s with
  | .ok f => f
  | .error _ => ops.ofInt 0

end Float

/-- Exact arithmetic, in place of that of floating-point numbers. -/
def integerOps : F64Ops ℤ where
  ofInt := id
  infinity := 0
  nan := 0
  neg := fun n => -n
  mul := fun m n => m * n
  div := fun m n => m / n
  pow10 := fun n => 10 ^ n
  powi10 := fun n => 10 ^ n.toNat
  strParse := fun _ => none
  inSecondsRange := fun n => -(2 ^ 31) ≤ n ∧ n < 2 ^ 31
  toI64 := id

def printInteger (n : ℤ) : Bytes := ascii (toString n)

end Esmetrics.Protoparser
