import Esmetrics.Lib.JsonText
import Esmetrics.Protoparser.FastFloat

/-!
# JSON lines

Model of `Rows::unmarshal` of `esm-protoparser/src/vmimport.rs`. A line that fails is skipped and
its error is logged: a text gives its rows and errors in the order of the lines. The JSON parser and
the conversions of its numbers are parameters.
-/

namespace Esmetrics.Protoparser.Vmimport

structure Row (F : Type) where
  tags : List (Bytes × Bytes)
  values : List F
  timestamps : List ℤ

/-- Why a line is skipped. -/
inductive ParseError where
  /-- cannot parse json line -/
  | json
  /-- missing `metric` object -/
  | missingMetric
  /-- missing tags -/
  | missingTags
  /-- missing `values` array -/
  | missingValues
  /-- cannot unmarshal value at a position -/
  | value (i : ℕ)
  /-- missing `timestamps` array -/
  | missingTimestamps
  /-- cannot unmarshal timestamp at a position: not an integer -/
  | timestamp (i : ℕ)
  /-- `timestamps` array size must match `values` array size -/
  | sizes (got want : ℕ)
deriving DecidableEq

/-- What is used of `serde_json`. -/
structure Serde (F : Type) where
  fromStr : Bytes → Option Json
  /-- `Number::as_f64`. -/
  asF64 : Bytes → Option F
  /-- `Number::as_i64`. -/
  asI64 : Bytes → Option ℤ

/-- `Value::get`. -/
def get (v : Json) (name : Bytes) : Option Json :=
  match v with
  | .object members => (findByKey Prod.fst name members).map Prod.snd
  | _ => none

section Rows

variable {F : Type} (ops : F64Ops F) (serde : Serde F)

def getSpecialFloat64FromString (s : Bytes) : Option F :=
  let minus := s.head? = some '-'.toUInt8
  let rest := if minus then s.tail else s
  if rest ∈ [ascii "infinity", ascii "Infinity", ascii "Inf", ascii "inf"] then
    some (if minus then ops.neg ops.infinity else ops.infinity)
  else if rest ∈ [ascii "null", ascii "Null", ascii "nan", ascii "NaN"] then some ops.nan
  else none

def getValueFloat64 : Json → Option F
  | .number text => serde.asF64 text
  | .null => some ops.nan
  | .string s => getSpecialFloat64FromString ops s
  | .bool _ => none
  | .array _ => none
  | .object _ => none

def asI64 : Json → Option ℤ
  | .number text => serde.asI64 text
  | _ => none

/-- The items from a position on; the error is that of the first one that fails. -/
def readItems {α : Type} (read : Json → Option α) (error : ℕ → ParseError) :
    ℕ → List Json → Except ParseError (List α)
  | _, [] => .ok []
  | i, item :: items =>
    match read item with
    | none => .error (error i)
    | some x => (readItems read error (i + 1) items).map (x :: ·)

/-- A tag value that is not a string is empty. -/
def tagOf (member : Bytes × Json) : Bytes × Bytes :=
  (member.1, match member.2 with | .string s => s | _ => [])

/-- An array that is there and not empty. -/
def nonEmptyArray (v : Json) (name : Bytes) : Option (List Json) :=
  match get v name with
  | some (.array (item :: items)) => some (item :: items)
  | _ => none

def unmarshalValue (v : Json) : Except ParseError (Row F) :=
  match get v (ascii "metric") with
  | some (.object metric) =>
    if metric.isEmpty then .error .missingTags
    else
      match nonEmptyArray v (ascii "values") with
      | none => .error .missingValues
      | some items => do
        let values ← readItems (getValueFloat64 ops serde) .value 0 items
        match nonEmptyArray v (ascii "timestamps") with
        | none => .error .missingTimestamps
        | some items => do
          let timestamps ← readItems (asI64 serde) .timestamp 0 items
          if timestamps.length ≠ values.length then .error (.sizes timestamps.length values.length)
          else .ok ⟨metric.map tagOf, values, timestamps⟩
  | _ => .error .missingMetric

def unmarshalSingleRow (s : Bytes) : Except ParseError (Row F) :=
  match serde.fromStr s with
  | none => .error .json
  | some v => unmarshalValue ops serde v

/-- A line gives a row or an error, or nothing when it is empty. -/
def unmarshalRow (s : Bytes) : List (Except ParseError (Row F)) :=
  let s := if s.getLast? = some '\r'.toUInt8 then s.dropLast else s
  if s.isEmpty then [] else [unmarshalSingleRow ops serde s]

/-- `Rows::unmarshal`: the rows, and the errors that are logged. -/
def unmarshal (s : Bytes) : List (Except ParseError (Row F)) :=
  forLines '\n'.toUInt8 (unmarshalRow ops serde) s

/-- The rows and errors of a text are those of its lines. -/
theorem unmarshal_lineByLine : LineByLine '\n'.toUInt8 (unmarshal ops serde) :=
  forLines_lineByLine _ rfl

/-- What all items give. -/
theorem readItems_map {α β : Type} {read : Json → Option α} {error : ℕ → ParseError}
    {json : β → Json} {f : β → α} {xs : List β} (h : ∀ x ∈ xs, read (json x) = some (f x)) (i : ℕ) :
    readItems read error i (xs.map json) = .ok (xs.map f) := by
  induction xs generalizing i with
  | nil => rfl
  | cons x xs ih =>
    rw [List.map_cons, readItems, h x List.mem_cons_self]
    dsimp only
    rw [ih (fun y hy => h y (List.mem_cons_of_mem x hy)) (i + 1)]
    rfl

end Rows

end Esmetrics.Protoparser.Vmimport
