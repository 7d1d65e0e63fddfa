import Mathlib.Data.List.DropRight
import Esmetrics.Lib.Lines
import Esmetrics.Protoparser.FastFloat

/-!
# Graphite plaintext protocol

Model of `Rows::unmarshal` of `esm-protoparser/src/graphite.rs`. Nothing is escaped, and nothing is
kept from one line to the next (`unmarshal_lineByLine`).
-/

namespace Esmetrics.Protoparser.Graphite

structure Tag where
  key : Bytes
  value : Bytes
deriving DecidableEq

structure Row (F : Type) where
  metric : Bytes
  tags : List Tag
  value : F
  timestamp : ℤ
deriving DecidableEq

def isSeparator (b : UInt8) : Bool := b = ' '.toUInt8 || b = '\t'.toUInt8

def lastSeparator (s : Bytes) : Option ℕ := rposition isSeparator s

def stripLeadingWhitespace (s : Bytes) : Bytes := s.dropWhile isSeparator

def stripTrailingWhitespace (s : Bytes) : Bytes := s.rdropWhile isSeparator

/-! ### Tags -/

/-- A tag without an equals sign has no value. -/
def Tag.unmarshal (s : Bytes) : Tag :=
  match s.idxOf? '='.toUInt8 with
  | none => ⟨s, []⟩
  | some n => ⟨s.take n, s.drop (n + 1)⟩

/-- A tag is kept unless its key or its value is empty. -/
def keepTag (tag : Tag) : List Tag :=
  if tag.key.isEmpty || tag.value.isEmpty then [] else [tag]

def unmarshalTags (s : Bytes) : List Tag :=
  match _hidx : s.idxOf? ';'.toUInt8 with
  | none => keepTag (Tag.unmarshal s)
  | some n => keepTag (Tag.unmarshal (s.take n)) ++ unmarshalTags (s.drop (n + 1))
termination_by s.length
decreasing_by
  have hlt := lt_length_of_idxOf? _hidx
  rw [List.length_drop]
  omega

def unmarshalMetricAndTags (s : Bytes) : Except Message (Bytes × List Tag) :=
  let (metric, tags) := match s.idxOf? ';'.toUInt8 with
    | none => (s, [])
    | some n => (s.take n, unmarshalTags (s.drop (n + 1)))
  if metric.isEmpty then .error [.text "metric cannot be empty"] else .ok (metric, tags)

/-! ### Rows -/

section Rows

variable {F : Type} (ops : F64Ops F)

/-- The error of a part of a line. -/
def partError (what : String) (s sOrig : Bytes) (err : Message) : Message :=
  [.text what, .debug s, .text ": "] ++ err ++ [.text "; original line: ", .debug sOrig]

/-- The parts of a line: metric and tags, value, and timestamp, which may be missing. -/
def splitRow (sOrig : Bytes) : Except Message (Bytes × Bytes × Bytes) :=
  let s := stripTrailingWhitespace sOrig
  match lastSeparator s with
  | none => .error [.text "cannot find separator between value and timestamp in ", .debug s]
  | some n =>
    let timestampStrFull := s.drop (n + 1)
    let s := stripTrailingWhitespace (s.take n)
    match lastSeparator s with
    | none => .ok (stripLeadingWhitespace s, timestampStrFull, [])
    | some n => .ok (stripLeadingWhitespace (s.take n), s.drop (n + 1), timestampStrFull)

/-- A timestamp that is missing is zero. -/
def parseTimestamp (s : Bytes) : Except Message ℤ :=
  if s.isEmpty then .ok 0 else (fastfloatParse ops s).map ops.toI64

def unmarshalSingleRow (sOrig : Bytes) : Except Message (Row F) := do
  let (metricAndTags, valueStr, timestampStr) ← splitRow sOrig
  let metricAndTags := stripTrailingWhitespace metricAndTags
  let (metric, tags) ← (unmarshalMetricAndTags metricAndTags).mapError
    (partError "cannot parse metric and tags from " metricAndTags sOrig)
  let timestamp ← (parseTimestamp ops timestampStr).mapError
    (partError "cannot unmarshal timestamp from " timestampStr sOrig)
  let value ← (fastfloatParse ops valueStr).mapError
    (partError "cannot unmarshal metric value from " valueStr sOrig)
  .ok ⟨metric, tags, value, timestamp⟩

/-- A line gives a row or an error, or nothing when it is empty. -/
def unmarshalRow (s : Bytes) : List (Except Message (Row F)) :=
  let s := if s.getLast? = some '\r'.toUInt8 then s.dropLast else s
  let s := stripLeadingWhitespace s
  if s.isEmpty then []
  else match unmarshalSingleRow ops s with
    | .ok row => [.ok row]
    | .error err =>
      [.error ([.text "cannot unmarshal Graphite line ", .debug s, .text ": "] ++ err)]

/-- `Rows::unmarshal`: the rows, and the errors that are logged. -/
def unmarshal (s : Bytes) : List (Except Message (Row F)) :=
  forLines '\n'.toUInt8 (unmarshalRow ops) s

/-- The rows and errors of a text are those of its lines. -/
theorem unmarshal_lineByLine : LineByLine '\n'.toUInt8 (unmarshal ops) := forLines_lineByLine _ rfl

end Rows

end Esmetrics.Protoparser.Graphite
