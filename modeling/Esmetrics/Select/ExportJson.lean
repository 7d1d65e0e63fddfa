import Esmetrics.Protoparser.Vmimport
import Esmetrics.Select.QtFloat
import Esmetrics.Storage.MetricName

/-!
# The export as JSON lines

Model of `write_export_json_line` of `esm-select/src/json.rs` and of `RowChunks` of `handlers.rs`. A
line is the text of a JSON object (`isJson_exportLine`), so that a standard parser reads the line,
and the importer takes its labels, values and timestamps from there: the lines of a series, cut at
any number of rows, give its samples back (`export_json_reimport`). The exception is a series
without labels, whose lines the importer skips (`export_json_unlabeled`).
-/

namespace Esmetrics.Select

open List

open Protoparser

variable {F : Type} (ops : F64Print F)

/-! ### Lines -/

/-- A hexadecimal digit. -/
def hexChar (n : ℕ) : UInt8 := if n < 10 then (48 + n).toUInt8 else (87 + n).toUInt8

def escapeJsonByte (c : UInt8) : Bytes :=
  if c = '\n'.toUInt8 then [backslash, 'n'.toUInt8]
  else if c = '\r'.toUInt8 then [backslash, 'r'.toUInt8]
  else if c = '\t'.toUInt8 then [backslash, 't'.toUInt8]
  else if c = 0x08 then [backslash, 'b'.toUInt8]
  else if c = 0x0C then [backslash, 'f'.toUInt8]
  else if c = quote then [backslash, quote]
  else if c = backslash then [backslash, backslash]
  else if c = '<'.toUInt8 then ascii "\\u003c"
  else if c = 0x27 then ascii "\\u0027"
  else if c < 0x20 then ascii "\\u00" ++ [hexChar (c.toNat / 16), hexChar (c.toNat % 16)]
  else [c]

/-- What `append_json_string` writes. -/
def appendJsonString (s : Bytes) : Bytes := quote :: (s.flatMap escapeJsonByte ++ [quote])

def labelText (label : Bytes × Bytes) : Bytes :=
  appendJsonString label.1 ++ ':'.toUInt8 :: appendJsonString label.2

/-- What `append_metric_name_object` writes. -/
def appendMetricNameObject (mn : MetricName) : Bytes :=
  '{'.toUInt8 ::
    ((if mn.metricGroup.isEmpty then []
      else ascii "\"__name__\":" ++ appendJsonString mn.metricGroup ++
        (if mn.tags.isEmpty then [] else [','.toUInt8])) ++
      [','.toUInt8].intercalate (mn.tags.map fun tag => labelText (tag.key, tag.value)) ++
        ['}'.toUInt8])

/-- What `append_export_value` writes. -/
def appendExportValue (f : F) : Bytes :=
  if ops.isNan f then ascii "null"
  else if ops.isInfinite f then (if ops.isPositive f then ascii "\"Infinity\""
    else ascii "\"-Infinity\"")
  else appendQtFloat ops f

/-- A line without its end. -/
def exportJsonLine (mn : MetricName) (values : List F) (timestamps : List ℤ) : Bytes :=
  ascii "\x7b\"metric\":" ++ appendMetricNameObject mn ++ ascii ",\"values\":[" ++
    [','.toUInt8].intercalate (values.map (appendExportValue ops)) ++ ascii "],\"timestamps\":[" ++
    [','.toUInt8].intercalate (timestamps.map appendI64) ++ ascii "]\x7d"

/-- What `write_export_json_line` writes. -/
def writeExportJsonLine (mn : MetricName) (values : List F) (timestamps : List ℤ) : Bytes :=
  if timestamps.isEmpty then [] else exportJsonLine ops mn values timestamps ++ ['\n'.toUInt8]

/-- `RowChunks`: the values and timestamps in pieces of at most so many rows, or in one piece. -/
def rowChunks (maxRows : ℕ) (values : List F) (timestamps : List ℤ) : List (List F × List ℤ) :=
  if _hvalues : values = [] then []
  else
    let n := if maxRows = 0 then values.length else min maxRows values.length
    (values.take n, timestamps.take n) :: rowChunks maxRows (values.drop n) (timestamps.drop n)
termination_by values.length
decreasing_by
  have := length_pos_iff.mpr _hvalues
  rw [length_drop]
  split_ifs <;> omega

/-- The lines of a series. -/
def exportJson (mn : MetricName) (maxRows : ℕ) (values : List F) (timestamps : List ℤ) : Bytes :=
  (rowChunks maxRows values timestamps).flatMap fun chunk =>
  writeExportJsonLine ops mn chunk.1 chunk.2

/-! ### Strings -/

theorem unicodeEscape_hexChar (n : ℕ) (h : n < 32) :
    Json.unicodeEscape '0'.toUInt8 '0'.toUInt8 (hexChar (n / 16)) (hexChar (n % 16)) =
    some n.toUInt8 := by
  revert n
  decide

/-- One byte of a string. -/
theorem isString_escapeJsonByte (c : UInt8) {text s rest : Bytes} (h : Json.IsString text s rest) :
    Json.IsString (escapeJsonByte c ++ text) (c :: s) rest := by
  rw [escapeJsonByte]
  by_cases hn : c = '\n'.toUInt8
  · rw [if_pos hn]
    exact .escape (by rw [hn]; decide) h
  rw [if_neg hn]
  by_cases hr : c = '\r'.toUInt8
  · rw [if_pos hr]
    exact .escape (by rw [hr]; decide) h
  rw [if_neg hr]
  by_cases ht : c = '\t'.toUInt8
  · rw [if_pos ht]
    exact .escape (by rw [ht]; decide) h
  rw [if_neg ht]
  by_cases hb : c = 0x08
  · rw [if_pos hb]
    exact .escape (by rw [hb]; decide) h
  rw [if_neg hb]
  by_cases hf : c = 0x0C
  · rw [if_pos hf]
    exact .escape (by rw [hf]; decide) h
  rw [if_neg hf]
  by_cases hquote : c = quote
  · rw [if_pos hquote]
    exact .escape (by rw [hquote]; decide) h
  rw [if_neg hquote]
  by_cases hbackslash : c = backslash
  · rw [if_pos hbackslash]
    exact .escape (by rw [hbackslash]; decide) h
  rw [if_neg hbackslash]
  by_cases hless : c = '<'.toUInt8
  · have htext : ascii "\\u003c" = [backslash, 'u'.toUInt8, '0'.toUInt8, '0'.toUInt8, '3'.toUInt8,
        'c'.toUInt8] := by
      decide
    rw [if_pos hless, htext]
    exact .unicode (by rw [hless]; decide) h
  rw [if_neg hless]
  by_cases happ : c = 0x27
  · have htext : ascii "\\u0027" = [backslash, 'u'.toUInt8, '0'.toUInt8, '0'.toUInt8, '2'.toUInt8,
        '7'.toUInt8] := by
      decide
    rw [if_pos happ, htext]
    exact .unicode (by rw [happ]; decide) h
  rw [if_neg happ]
  by_cases hcontrol : c < 0x20
  · have htext : ascii "\\u00" = [backslash, 'u'.toUInt8, '0'.toUInt8, '0'.toUInt8] := by decide
    have hlt : c.toNat < 32 := UInt8.lt_iff_toNat_lt.mp hcontrol
    have hdigits := unicodeEscape_hexChar c.toNat hlt
    rw [Nat.toUInt8_eq, UInt8.ofNat_toNat] at hdigits
    rw [if_pos hcontrol, htext]
    exact .unicode hdigits h
  · rw [if_neg hcontrol]
    exact .raw (not_lt.mp hcontrol) hquote hbackslash h

/-- **A written string.** -/
theorem isString_escapeJson (s rest : Bytes) :
    Json.IsString (s.flatMap escapeJsonByte ++ quote :: rest) s rest := by
  induction s with
  | nil => exact .close rest
  | cons c s ih =>
    rw [flatMap_cons, append_assoc]
    exact isString_escapeJsonByte c ih

theorem appendJsonString_append (s rest : Bytes) :
    appendJsonString s ++ rest = quote :: (s.flatMap escapeJsonByte ++ quote :: rest) := by
  rw [appendJsonString, cons_append, append_assoc, singleton_append]

theorem isScalar_appendJsonString (s rest : Bytes) :
    Json.IsScalar (appendJsonString s ++ rest) (.string s) rest := by
  rw [appendJsonString_append]
  exact .string (isString_escapeJson s rest)

theorem escapeJsonByte_of_lt {c : UInt8} (hc : c < 0x80) :
    escapeJsonByte c ≠ [] ∧ ∀ d ∈ escapeJsonByte c, d < 0x80 ∧ d ≠ '\n'.toUInt8 := by
  -- A check by `&&` and `all`, which the kernel runs much faster than the decision of the statement
  -- itself.
  have hall : ∀ n, n < 128 → (!(escapeJsonByte n.toUInt8).isEmpty &&
      (escapeJsonByte n.toUInt8).all fun d =>
      decide (d < 0x80) && decide (d ≠ '\n'.toUInt8)) = true := by
    decide
  have hlt : c.toNat < 128 := UInt8.lt_iff_toNat_lt.mp hc
  have hn := hall c.toNat hlt
  rw [Nat.toUInt8_eq, UInt8.ofNat_toNat, Bool.and_eq_true, Bool.not_eq_true', isEmpty_eq_false_iff,
    all_eq_true] at hn
  refine ⟨hn.1, fun d hd => ?_⟩
  have hd := hn.2 d hd
  rwa [Bool.and_eq_true, decide_eq_true_eq, decide_eq_true_eq] at hd

theorem escapeJsonByte_of_ge {c : UInt8} (hc : ¬ c < 0x80) : escapeJsonByte c = [c] := by
  have hne : ∀ d : UInt8, d < 0x80 → c ≠ d := by
    rintro d hd rfl
    exact hc hd
  have hcontrol : ¬ c < 0x20 := fun h => hc (h.trans (by decide))
  rw [escapeJsonByte, if_neg (hne _ (by decide)), if_neg (hne _ (by decide)),
    if_neg (hne _ (by decide)),
    if_neg (hne _ (by decide)), if_neg (hne _ (by decide)), if_neg (hne _ (by decide)),
    if_neg (hne _ (by decide)),
    if_neg (hne _ (by decide)), if_neg (hne _ (by decide)), if_neg hcontrol]

/-- A text of a line: valid UTF-8, and no line end. -/
structure IsLineText (s : Bytes) : Prop where
  utf8 : isValidUtf8 s = true
  newline : '\n'.toUInt8 ∉ s

theorem IsLineText.append {s t : Bytes} (hs : IsLineText s) (ht : IsLineText t) :
    IsLineText (s ++ t) where
  utf8 := (isValidUtf8_append hs.utf8).trans ht.utf8
  newline hmem := (mem_append.mp hmem).elim hs.newline ht.newline

theorem isLineText_of_ascii {s : Bytes} (h : ∀ c ∈ s, c < 0x80 ∧ c ≠ '\n'.toUInt8) :
    IsLineText s where
  utf8 := isValidUtf8_of_ascii fun c hc => (h c hc).1
  newline hmem := (h _ hmem).2 rfl

/-- A literal text. -/
theorem isLineText_of_all {s : Bytes}
    (h : (s.all fun c => decide (c < 0x80) && decide (c ≠ '\n'.toUInt8)) = true) :
    IsLineText s := by
  refine isLineText_of_ascii fun c hc => ?_
  have hc := all_eq_true.mp h c hc
  rwa [Bool.and_eq_true, decide_eq_true_eq, decide_eq_true_eq] at hc

theorem isLineText_intercalate {texts : List Bytes} (h : ∀ text ∈ texts, IsLineText text) :
    IsLineText ([','.toUInt8].intercalate texts) :=
  intercalate_induction ⟨rfl, not_mem_nil⟩ (fun _ _ => IsLineText.append) ⟨by decide, by decide⟩ h

theorem isLineText_appendJsonString {s : Bytes} (hs : isValidUtf8 s = true) :
    IsLineText (appendJsonString s) := by
  have hquote : IsLineText [quote] := ⟨by decide, by decide⟩
  have hbody : IsLineText (s.flatMap escapeJsonByte) := by
    refine ⟨?_, fun hmem => ?_⟩
    · rw [isValidUtf8_flatMap (fun c hc => ⟨(escapeJsonByte_of_lt hc).1,
        fun d hd => ((escapeJsonByte_of_lt hc).2 d hd).1⟩) fun c hc => escapeJsonByte_of_ge hc]
      exact hs
    · obtain ⟨c, _, hc⟩ := mem_flatMap.mp hmem
      by_cases hlt : c < 0x80
      · exact ((escapeJsonByte_of_lt hlt).2 _ hc).2 rfl
      · rw [escapeJsonByte_of_ge hlt] at hc
        rw [← mem_singleton.mp hc] at hlt
        exact hlt (by decide)
  exact hquote.append (hbody.append hquote)

/-! ### Labels -/

/-- The labels of a series, with its metric name. -/
def labelsOf (mn : MetricName) : List (Bytes × Bytes) :=
  (if mn.metricGroup.isEmpty then [] else [(ascii "__name__", mn.metricGroup)]) ++
    mn.tags.map fun tag => (tag.key, tag.value)

/-- The object of a metric name is that of its labels. -/
theorem appendMetricNameObject_eq (mn : MetricName) :
    appendMetricNameObject mn =
      '{'.toUInt8 :: ([','.toUInt8].intercalate ((labelsOf mn).map labelText) ++
        ['}'.toUInt8]) := by
  have hname : ascii "\"__name__\":" = appendJsonString (ascii "__name__") ++ [':'.toUInt8] := by
    decide
  rw [appendMetricNameObject, labelsOf]
  by_cases hgroup : mn.metricGroup.isEmpty
  · rw [if_pos hgroup, if_pos hgroup, nil_append, nil_append, map_map]
    rfl
  · rw [if_neg hgroup, if_neg hgroup, hname]
    cases mn.tags with
    | nil => simp [labelText]
    | cons tag tags =>
      rw [if_neg (by simp), map_append, map_singleton, map_cons, map_cons, map_cons,
        singleton_append, intercalate_cons_cons, map_map]
      simp only [labelText, append_assoc, nil_append, cons_append, Function.comp_def]

theorem isMember_labelText {n : ℕ} (label : Bytes × Bytes) (rest : Bytes) :
    Json.IsMember (Json.IsValue n) (labelText label ++ rest) (label.1, .string label.2) rest := by
  rw [labelText, append_assoc, cons_append, appendJsonString_append]
  exact .mk (isString_escapeJson _ _) (Json.isValue_of_isScalar (isScalar_appendJsonString _ _))

/-- The labels as an object. -/
theorem isValue_metricNameObject {n : ℕ} {mn : MetricName}
    (hnodup : ((labelsOf mn).map Prod.fst).Nodup)
    (rest : Bytes) :
    Json.IsValue (n + 1) (appendMetricNameObject mn ++ rest)
      (.object ((labelsOf mn).map fun label => (label.1, .string label.2))) rest := by
  rw [appendMetricNameObject_eq]
  refine .inr ?_
  cases hlabels : labelsOf mn with
  | nil => exact .emptyObject rest
  | cons label labels =>
    rw [hlabels] at hnodup
    have hitems : Json.IsItems (Json.IsMember (Json.IsValue n)) '}'.toUInt8
        ([','.toUInt8].intercalate ((label :: labels).map labelText) ++ '}'.toUInt8 :: rest)
        ((label :: labels).map fun label => (label.1, Json.string label.2)) rest :=
      Json.isItems_intercalate label labels (fun y _ c rest _ =>
        isMember_labelText y (c :: rest)) rest
    have hmap : Json.indexMap ((label :: labels).map fun label => (label.1, Json.string label.2)) =
        (label :: labels).map fun label => (label.1, Json.string label.2) := by
      refine Json.indexMap_of_nodup ?_
      rwa [map_map]
    rw [cons_append, append_assoc, singleton_append, ← hmap]
    exact .object hitems

/-! ### Values and timestamps -/

/-- What is assumed of a value: `Display` writes a number without an exponent, what is written is
read back, and there are two infinities. -/
structure JsonReadsBack (serde : Vmimport.Serde F) (f : F) : Prop where
  display : ops.isNan f = false → ops.isInfinite f = false → Json.IsNumber (ops.display f)
  reads : ops.isNan f = false → ops.isInfinite f = false →
    serde.asF64 (appendQtFloat ops f) = some f
  infinite : ops.isInfinite f = true → f = signed ops.toF64Ops (!ops.isPositive f) ops.infinity

/-- What is assumed of the JSON parser: it reads the texts of values, nested up to its recursion
limit, whose numbers are all in the range of `f64`, and has the integers of 64 bits. -/
structure Standard (serde : Vmimport.Serde F) : Prop where
  fromStr : ∀ text v, isValidUtf8 text = true → Json.IsJson 127 text v →
    (∀ number, v.HasNumber number → (serde.asF64 number).isSome) → serde.fromStr text = some v
  asF64 : ∀ n : ℤ, -(2 ^ 63) ≤ n → n < 2 ^ 63 → (serde.asF64 (printInteger n)).isSome
  asI64 : ∀ n : ℤ, -(2 ^ 63) ≤ n → n < 2 ^ 63 → serde.asI64 (printInteger n) = some n

/-- The JSON value of a value. -/
def jsonValue (f : F) : Json :=
  if ops.isNan f then .null
  else if ops.isInfinite f then .string (if ops.isPositive f then ascii "Infinity"
    else ascii "-Infinity")
  else .number (appendQtFloat ops f)

/-- The JSON value of a line. -/
def exportJsonValue (mn : MetricName) (values : List F) (timestamps : List ℤ) : Json :=
  .object [(ascii "metric", .object ((labelsOf mn).map fun label => (label.1, .string label.2))),
    (ascii "values", .array (values.map (jsonValue ops))),
    (ascii "timestamps", .array (timestamps.map fun n => .number (printInteger n)))]

/-- The members of a line: their names, the texts of their values, and the values. -/
def exportMembers (mn : MetricName) (values : List F) (timestamps : List ℤ) :
    List (Bytes × Bytes × Json) :=
  [(ascii "metric", appendMetricNameObject mn,
      .object ((labelsOf mn).map fun label => (label.1, .string label.2))),
    (ascii "values", '['.toUInt8 :: ([','.toUInt8].intercalate
      (values.map (appendExportValue ops)) ++ [']'.toUInt8]),
      .array (values.map (jsonValue ops))),
    (ascii "timestamps", '['.toUInt8 :: ([','.toUInt8].intercalate (timestamps.map appendI64) ++
      [']'.toUInt8]), .array (timestamps.map fun n => .number (printInteger n)))]

/-- A member. -/
def memberText (member : Bytes × Bytes × Json) : Bytes :=
  appendJsonString member.1 ++ ':'.toUInt8 :: member.2.1

theorem exportJsonLine_eq (mn : MetricName) (values : List F) (timestamps : List ℤ) :
    exportJsonLine ops mn values timestamps =
      '{'.toUInt8 :: ([','.toUInt8].intercalate
        ((exportMembers ops mn values timestamps).map memberText) ++ ['}'.toUInt8]) := by
  have hmetric : ascii "\x7b\"metric\":" = '{'.toUInt8 ::
      (appendJsonString (ascii "metric") ++ [':'.toUInt8]) := by
    decide
  have hvalues : ascii ",\"values\":[" =
      ','.toUInt8 :: (appendJsonString (ascii "values") ++ [':'.toUInt8, '['.toUInt8]) := by decide
  have htimestamps : ascii "],\"timestamps\":[" =
      ']'.toUInt8 :: ','.toUInt8 :: (appendJsonString (ascii "timestamps") ++ [':'.toUInt8,
        '['.toUInt8]) := by
    decide
  have hend : ascii "]\x7d" = [']'.toUInt8, '}'.toUInt8] := by decide
  rw [exportJsonLine, hmetric, hvalues, htimestamps, hend, exportMembers, map_cons, map_cons,
    map_singleton, intercalate_cons_cons, intercalate_cons_cons, intercalate_singleton]
  simp only [memberText, append_assoc, cons_append, nil_append]

theorem isNumber_printInteger (n : ℤ) : Json.IsNumber (printInteger n) := by
  have hnat : ∀ n : ℕ, (printInteger n = ['0'.toUInt8] ∨ printInteger n ≠ [] ∧
      (printInteger n).head? ≠ some '0'.toUInt8 ∧ ∀ b ∈ printInteger n, Json.isDigit b = true) := by
    intro n
    rw [printInteger_natCast]
    obtain rfl | hn := Nat.eq_zero_or_pos n
    · exact .inl rfl
    · exact .inr ⟨by simp, head?_toDigits hn, (toDigits_digits n).1⟩
  cases n with
  | ofNat n => exact ⟨[], printInteger n, [], by simp, .inl rfl, hnat n, .inl rfl⟩
  | negSucc n =>
    refine ⟨['-'.toUInt8], printInteger (n + 1 : ℕ), [], ?_, .inr rfl, hnat (n + 1), .inl rfl⟩
    rw [printInteger_negSucc, append_nil, singleton_append]

variable {ops}

theorem JsonReadsBack.isNumber {serde : Vmimport.Serde F} {f : F} (h : JsonReadsBack ops serde f)
    (hnan : ops.isNan f = false) (hinf : ops.isInfinite f = false) :
    Json.IsNumber (appendQtFloat ops f) := by
  rw [appendQtFloat, hnan, hinf, if_neg Bool.false_ne_true, if_neg Bool.false_ne_true]
  split_ifs
  · exact isNumber_printInteger _
  · exact h.display hnan hinf

theorem isScalar_appendExportValue {serde : Vmimport.Serde F} {f : F}
    (h : JsonReadsBack ops serde f) {c : UInt8}
    (hc : Json.isNumberByte c = false) (rest : Bytes) :
    Json.IsScalar (appendExportValue ops f ++ c :: rest) (jsonValue ops f) (c :: rest) := by
  rw [appendExportValue, jsonValue]
  by_cases hnan : ops.isNan f = true
  · rw [if_pos hnan, if_pos hnan]
    exact .null (c :: rest)
  · by_cases hinf : ops.isInfinite f = true
    · have hpos : ascii "\"Infinity\"" = appendJsonString (ascii "Infinity") := by decide
      have hneg : ascii "\"-Infinity\"" = appendJsonString (ascii "-Infinity") := by decide
      rw [if_neg hnan, if_neg hnan, if_pos hinf, if_pos hinf, hpos, hneg,
        ← apply_ite appendJsonString]
      exact isScalar_appendJsonString _ _
    · rw [if_neg hnan, if_neg hnan, if_neg hinf, if_neg hinf]
      rw [Bool.not_eq_true] at hnan hinf
      refine .number (h.isNumber hnan hinf) fun b hb => ?_
      rw [← Option.some.inj hb]
      exact hc

theorem getValueFloat64_jsonValue {serde : Vmimport.Serde F} {f : F}
    (h : JsonReadsBack ops serde f) :
    Vmimport.getValueFloat64 ops.toF64Ops serde (jsonValue ops f) = some (canonicalNan ops f) := by
  rw [jsonValue, canonicalNan]
  by_cases hnan : ops.isNan f = true
  · rw [if_pos hnan, if_pos hnan]
    rfl
  · rw [if_neg hnan, if_neg hnan]
    by_cases hinf : ops.isInfinite f = true
    · have hf := h.infinite hinf
      rw [if_pos hinf]
      by_cases hpos : ops.isPositive f = true
      · rw [hpos] at hf
        rw [if_pos hpos, hf]
        rfl
      · rw [Bool.not_eq_true] at hpos
        rw [hpos] at hf ⊢
        rw [if_neg Bool.false_ne_true, hf]
        rfl
    · rw [if_neg hinf]
      rw [Bool.not_eq_true] at hnan hinf
      exact h.reads hnan hinf

/-! ### Reading a line -/

/-- An array of scalars. -/
theorem isValue_array {α : Type} {n : ℕ} {text : α → Bytes} {value : α → Json} {xs : List α}
    (h : ∀ x ∈ xs, ∀ c rest, Json.isNumberByte c = false →
      Json.IsScalar (text x ++ c :: rest) (value x) (c :: rest))
    (rest : Bytes) :
    Json.IsValue (n + 1)
      ('['.toUInt8 :: ([','.toUInt8].intercalate (xs.map text) ++ ']'.toUInt8 :: rest))
      (.array (xs.map value)) rest := by
  refine .inr ?_
  cases xs with
  | nil => exact .emptyArray rest
  | cons x xs =>
    refine .array (Json.isItems_intercalate x xs (fun y hy c rest hc => ?_) rest)
    refine Json.isValue_of_isScalar (h y hy c rest ?_)
    obtain rfl | rfl := hc <;> decide

variable {values : List F}

/-- **A line is a JSON object.** -/
theorem isJson_exportLine {serde : Vmimport.Serde F} {mn : MetricName}
    (hnodup : ((labelsOf mn).map Prod.fst).Nodup)
    (hvalues : ∀ f ∈ values, JsonReadsBack ops serde f)
    (timestamps : List ℤ) :
    Json.IsJson 127 (exportJsonLine ops mn values timestamps)
    (exportJsonValue ops mn values timestamps) := by
  have hvalue : ∀ member ∈ exportMembers ops mn values timestamps, ∀ rest,
      Json.IsValue 126 (member.2.1 ++ rest) member.2.2 rest := by
    intro member hmember rest
    simp only [exportMembers, mem_cons, not_mem_nil, or_false] at hmember
    obtain rfl | rfl | rfl := hmember
    · exact isValue_metricNameObject hnodup rest
    · rw [cons_append, append_assoc]
      exact isValue_array (fun f hf c rest hc => isScalar_appendExportValue (hvalues f hf) hc rest)
        rest
    · rw [cons_append, append_assoc]
      refine isValue_array (fun n _ c rest hc => .number (isNumber_printInteger n) fun b hb => ?_)
        rest
      rw [← Option.some.inj hb]
      exact hc
  have hmember : ∀ member ∈ exportMembers ops mn values timestamps, ∀ c rest,
      c = ','.toUInt8 ∨ c = '}'.toUInt8 →
      Json.IsMember (Json.IsValue 126) (memberText member ++ c :: rest) (member.1,
        member.2.2) (c :: rest) := by
    intro member hmem c rest _
    rw [memberText, append_assoc, cons_append, appendJsonString_append]
    exact .mk (isString_escapeJson _ _) (hvalue member hmem _)
  have hnames : (((exportMembers ops mn values timestamps).map fun member =>
      (member.1, member.2.2)).map Prod.fst).Nodup := by
    change [ascii "metric", ascii "values", ascii "timestamps"].Nodup
    exact Nodup.of_map List.head? (by decide)
  have hobject := Json.IsCompound.object (Json.isItems_intercalate _ _ hmember [])
  rw [← exportMembers, Json.indexMap_of_nodup hnames] at hobject
  rw [Json.IsJson, exportJsonLine_eq]
  exact .inr hobject

theorem isLineText_number {text : Bytes} (h : Json.IsNumber text) : IsLineText text := by
  have hall : ∀ n, n < 256 → Json.isNumberByte n.toUInt8 = true →
      n.toUInt8 < 0x80 ∧ n.toUInt8 ≠ '\n'.toUInt8 := by
    decide +kernel
  refine isLineText_of_ascii fun c hc => ?_
  have hn := hall c.toNat c.toNat_lt
  rw [Nat.toUInt8_eq, UInt8.ofNat_toNat] at hn
  exact hn (h.bytes.2 c hc)

theorem isLineText_appendExportValue {serde : Vmimport.Serde F} {f : F}
    (h : JsonReadsBack ops serde f) :
    IsLineText (appendExportValue ops f) := by
  rw [appendExportValue]
  split_ifs with hnan hinf hpos
  · exact isLineText_of_all (by decide)
  · exact isLineText_of_all (by decide)
  · exact isLineText_of_all (by decide)
  · exact isLineText_number (h.isNumber (Bool.eq_false_iff.mpr hnan) (Bool.eq_false_iff.mpr hinf))

theorem isLineText_metricNameObject {mn : MetricName}
    (hutf8 : ∀ label ∈ labelsOf mn, isValidUtf8 label.1 = true ∧ isValidUtf8 label.2 = true) :
    IsLineText (appendMetricNameObject mn) := by
  have hlabel : ∀ text ∈ (labelsOf mn).map labelText, IsLineText text := by
    intro text htext
    obtain ⟨label, hmem, rfl⟩ := mem_map.mp htext
    obtain ⟨hkey, hvalue⟩ := hutf8 label hmem
    have hcolon : IsLineText [':'.toUInt8] := ⟨by decide, by decide⟩
    exact (isLineText_appendJsonString hkey).append
      (hcolon.append (isLineText_appendJsonString hvalue))
  have hopen : IsLineText ['{'.toUInt8] := ⟨by decide, by decide⟩
  have hclose : IsLineText ['}'.toUInt8] := ⟨by decide, by decide⟩
  rw [appendMetricNameObject_eq]
  exact hopen.append ((isLineText_intercalate hlabel).append hclose)

/-- **A line is UTF-8 and has no line end in it.** -/
theorem isLineText_exportLine {serde : Vmimport.Serde F} {mn : MetricName}
    (hutf8 : ∀ label ∈ labelsOf mn, isValidUtf8 label.1 = true ∧ isValidUtf8 label.2 = true)
    (hvalues : ∀ f ∈ values, JsonReadsBack ops serde f) (timestamps : List ℤ) :
    IsLineText (exportJsonLine ops mn values timestamps) := by
  have htexts : ∀ text ∈ values.map (appendExportValue ops), IsLineText text := by
    intro text htext
    obtain ⟨f, hf, rfl⟩ := mem_map.mp htext
    exact isLineText_appendExportValue (hvalues f hf)
  have htimes : ∀ text ∈ timestamps.map appendI64, IsLineText text := by
    intro text htext
    obtain ⟨n, _, rfl⟩ := mem_map.mp htext
    exact isLineText_number (isNumber_printInteger n)
  rw [exportJsonLine]
  refine IsLineText.append (IsLineText.append (IsLineText.append
    (IsLineText.append (IsLineText.append
    (IsLineText.append ?_ (isLineText_metricNameObject hutf8)) ?_)
    (isLineText_intercalate htexts)) ?_)
    (isLineText_intercalate htimes)) ?_
  all_goals exact isLineText_of_all (by decide)

theorem unmarshalValue_exportJsonValue {serde : Vmimport.Serde F} (hserde : Standard serde)
    {mn : MetricName}
    (hlabels : labelsOf mn ≠ []) (hvalues : ∀ f ∈ values, JsonReadsBack ops serde f)
    {timestamps : List ℤ}
    (hrange : ∀ n ∈ timestamps, -(2 ^ 63) ≤ n ∧ n < 2 ^ 63) (hne : values ≠ [])
    (hlength : values.length = timestamps.length) :
    Vmimport.unmarshalValue ops.toF64Ops serde (exportJsonValue ops mn values timestamps) =
      .ok ⟨labelsOf mn, values.map (canonicalNan ops), timestamps⟩ := by
  have hmetric : Vmimport.get (exportJsonValue ops mn values timestamps) (ascii "metric") =
      some (.object ((labelsOf mn).map fun label => (label.1, .string label.2))) := rfl
  have hget : ∀ (name : Bytes) (items : List Json), items ≠ [] →
      Vmimport.get (exportJsonValue ops mn values timestamps) name = some (.array items) →
      Vmimport.nonEmptyArray (exportJsonValue ops mn values timestamps) name = some items := by
    intro name items hitems hname
    obtain ⟨item, items, rfl⟩ := exists_cons_of_ne_nil hitems
    rw [Vmimport.nonEmptyArray, hname]
  have htags : ((labelsOf mn).map fun label => (label.1, Json.string label.2)).map Vmimport.tagOf =
      labelsOf mn := by
    rw [map_map]
    exact map_id _
  have htimes : timestamps ≠ [] := by
    rwa [← length_pos_iff, ← hlength, length_pos_iff]
  have hreadValues : Vmimport.readItems (Vmimport.getValueFloat64 ops.toF64Ops serde) .value 0
      (values.map (jsonValue ops)) = .ok (values.map (canonicalNan ops)) :=
    Vmimport.readItems_map (fun f hf => getValueFloat64_jsonValue (hvalues f hf)) 0
  have hreadTimestamps : Vmimport.readItems (Vmimport.asI64 serde) .timestamp 0
      (timestamps.map fun n => .number (printInteger n)) = .ok (timestamps.map id) :=
    Vmimport.readItems_map (fun n hn => hserde.asI64 n (hrange n hn).1 (hrange n hn).2) 0
  rw [map_id] at hreadTimestamps
  have hfirst : ascii "metric" ≠ ascii "values" := ne_of_apply_ne List.head? (by decide)
  have hsecond : ascii "metric" ≠ ascii "timestamps" := ne_of_apply_ne List.head? (by decide)
  have hthird : ascii "values" ≠ ascii "timestamps" := ne_of_apply_ne List.head? (by decide)
  have hgetValues := hget (ascii "values") (values.map (jsonValue ops)) (by simpa using hne) (by
    rw [exportJsonValue, Vmimport.get, findByKey, find?_cons_of_neg (by simpa using hfirst)]
    rfl)
  have hgetTimestamps := hget (ascii "timestamps") (timestamps.map fun n =>
    .number (printInteger n)) (by simpa using htimes) (by
    rw [exportJsonValue, Vmimport.get, findByKey, find?_cons_of_neg (by simpa using hsecond),
      find?_cons_of_neg (by simpa using hthird)]
    rfl)
  have hmembers : ¬ ((labelsOf mn).map fun label => (label.1, Json.string label.2)).isEmpty =
      true := by
    simpa using hlabels
  rw [Vmimport.unmarshalValue, hmetric]
  dsimp only
  rw [if_neg hmembers, hgetValues]
  dsimp only
  rw [hreadValues]
  dsimp only [bind, Except.bind]
  rw [hgetTimestamps]
  dsimp only
  rw [hreadTimestamps]
  change (if timestamps.length ≠ (values.map (canonicalNan ops)).length then _ else _) = _
  rw [length_map, if_neg (not_not.mpr hlength.symm), htags]

section Import

variable {serde : Vmimport.Serde F} (hserde : Standard serde) {mn : MetricName}
  (hutf8 : ∀ label ∈ labelsOf mn, isValidUtf8 label.1 = true ∧ isValidUtf8 label.2 = true)
  (hnodup : ((labelsOf mn).map Prod.fst).Nodup)

include hserde in
/-- The numbers of a line are all in range. -/
theorem isSome_asF64_exportJsonValue {values : List F}
    (hvalues : ∀ f ∈ values, JsonReadsBack ops serde f)
    {timestamps : List ℤ} (hrange : ∀ n ∈ timestamps, -(2 ^ 63) ≤ n ∧ n < 2 ^ 63) {number : Bytes}
    (h : (exportJsonValue ops mn values timestamps).HasNumber number) :
    (serde.asF64 number).isSome = true := by
  rw [exportJsonValue] at h
  obtain _ | _ | ⟨hmember, h⟩ := h
  simp only [mem_cons, not_mem_nil, or_false] at hmember
  obtain rfl | rfl | rfl := hmember
  · obtain _ | _ | ⟨hlabel, h⟩ := h
    obtain ⟨label, _, rfl⟩ := mem_map.mp hlabel
    exact nomatch h
  · obtain _ | ⟨hitem, h⟩ := h
    obtain ⟨f, hf, rfl⟩ := mem_map.mp hitem
    rw [jsonValue] at h
    split_ifs at h with hnan hinf
    · exact nomatch h
    · exact nomatch h
    · exact nomatch h
    · cases h
      rw [(hvalues f hf).reads (Bool.not_eq_true _ ▸ hnan) (Bool.not_eq_true _ ▸ hinf)]
      rfl
  · obtain _ | ⟨hitem, h⟩ := h
    obtain ⟨n, hn, rfl⟩ := mem_map.mp hitem
    cases h
    exact hserde.asF64 n (hrange n hn).1 (hrange n hn).2

include hserde hutf8 hnodup in
/-- **One line.** -/
theorem unmarshalRow_exportLine_json {values : List F}
    (hvalues : ∀ f ∈ values, JsonReadsBack ops serde f)
    {timestamps : List ℤ} (hrange : ∀ n ∈ timestamps, -(2 ^ 63) ≤ n ∧ n < 2 ^ 63) :
    Vmimport.unmarshalRow ops.toF64Ops serde (exportJsonLine ops mn values timestamps) =
      [Vmimport.unmarshalValue ops.toF64Ops serde (exportJsonValue ops mn values timestamps)] := by
  have hread := hserde.fromStr _ _ (isLineText_exportLine hutf8 hvalues timestamps).utf8
    (isJson_exportLine hnodup hvalues timestamps) fun number =>
      isSome_asF64_exportJsonValue hserde hvalues hrange
  have hlast : (exportJsonLine ops mn values timestamps).getLast? = some '}'.toUInt8 := by
    rw [exportJsonLine_eq, getLast?_cons, getLast?_append_cons]
    rfl
  have hempty : ¬ (exportJsonLine ops mn values timestamps).isEmpty = true := by
    intro hempty
    rw [isEmpty_iff.mp hempty] at hlast
    exact nomatch hlast
  have hreturn : ¬ (some '}'.toUInt8 = some '\r'.toUInt8) := by decide
  rw [Vmimport.unmarshalRow, hlast]
  rw [if_neg hreturn, if_neg hempty, Vmimport.unmarshalSingleRow, hread]

end Import

/-! ### The lines of a series -/

/-- The pieces have all the samples, in their order. -/
theorem rowChunks_spec (maxRows : ℕ) {timestamps : List ℤ}
    (hlength : values.length = timestamps.length) :
    (∀ chunk ∈ rowChunks maxRows values timestamps,
      chunk.1 ≠ [] ∧ chunk.1.length = chunk.2.length ∧ chunk.1 ⊆ values ∧ chunk.2 ⊆ timestamps) ∧
      ((rowChunks maxRows values timestamps).flatMap fun chunk => chunk.1.zip chunk.2) =
        values.zip timestamps := by
  induction hn : values.length using Nat.strongRecOn generalizing values timestamps with
  | ind k ih =>
    rw [rowChunks]
    by_cases hvalues : values = []
    · rw [dif_pos hvalues, hvalues]
      exact ⟨nofun, rfl⟩
    · rw [dif_neg hvalues]
      have hpos : 0 < values.length := length_pos_iff.mpr hvalues
      have hsize : 0 < (if maxRows = 0 then values.length else min maxRows values.length) := by
        split_ifs <;> omega
      generalize (if maxRows = 0 then values.length else min maxRows values.length) = n at hsize
      dsimp only
      have hdrop : (values.drop n).length = (timestamps.drop n).length := by
        rw [length_drop, length_drop, hlength]
      have hlt : (values.drop n).length < k := by
        rw [length_drop]
        omega
      obtain ⟨hchunks, hflat⟩ := ih _ hlt hdrop rfl
      refine ⟨fun chunk hchunk => ?_, ?_⟩
      · obtain rfl | hchunk := mem_cons.mp hchunk
        · refine ⟨?_, ?_, take_subset _ _, take_subset _ _⟩
          · rw [← length_pos_iff, length_take]
            omega
          · rw [length_take, length_take, hlength]
        · obtain ⟨hne, hlen, hsub, hsub'⟩ := hchunks chunk hchunk
          exact ⟨hne, hlen, Subset.trans hsub (drop_subset _ _),
            Subset.trans hsub' (drop_subset _ _)⟩
      · rw [flatMap_cons, hflat]
        have htake : (values.take n).length = (timestamps.take n).length := by
          rw [length_take, length_take, hlength]
        rw [← zip_append htake, take_append_drop, take_append_drop]

/-- The rows of some lines. -/
theorem unmarshal_exportLines {serde : Vmimport.Serde F} (hserde : Standard serde) {mn : MetricName}
    (hutf8 : ∀ label ∈ labelsOf mn, isValidUtf8 label.1 = true ∧ isValidUtf8 label.2 = true)
    (hnodup : ((labelsOf mn).map Prod.fst).Nodup) {chunks : List (List F × List ℤ)}
    (hchunks : ∀ chunk ∈ chunks, chunk.1 ≠ [] ∧ chunk.1.length = chunk.2.length ∧
      (∀ f ∈ chunk.1, JsonReadsBack ops serde f) ∧ ∀ n ∈ chunk.2, -(2 ^ 63) ≤ n ∧ n < 2 ^ 63) :
    Vmimport.unmarshal ops.toF64Ops serde
        (chunks.flatMap fun chunk => writeExportJsonLine ops mn chunk.1 chunk.2) =
      chunks.map fun chunk =>
        Vmimport.unmarshalValue ops.toF64Ops serde (exportJsonValue ops mn chunk.1 chunk.2) := by
  have hlines := Vmimport.unmarshal_lineByLine ops.toF64Ops serde
  induction chunks with
  | nil => exact hlines.nil
  | cons chunk chunks ih =>
    obtain ⟨hne, hlength, hvalues, hrange⟩ := hchunks chunk mem_cons_self
    have htimestamps : ¬ chunk.2.isEmpty = true := by
      rwa [List.isEmpty_iff, ← length_eq_zero_iff, ← hlength, length_eq_zero_iff]
    have hline : Vmimport.unmarshal ops.toF64Ops serde
        (exportJsonLine ops mn chunk.1 chunk.2) = _ :=
      forLines_of_not_mem _ rfl (isLineText_exportLine hutf8 hvalues chunk.2).newline
    rw [flatMap_cons, writeExportJsonLine, if_neg htimestamps, append_assoc, singleton_append,
      hlines.append, hline, unmarshalRow_exportLine_json hserde hutf8 hnodup hvalues hrange,
      ih fun c hc => hchunks c (mem_cons_of_mem chunk hc)]
    rfl

/-- **An export is read back.** No line has a line end in it, every row has the labels of the
series, and the rows have its samples in their order. -/
theorem export_json_reimport (ops : F64Print F) {serde : Vmimport.Serde F} (hserde : Standard serde)
    (mn : MetricName)
    (hutf8 : ∀ label ∈ labelsOf mn, isValidUtf8 label.1 = true ∧ isValidUtf8 label.2 = true)
    (hnodup : ((labelsOf mn).map Prod.fst).Nodup) (hlabels : labelsOf mn ≠ []) (maxRows : ℕ)
    {values : List F} {timestamps : List ℤ} (hlength : values.length = timestamps.length)
    (hvalues : ∀ f ∈ values, JsonReadsBack ops serde f)
    (hrange : ∀ n ∈ timestamps, -(2 ^ 63) ≤ n ∧ n < 2 ^ 63) :
    (∀ chunk ∈ rowChunks maxRows values timestamps,
      '\n'.toUInt8 ∉ exportJsonLine ops mn chunk.1 chunk.2) ∧
      ∃ rows : List (Vmimport.Row F),
        Vmimport.unmarshal ops.toF64Ops serde (exportJson ops mn maxRows values timestamps) =
        rows.map .ok ∧
          (∀ row ∈ rows, row.tags = labelsOf mn ∧ row.values.length = row.timestamps.length) ∧
          (rows.flatMap fun row => row.timestamps.zip row.values) =
            timestamps.zip (values.map (canonicalNan ops)) := by
  obtain ⟨hchunks, hflat⟩ := rowChunks_spec maxRows hlength
  have hread : ∀ chunk ∈ rowChunks maxRows values timestamps, ∀ f ∈ chunk.1,
      JsonReadsBack ops serde f :=
    fun chunk hchunk f hf => hvalues f ((hchunks chunk hchunk).2.2.1 hf)
  refine ⟨fun chunk hchunk => (isLineText_exportLine hutf8 (hread chunk hchunk) chunk.2).newline,
    (rowChunks maxRows values timestamps).map fun chunk =>
      ⟨labelsOf mn, chunk.1.map (canonicalNan ops), chunk.2⟩, ?_, ?_, ?_⟩
  · rw [exportJson, unmarshal_exportLines hserde hutf8 hnodup fun chunk hchunk =>
      ⟨(hchunks chunk hchunk).1, (hchunks chunk hchunk).2.1, hread chunk hchunk,
        fun n hn => hrange n ((hchunks chunk hchunk).2.2.2 hn)⟩, map_map]
    refine map_congr_left fun chunk hchunk => ?_
    obtain ⟨hne, hlen, _, hsub⟩ := hchunks chunk hchunk
    exact unmarshalValue_exportJsonValue hserde hlabels (hread chunk hchunk)
      (fun n hn => hrange n (hsub hn)) hne hlen
  · intro row hrow
    obtain ⟨chunk, hchunk, rfl⟩ := mem_map.mp hrow
    exact ⟨rfl, (length_map _).trans (hchunks chunk hchunk).2.1⟩
  · have hzip : ∀ (vs : List F) (ts : List ℤ),
        ts.zip (vs.map (canonicalNan ops)) = (vs.zip ts).map fun s =>
        (s.2, canonicalNan ops s.1) := by
      intro vs ts
      rw [zip_map_right, ← zip_swap, map_map]
      rfl
    rw [flatMap_map, hzip, ← hflat, map_flatMap]
    exact flatMap_congr fun chunk _ => hzip chunk.1 chunk.2

/-- A parser with integers only. -/
def integerSerde : Vmimport.Serde ℤ where
  fromStr := Json.parseJson 127
  asF64 := strParseI64
  asI64 := strParseI64

theorem standard_integerSerde : Standard integerSerde where
  fromStr _ _ _ h _ := Json.parseJson_of_isJson h
  asF64 _ hle hlt := Option.isSome_of_eq_some (strParseI64_printInteger hle hlt)
  asI64 _ := strParseI64_printInteger

/-- A series with quotes, backslashes, control characters and line ends in a label. -/
def escapes : MetricName where
  metricGroup := ascii "up"
  tags := [⟨ascii "job", ascii "a\"b\\\n\r\t<" ++ [0x01, 0x27, 0xC3, 0xA9]⟩,
    ⟨ascii "le", ascii "1"⟩]

theorem export_json_reimport_escapes :
    (∀ chunk ∈ rowChunks 2 [(5 : ℤ), -7, 9] [1700000000000, 1700000001000, 1700000002000],
      '\n'.toUInt8 ∉ exportJsonLine integerPrint escapes chunk.1 chunk.2) ∧
      ∃ rows : List (Vmimport.Row ℤ),
        Vmimport.unmarshal integerOps integerSerde
            (exportJson integerPrint escapes 2 [5, -7, 9] [1700000000000, 1700000001000,
              1700000002000]) =
          rows.map .ok ∧
          (∀ row ∈ rows, row.tags = labelsOf escapes ∧ row.values.length = row.timestamps.length) ∧
          (rows.flatMap fun row => row.timestamps.zip row.values) =
            [1700000000000, 1700000001000, 1700000002000].zip
            ([5, -7, 9].map (canonicalNan integerPrint)) := by
  refine export_json_reimport integerPrint standard_integerSerde escapes (by decide)
    (Nodup.of_map List.head? (by decide)) (by decide) 2 rfl (fun f hf =>
      ⟨fun _ _ => isNumber_printInteger f, fun _ _ => ?_, nofun⟩) (by decide)
  revert f
  decide

/-- A series without labels. -/
def unlabeled : MetricName := ⟨[], []⟩

/-- Its line is not read back. -/
theorem export_json_unlabeled :
    Vmimport.unmarshal integerOps integerSerde (exportJson integerPrint unlabeled 0 [5]
      [1700000000000]) = [.error .missingTags] := by
  have hread : JsonReadsBack integerPrint integerSerde 5 :=
    ⟨fun _ _ => isNumber_printInteger 5, fun _ _ => by decide, nofun⟩
  have hchunks : rowChunks 0 [(5 : ℤ)] [1700000000000] = [([5], [1700000000000])] := by
    simp [rowChunks]
  rw [exportJson, hchunks]
  have hlines : ∀ chunk ∈ [([(5 : ℤ)], [(1700000000000 : ℤ)])],
      chunk.1 ≠ [] ∧ chunk.1.length = chunk.2.length ∧
      (∀ f ∈ chunk.1, JsonReadsBack integerPrint integerSerde f) ∧ ∀ n ∈ chunk.2, -(2 ^ 63) ≤ n ∧
      n < 2 ^ 63 := by
    simpa using hread
  have hutf8 : ∀ label ∈ labelsOf unlabeled, isValidUtf8 label.1 = true ∧
      isValidUtf8 label.2 = true := nofun
  exact unmarshal_exportLines standard_integerSerde hutf8 nodup_nil hlines

end Esmetrics.Select
