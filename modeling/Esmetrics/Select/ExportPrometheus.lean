import Esmetrics.Protoparser.Prometheus
import Esmetrics.Select.QtFloat
import Esmetrics.Storage.MetricName

/-!
# The export in the Prometheus text format

Model of `write_export_prometheus_line` of `esm-select/src/json.rs`. A series is written as a line
for each sample, and the parser of the Prometheus format reads the samples back (`export_reimport`):
a label value is closed for the search for the quote after it, and nothing else in a line is a
quote, a brace or a comment. Of the printed values is assumed that they are read back.
-/

namespace Esmetrics.Select

open List

open Protoparser

variable {F : Type} (ops : F64Print F)

/-! ### Lines -/

def escapePrometheusByte (c : UInt8) : Bytes :=
  if c = backslash then [backslash, backslash]
  else if c = '\n'.toUInt8 then [backslash, 'n'.toUInt8]
  else if c = quote then [backslash, quote]
  else [c]

/-- What `append_prometheus_label_value` writes. -/
def appendPrometheusLabelValue (value : Bytes) : Bytes :=
  quote :: (value.flatMap escapePrometheusByte ++ [quote])

def exportTag (tag : Tag) : Bytes := tag.key ++ '='.toUInt8 :: appendPrometheusLabelValue tag.value

/-- The name and the labels of a series. -/
def exportName (mn : MetricName) : Bytes :=
  if mn.tags.isEmpty then mn.metricGroup
  else mn.metricGroup ++ '{'.toUInt8 :: ([','.toUInt8].intercalate (mn.tags.map exportTag) ++
    ['}'.toUInt8])

/-- One sample. -/
def exportSample (mn : MetricName) (sample : F × ℤ) : Bytes :=
  exportName mn ++ ' '.toUInt8 ::
    (appendQtFloat ops sample.1 ++ ' '.toUInt8 :: (appendI64 sample.2 ++ ['\n'.toUInt8]))

/-- What `write_export_prometheus_line` writes for the values and timestamps of a series. -/
def writeExportPrometheusLine (mn : MetricName) (samples : List (F × ℤ)) : Bytes :=
  samples.flatMap (exportSample ops mn)

/-! ### What is read back of a line -/

/-- A letter, a digit, an underscore or a colon; outside ASCII, a byte of a letter. -/
def isNameByte (b : UInt8) : Bool :=
  isAsciiDigit b || ('a'.toUInt8 ≤ b && b ≤ 'z'.toUInt8) || ('A'.toUInt8 ≤ b && b ≤ 'Z'.toUInt8) ||
    b = '_'.toUInt8 || b = ':'.toUInt8 || 0x80 ≤ b

/-- A name: not empty, and made of such bytes. -/
def IsName (name : Bytes) : Prop := name ≠ [] ∧ ∀ b ∈ name, isNameByte b = true

instance (name : Bytes) : Decidable (IsName name) :=
  inferInstanceAs (Decidable (name ≠ [] ∧ ∀ b ∈ name, isNameByte b = true))

variable {name s : Bytes}

theorem IsName.not_mem (h : IsName name) {b : UInt8} (hb : isNameByte b = false) : b ∉ name :=
  fun hmem => Bool.false_ne_true (hb.symm.trans (h.2 b hmem))

theorem IsName.not_whitespace (h : IsName name) :
    ∀ b ∈ name, ¬ Prometheus.isWhitespace b = true := by
  intro b hb hspace
  rw [Prometheus.isWhitespace, Bool.or_eq_true, decide_eq_true_eq, decide_eq_true_eq] at hspace
  obtain rfl | rfl := hspace
  · exact h.not_mem (by decide) hb
  · exact h.not_mem (by decide) hb

/-- Nothing is skipped before a byte that is not white space. -/
theorem skipLeadingWhitespace_append (hne : name ≠ [])
    (h : ∀ b ∈ name, ¬ Prometheus.isWhitespace b = true)
    (s : Bytes) : Prometheus.skipLeadingWhitespace (name ++ s) = name ++ s := by
  have hname : Prometheus.skipLeadingWhitespace name = name :=
    dropWhile_eq_self_iff.mpr fun _ => h _ (getElem_mem _)
  rw [Prometheus.skipLeadingWhitespace_append (hname.symm ▸ hne), hname]

theorem skipTrailingWhitespace_of_last (b : UInt8) (h : ¬ Prometheus.isWhitespace b = true) :
    Prometheus.skipTrailingWhitespace (s ++ [b]) = s ++ [b] := by
  rw [Prometheus.skipTrailingWhitespace, rdropWhile_eq_self_iff]
  intro hne
  rwa [getLast_append_singleton]

theorem skipTrailingWhitespace_of_forall (h : ∀ b ∈ s, ¬ Prometheus.isWhitespace b = true) :
    Prometheus.skipTrailingWhitespace s = s := by
  rw [Prometheus.skipTrailingWhitespace, rdropWhile_eq_self_iff]
  exact fun hne => h _ (getLast_mem hne)

/-! ### Labels -/

theorem closed_escapePrometheus (value : Bytes) :
    Closed backslash quote (value.flatMap escapePrometheusByte) := by
  refine Closed.flatMap fun c _ => ?_
  rw [escapePrometheusByte]
  split_ifs with hbackslash hnewline hquote
  · exact Closed.pair (by decide) _
  · exact Closed.pair (by decide) _
  · exact Closed.pair (by decide) _
  · exact Closed.singleton hquote hbackslash

theorem unescapeValue_escapePrometheus (value : Bytes) :
    Prometheus.unescapeValue (value.flatMap escapePrometheusByte) = value := by
  refine unescape_flatMap fun c _ => ?_
  rw [escapePrometheusByte]
  split_ifs with hbackslash hnewline hquote
  · exact .inr ⟨_, rfl, by rw [hbackslash]; decide⟩
  · exact .inr ⟨_, rfl, by rw [hnewline]; decide⟩
  · exact .inr ⟨_, rfl, by rw [hquote]; decide⟩
  · exact .inl ⟨rfl, hbackslash⟩

/-- A label value with its quotes is cut off. -/
theorem extractQuoted_labelValue (value rest : Bytes) :
    Prometheus.extractQuoted (appendPrometheusLabelValue value ++ rest) true =
      .ok (value.flatMap escapePrometheusByte, rest) := by
  have hclosing : Prometheus.findClosingQuote (appendPrometheusLabelValue value ++ rest) =
      some (1 + (value.flatMap escapePrometheusByte).length) := by
    rw [Prometheus.findClosingQuote, appendPrometheusLabelValue, cons_append,
      head?_cons, if_pos rfl, tail_cons, append_assoc, singleton_append,
      (closed_escapePrometheus value).findUnescaped_append (by decide)]
    rfl
  rw [Prometheus.extractQuoted, hclosing, if_neg (by simp [appendPrometheusLabelValue]),
    if_neg (by simp)]
  dsimp only
  rw [appendPrometheusLabelValue, cons_append, Nat.add_comm 1, take_succ_cons, append_assoc,
    take_left, drop_succ_cons, drop_zero, drop_succ_cons, ← drop_drop, drop_left]
  rfl

/-- A quote that is not the first byte comes after a key. -/
theorem unmarshalTagStart_of_key {metric : Bytes} {n : ℕ}
    (hskip : Prometheus.skipLeadingWhitespace s = s)
    (h : s.idxOf? quote = some (n + 1)) :
    Prometheus.unmarshalTagStart true metric s =
      let keyPart := Prometheus.skipTrailingWhitespace (s.take (n + 1))
      if keyPart.getLast? ≠ some '='.toUInt8 then
        .error [.text "missing value for unquoted tag ", .debug s]
      else .ok (.key (Prometheus.skipTrailingWhitespace keyPart.dropLast) (s.drop (n + 1))) := by
  rw [Prometheus.unmarshalTagStart, hskip]
  dsimp only
  rw [h]
  rfl

theorem unmarshalTagStart_exportTag {tag : Tag} (hkey : IsName tag.key) (metric rest : Bytes) :
    Prometheus.unmarshalTagStart true metric (exportTag tag ++ rest) =
      .ok (.key tag.key (appendPrometheusLabelValue tag.value ++ rest)) := by
  have hequals : ¬ Prometheus.isWhitespace '='.toUInt8 = true := by decide
  have htext : exportTag tag ++ rest =
      (tag.key ++ ['='.toUInt8]) ++ (appendPrometheusLabelValue tag.value ++ rest) := by
    rw [exportTag, append_assoc, append_assoc, singleton_append, cons_append]
  have hquote : quote ∉ tag.key ++ ['='.toUInt8] := by
    rw [mem_append, not_or]
    exact ⟨hkey.not_mem (by decide), by decide⟩
  have hskip : Prometheus.skipLeadingWhitespace (exportTag tag ++ rest) =
      exportTag tag ++ rest := by
    rw [exportTag, append_assoc]
    exact skipLeadingWhitespace_append hkey.1 hkey.not_whitespace _
  have hidx : (exportTag tag ++ rest).idxOf? quote = some (tag.key.length + 1) := by
    rw [htext, appendPrometheusLabelValue, cons_append, idxOf?_append_cons hquote, length_append,
      length_singleton]
  have hlength : tag.key.length + 1 = (tag.key ++ ['='.toUInt8]).length := by
    rw [length_append, length_singleton]
  rw [unmarshalTagStart_of_key hskip hidx, htext, hlength, take_left, drop_left,
    skipTrailingWhitespace_of_last _ hequals]
  dsimp only
  rw [if_neg (by simp), dropLast_concat, skipTrailingWhitespace_of_forall hkey.not_whitespace]

/-- **One label**, before a comma or the closing brace. -/
theorem unmarshalTagPass_exportTag {tag : Tag} (hkey : IsName tag.key) (metric : Bytes) {c : UInt8}
    (hc : c = ','.toUInt8 ∨ c = '}'.toUInt8) (rest : Bytes) :
    Prometheus.unmarshalTagPass true metric (exportTag tag ++ c :: rest) =
      .ok ⟨metric, [⟨tag.key, tag.value⟩], rest, c = '}'.toUInt8⟩ := by
  have hpass : Prometheus.unmarshalTagPass true metric (exportTag tag ++ c :: rest) =
      Prometheus.unmarshalTagEnd metric tag.key (tag.value.flatMap escapePrometheusByte)
      (c :: rest) := by
    rw [Prometheus.unmarshalTagPass, unmarshalTagStart_exportTag hkey]
    change (Prometheus.extractQuoted (appendPrometheusLabelValue tag.value ++ c :: rest)
      true >>= fun p =>
      Prometheus.unmarshalTagEnd metric tag.key p.1 p.2) = _
    rw [extractQuoted_labelValue]
    rfl
  have hskip : Prometheus.skipLeadingWhitespace (c :: rest) = c :: rest := by
    refine dropWhile_cons_of_neg ?_
    obtain rfl | rfl := hc <;> decide
  have hempty : ¬ tag.key.isEmpty = true := by simpa using hkey.1
  rw [hpass, Prometheus.unmarshalTagEnd, hskip, if_neg hempty, unescapeValue_escapePrometheus]
  dsimp only
  obtain rfl | rfl := hc
  · rw [if_neg (by decide), if_neg (by decide)]
    rfl
  · rw [if_pos rfl]
    rfl

/-- **All labels.** -/
theorem unmarshalTags_exportTags (metric rest : Bytes) (tag : Tag) (tags : List Tag)
    (hkeys : ∀ t ∈ tag :: tags, IsName t.key) :
    Prometheus.unmarshalTags true metric
        ([','.toUInt8].intercalate ((tag :: tags).map exportTag) ++ '}'.toUInt8 :: rest) =
      .ok (metric, (tag :: tags).map fun t => ⟨t.key, t.value⟩, rest) := by
  have hkey := hkeys tag mem_cons_self
  induction tags generalizing tag with
  | nil =>
    rw [map_singleton, intercalate_singleton,
      Prometheus.unmarshalTags_of_ok (unmarshalTagPass_exportTag hkey metric (.inr rfl) rest),
      if_pos (by simp)]
    rfl
  | cons tag' tags ih =>
    have hkeys' : ∀ t ∈ tag' :: tags, IsName t.key := fun t ht => hkeys t (mem_cons_of_mem tag ht)
    rw [map_cons, map_cons, intercalate_cons_cons, append_assoc, append_assoc,
      singleton_append,
      Prometheus.unmarshalTags_of_ok (unmarshalTagPass_exportTag hkey metric (.inl rfl) _),
      if_neg (show ¬ decide (','.toUInt8 = '}'.toUInt8) = true by decide), ← map_cons,
      ih tag' hkeys' (hkeys' tag' mem_cons_self)]
    rfl

/-! ### Samples -/

/-- The bytes of a printed number. -/
def isNumberByte (b : UInt8) : Bool := isAsciiDigit b || b ∈ ascii "-+.NaInf"

/-- What is assumed of a value: `Display` writes digits, a sign and a point, what is written is read
back, and there are two infinities. -/
structure ReadsBack (f : F) : Prop where
  display : ∀ b ∈ ops.display f, isAsciiDigit b = true ∨ b ∈ ascii "-."
  reads : ops.isNan f = false → ops.isInfinite f = false →
    parsePromFloat ops.toF64Ops (appendQtFloat ops f) = .ok f
  infinite : ops.isInfinite f = true → f = signed ops.toF64Ops (!ops.isPositive f) ops.infinity

/-- What is assumed of a timestamp in milliseconds: `f64` has it. -/
structure HasTimestamp (n : ℤ) : Prop where
  notSeconds : ops.inSecondsRange (ops.ofInt n) = false
  toI64 : ops.toI64 (ops.ofInt n) = n

variable {ops}

theorem isNumberByte_printInteger (n : ℤ) : ∀ b ∈ printInteger n, isNumberByte b = true := by
  intro b hb
  cases n with
  | ofNat n =>
    rw [Int.ofNat_eq_natCast, printInteger_natCast] at hb
    rw [isNumberByte, (toDigits_digits n).1 b hb, Bool.true_or]
  | negSucc n =>
    rw [printInteger_negSucc] at hb
    obtain rfl | hb := mem_cons.mp hb
    · decide
    · rw [printInteger_natCast] at hb
      rw [isNumberByte, (toDigits_digits _).1 b hb, Bool.true_or]

theorem ReadsBack.isNumberByte {f : F} (h : ReadsBack ops f) : ∀ b ∈ appendQtFloat ops f,
    isNumberByte b = true := by
  intro b hb
  rw [appendQtFloat] at hb
  have hnamed : ∀ b ∈ ascii "NaN" ++ ascii "+Inf" ++ ascii "-Inf",
      Select.isNumberByte b = true := by
    decide +kernel
  have hsigns : ∀ b ∈ ascii "-.", b ∈ ascii "-+.NaInf" := by decide +kernel
  split_ifs at hb
  · exact hnamed b (mem_append_left _ (mem_append_left _ hb))
  · exact hnamed b (mem_append_left _ (mem_append_right _ hb))
  · exact hnamed b (mem_append_right _ hb)
  · exact isNumberByte_printInteger _ b hb
  · rw [Select.isNumberByte, Bool.or_eq_true, decide_eq_true_eq]
    exact (h.display b hb).imp_right (hsigns b)

theorem ReadsBack.parse {f : F} (h : ReadsBack ops f) :
    parsePromFloat ops.toF64Ops (appendQtFloat ops f) = .ok (canonicalNan ops f) := by
  rw [canonicalNan]
  by_cases hnan : ops.isNan f = true
  · rw [appendQtFloat, if_pos hnan, if_pos hnan]
    rfl
  · rw [if_neg hnan]
    by_cases hinf : ops.isInfinite f = true
    · have hf := h.infinite hinf
      rw [appendQtFloat, if_neg hnan, if_pos hinf]
      by_cases hpos : ops.isPositive f = true
      · rw [hpos] at hf
        rw [if_pos hpos, hf]
        rfl
      · rw [Bool.not_eq_true] at hpos
        rw [hpos] at hf ⊢
        rw [if_neg Bool.false_ne_true, hf]
        rfl
    · rw [Bool.not_eq_true] at hnan hinf
      exact h.reads hnan hinf

theorem not_mem_number (h : ∀ b ∈ s, isNumberByte b = true) {b : UInt8}
    (hb : isNumberByte b = false) :
    b ∉ s :=
  fun hmem => Bool.false_ne_true (hb.symm.trans (h b hmem))

theorem number_not_whitespace (h : ∀ b ∈ s, isNumberByte b = true) :
    ∀ b ∈ s, ¬ Prometheus.isWhitespace b = true := by
  intro b hb hspace
  rw [Prometheus.isWhitespace, Bool.or_eq_true, decide_eq_true_eq, decide_eq_true_eq] at hspace
  obtain rfl | rfl := hspace
  · exact not_mem_number h (by decide) hb
  · exact not_mem_number h (by decide) hb

theorem nextWhitespace_append (h : ∀ b ∈ s, ¬ Prometheus.isWhitespace b = true) (t : Bytes) :
    Prometheus.nextWhitespace (s ++ ' '.toUInt8 :: t) = some s.length := by
  have hnone : s.findIdx? Prometheus.isWhitespace = none :=
    findIdx?_eq_none_iff.mpr fun b hb => Bool.eq_false_iff.mpr (h b hb)
  have hspace : Prometheus.isWhitespace ' '.toUInt8 = true := by decide
  rw [Prometheus.nextWhitespace, findIdx?_append, hnone, findIdx?_cons, hspace]
  simp

theorem ReadsBack.ne_nil {f : F} (h : ReadsBack ops f) : appendQtFloat ops f ≠ [] := by
  intro heq
  have hparse := h.parse
  rw [heq] at hparse
  exact nomatch hparse

theorem appendI64_ne_nil (n : ℤ) (h : 0 ≤ n) : appendI64 n ≠ [] := by
  obtain ⟨n, rfl⟩ := Int.eq_ofNat_of_zero_le h
  rw [appendI64, printInteger_natCast]
  simp

/-- The value and the timestamp of a sample. -/
theorem unmarshalValueTimestamp_export {f : F} {n : ℤ} (hf : ReadsBack ops f)
    (hn : HasTimestamp ops n)
    (hle : 0 ≤ n) (hlt : n < 10 ^ 18) :
    Prometheus.unmarshalValueTimestamp ops.toF64Ops (appendQtFloat ops f ++ ' '.toUInt8 ::
      appendI64 n) = .ok (canonicalNan ops f, n) := by
  have hnumber : ∀ b ∈ appendI64 n, isNumberByte b = true := isNumberByte_printInteger n
  have hdrop : (appendQtFloat ops f ++ ' '.toUInt8 :: appendI64 n).drop
      ((appendQtFloat ops f).length + 1) =
      appendI64 n := by
    rw [← drop_drop, drop_left]
    rfl
  have hskip : Prometheus.skipLeadingWhitespace (appendI64 n) = appendI64 n := by
    have hskip := skipLeadingWhitespace_append (appendI64_ne_nil n hle)
      (number_not_whitespace hnumber) []
    rwa [append_nil] at hskip
  have hempty : ¬ (appendI64 n).isEmpty = true := by simpa using appendI64_ne_nil n hle
  have hparse : parsePromFloat ops.toF64Ops (appendI64 n) = .ok (ops.ofInt n) := by
    obtain ⟨n, rfl⟩ := Int.eq_ofNat_of_zero_le hle
    exact fastfloatParse_printInteger ops.toF64Ops (by omega)
  rw [Prometheus.unmarshalValueTimestamp, nextWhitespace_append
    (number_not_whitespace hf.isNumberByte)]
  dsimp only
  rw [take_left, hf.parse, hdrop, hskip, skipTrailingWhitespace_of_forall
    (number_not_whitespace hnumber),
    hparse]
  change (if (appendI64 n).isEmpty = true then Except.ok (canonicalNan ops f, 0)
    else .ok (canonicalNan ops f,
      ops.toI64 (if ops.inSecondsRange (ops.ofInt n) then _ else ops.ofInt n))) = _
  rw [if_neg hempty, hn.notSeconds, if_neg Bool.false_ne_true, hn.toI64]

/-- The metric name and the labels of a line. -/
theorem unmarshalMetric_exportName {mn : MetricName} (hname : IsName mn.metricGroup)
    (hkeys : ∀ tag ∈ mn.tags, IsName tag.key) {rest : Bytes} (hrest : '{'.toUInt8 ∉ rest) :
    ∃ rest', Prometheus.unmarshalMetric true (exportName mn ++ ' '.toUInt8 :: rest) =
      .ok (mn.metricGroup, mn.tags.map fun tag => ⟨tag.key, tag.value⟩, rest') ∧
        Prometheus.skipLeadingWhitespace rest' = Prometheus.skipLeadingWhitespace rest := by
  have hbrace : '{'.toUInt8 ∉ mn.metricGroup := hname.not_mem (by decide)
  rw [exportName, Prometheus.unmarshalMetric]
  cases htags : mn.tags with
  | nil =>
    refine ⟨rest, ?_, rfl⟩
    have hidx : (mn.metricGroup ++ ' '.toUInt8 :: rest).idxOf? '{'.toUInt8 = none := by
      rw [idxOf?_eq_none_iff, mem_append, mem_cons]
      rintro (h | h | h)
      · exact hbrace h
      · exact absurd h (by decide)
      · exact hrest h
    rw [isEmpty_nil, if_pos rfl, hidx]
    dsimp only
    rw [nextWhitespace_append hname.not_whitespace]
    dsimp only
    rw [take_left, ← drop_drop, drop_left]
    rfl
  | cons tag tags =>
    refine ⟨' '.toUInt8 :: rest, ?_, dropWhile_cons_of_pos (by decide)⟩
    rw [htags] at hkeys
    rw [if_neg (by simp), append_assoc, cons_append, idxOf?_append_cons hbrace]
    dsimp only
    rw [take_left, skipTrailingWhitespace_of_forall hname.not_whitespace, ← drop_drop, drop_left,
      drop_one, tail_cons, append_assoc, singleton_append]
    exact unmarshalTags_exportTags mn.metricGroup _ tag tags hkeys

theorem exportName_eq_append (mn : MetricName) : ∃ labels,
    exportName mn = mn.metricGroup ++ labels := by
  rw [exportName]
  split_ifs
  · exact ⟨[], (append_nil _).symm⟩
  · exact ⟨_, rfl⟩

/-- A line of the export, without its end. -/
def exportLine (ops : F64Print F) (mn : MetricName) (sample : F × ℤ) : Bytes :=
  exportName mn ++ ' '.toUInt8 :: (appendQtFloat ops sample.1 ++ ' '.toUInt8 :: appendI64 sample.2)

theorem exportSample_eq (mn : MetricName) (sample : F × ℤ) :
    exportSample ops mn sample = exportLine ops mn sample ++ ['\n'.toUInt8] := by
  rw [exportSample, exportLine, append_assoc, cons_append, append_assoc, cons_append]

section Line

variable {mn : MetricName} (hname : IsName mn.metricGroup) (hkeys : ∀ tag ∈ mn.tags, IsName tag.key)
  {sample : F × ℤ} (hf : ReadsBack ops sample.1) (hn : HasTimestamp ops sample.2)
  (hle : 0 ≤ sample.2)
  (hlt : sample.2 < 10 ^ 18)

include hf in
theorem not_mem_exportValue {b : UInt8} (hb : isNumberByte b = false) (hspace : b ≠ ' '.toUInt8) :
    b ∉ appendQtFloat ops sample.1 ++ ' '.toUInt8 :: appendI64 sample.2 := by
  rw [mem_append, mem_cons]
  rintro (h | h | h)
  · exact not_mem_number hf.isNumberByte hb h
  · exact hspace h
  · exact not_mem_number (isNumberByte_printInteger _) hb h

include hname hkeys hf hn hle hlt in
theorem unmarshalSingleRow_exportLine :
    Prometheus.unmarshalSingleRow ops.toF64Ops true (exportLine ops mn sample) =
      .ok ⟨mn.metricGroup, mn.tags.map fun tag => ⟨tag.key, tag.value⟩, canonicalNan ops sample.1,
        sample.2⟩ := by
  obtain ⟨labels, hlabels⟩ := exportName_eq_append mn
  have hskip : Prometheus.skipLeadingWhitespace (exportLine ops mn sample) =
      exportLine ops mn sample := by
    rw [exportLine, hlabels, append_assoc]
    exact skipLeadingWhitespace_append hname.1 hname.not_whitespace _
  have hbrace : '{'.toUInt8 ∉ appendQtFloat ops sample.1 ++ ' '.toUInt8 :: appendI64 sample.2 :=
    not_mem_exportValue hf (by decide) (by decide)
  obtain ⟨rest, hmetric, hrest⟩ := unmarshalMetric_exportName hname hkeys hbrace
  have hvalue : Prometheus.skipLeadingWhitespace (appendQtFloat ops sample.1 ++ ' '.toUInt8 ::
      appendI64 sample.2) = appendQtFloat ops sample.1 ++ ' '.toUInt8 :: appendI64 sample.2 :=
    skipLeadingWhitespace_append hf.ne_nil (number_not_whitespace hf.isNumberByte) _
  have hcomment : Prometheus.skipTrailingComment
      (appendQtFloat ops sample.1 ++ ' '.toUInt8 :: appendI64 sample.2) =
        appendQtFloat ops sample.1 ++ ' '.toUInt8 :: appendI64 sample.2 := by
    rw [Prometheus.skipTrailingComment,
      idxOf?_eq_none_iff.mpr (not_mem_exportValue hf (by decide) (by decide))]
  have hgroup : ¬ mn.metricGroup.isEmpty = true := by simpa using hname.1
  rw [Prometheus.unmarshalSingleRow, hskip, exportLine, hmetric]
  change (if mn.metricGroup.isEmpty = true then _ else
    if (Prometheus.skipTrailingComment (Prometheus.skipLeadingWhitespace rest)).isEmpty =
      true then _ else _) = _
  rw [if_neg hgroup, hrest, hvalue, hcomment, if_neg (by simp),
    unmarshalValueTimestamp_export hf hn hle hlt]
  rfl

include hname hkeys hf hn hle hlt in
/-- **One line.** -/
theorem unmarshalRow_exportLine :
    Prometheus.unmarshalRow ops.toF64Ops true (exportLine ops mn sample) =
      [.ok ⟨mn.metricGroup, mn.tags.map fun tag => ⟨tag.key, tag.value⟩, canonicalNan ops sample.1,
        sample.2⟩] := by
  obtain ⟨labels, hlabels⟩ := exportName_eq_append mn
  obtain ⟨b, group, hgroup⟩ := exists_cons_of_ne_nil hname.1
  have hhead : (exportLine ops mn sample).head? = some b := by
    rw [exportLine, hlabels, hgroup]
    rfl
  have hb : b ∈ mn.metricGroup := by
    rw [hgroup]
    exact mem_cons_self
  have hskip : Prometheus.skipLeadingWhitespace (exportLine ops mn sample) =
      exportLine ops mn sample := by
    rw [exportLine, hlabels, append_assoc]
    exact skipLeadingWhitespace_append hname.1 hname.not_whitespace _
  have hlast : (exportLine ops mn sample).getLast? ≠ some '\r'.toUInt8 := by
    have hsplit : exportLine ops mn sample =
        (exportName mn ++ ' '.toUInt8 :: (appendQtFloat ops sample.1 ++ [' '.toUInt8])) ++
        appendI64 sample.2 := by
      rw [exportLine, append_assoc, cons_append, append_assoc, singleton_append]
    rw [hsplit, getLast?_append_of_ne_nil _ (appendI64_ne_nil _ hle)]
    intro hreturn
    exact not_mem_number (isNumberByte_printInteger _) (by decide) (mem_of_getLast? hreturn)
  have hempty : ¬ (exportLine ops mn sample).isEmpty = true := by
    intro hempty
    rw [isEmpty_iff.mp hempty] at hhead
    exact nomatch hhead
  have hcomment : ¬ (exportLine ops mn sample).head? = some '#'.toUInt8 := by
    rw [hhead]
    rintro heq
    rw [Option.some.inj heq] at hb
    exact hname.not_mem (by decide) hb
  rw [Prometheus.unmarshalRow, if_neg hlast, hskip, if_neg hempty, if_neg hcomment,
    unmarshalSingleRow_exportLine hname hkeys hf hn hle hlt]

include hname hkeys hf in
theorem newline_not_mem_exportLine : '\n'.toUInt8 ∉ exportLine ops mn sample := by
  have hnewline : isNameByte '\n'.toUInt8 = false := by decide
  have hvalue : ∀ value : Bytes, '\n'.toUInt8 ∉ appendPrometheusLabelValue value := by
    intro value
    rw [appendPrometheusLabelValue, mem_cons, mem_append, mem_flatMap]
    rintro (h | ⟨c, _, h⟩ | h)
    · exact absurd h (by decide)
    · rw [escapePrometheusByte] at h
      split_ifs at h with hbackslash hn hquote
      · exact absurd h (by decide)
      · exact absurd h (by decide)
      · exact absurd h (by decide)
      · exact hn (mem_singleton.mp h).symm
    · exact absurd h (by decide)
  have htag : ∀ tag ∈ mn.tags, '\n'.toUInt8 ∉ exportTag tag := by
    intro tag htag
    rw [exportTag, mem_append, mem_cons]
    rintro (h | h | h)
    · exact (hkeys tag htag).not_mem hnewline h
    · exact absurd h (by decide)
    · exact hvalue tag.value h
  have htags : '\n'.toUInt8 ∉ [','.toUInt8].intercalate (mn.tags.map exportTag) := by
    refine intercalate_induction (motive := fun s => '\n'.toUInt8 ∉ s) not_mem_nil ?_ (by decide) ?_
    · intro u v hu hv hmem
      exact (mem_append.mp hmem).elim hu hv
    · intro w hw
      obtain ⟨tag, htag', rfl⟩ := mem_map.mp hw
      exact htag tag htag'
  have hexport : '\n'.toUInt8 ∉ exportName mn := by
    rw [exportName]
    split_ifs
    · exact hname.not_mem hnewline
    · rw [mem_append, mem_cons, mem_append]
      rintro (h | h | h | h)
      · exact hname.not_mem hnewline h
      · exact absurd h (by decide)
      · exact htags h
      · exact absurd h (by decide)
  rw [exportLine, mem_append, mem_cons]
  rintro (h | h | h)
  · exact hexport h
  · exact absurd h (by decide)
  · exact not_mem_exportValue hf (by decide) (by decide) h

end Line

/-- **An export is read back**: a row for each sample, in their order, with the metric name and the
labels of the series. -/
theorem export_reimport (ops : F64Print F) (mn : MetricName) (hname : IsName mn.metricGroup)
    (hkeys : ∀ tag ∈ mn.tags, IsName tag.key) (samples : List (F × ℤ))
    (hrange : ∀ sample ∈ samples, 2 ^ 31 ≤ sample.2 ∧ sample.2 < 2 ^ 53)
    (hvalues : ∀ sample ∈ samples, ReadsBack ops sample.1)
    (htimestamps : ∀ n : ℤ, 2 ^ 31 ≤ n → n < 2 ^ 53 → HasTimestamp ops n) :
    Prometheus.unmarshal ops.toF64Ops (writeExportPrometheusLine ops mn samples) =
      samples.map fun sample => .ok ⟨mn.metricGroup, mn.tags.map fun tag => ⟨tag.key, tag.value⟩,
        canonicalNan ops sample.1, sample.2⟩ := by
  have hlines := Prometheus.unmarshal_lineByLine ops.toF64Ops
  induction samples with
  | nil => exact hlines.nil
  | cons sample samples ih =>
    have ih := ih (fun s hs => hrange s (mem_cons_of_mem sample hs))
      (fun s hs => hvalues s (mem_cons_of_mem sample hs))
    obtain ⟨hle, hlt⟩ := hrange sample mem_cons_self
    have hvalue := hvalues sample mem_cons_self
    have hline : Prometheus.unmarshal ops.toF64Ops (exportLine ops mn sample) = _ :=
      (Prometheus.unmarshal_eq ops.toF64Ops _).trans
        (forLines_of_not_mem _ rfl (newline_not_mem_exportLine hname hkeys hvalue))
    rw [writeExportPrometheusLine, flatMap_cons, exportSample_eq, append_assoc, singleton_append,
      hlines.append, hline,
      unmarshalRow_exportLine hname hkeys hvalue (htimestamps sample.2 hle hlt)
      (by omega) (by omega), ← writeExportPrometheusLine, ih]
    rfl

/-- A series with quotes, backslashes, line ends, braces and commas in a label. -/
def requests : MetricName where
  metricGroup := ascii "http_requests:total"
  tags := [⟨ascii "job", ascii "a\"b\\\n\r#,= \x7b"⟩, ⟨ascii "le", []⟩]

theorem export_reimport_requests :
    Prometheus.unmarshal integerOps
        (writeExportPrometheusLine integerPrint requests [(5, 1700000000000),
          (-7, 1700000001000)]) =
      [.ok ⟨requests.metricGroup, requests.tags.map fun tag => ⟨tag.key, tag.value⟩, 5,
        1700000000000⟩,
        .ok ⟨requests.metricGroup, requests.tags.map fun tag => ⟨tag.key, tag.value⟩, -7,
          1700000001000⟩] := by
  have hinteger : ∀ n ∈ [(5 : ℤ), -7], ReadsBack integerPrint n := by
    intro n hn
    refine ⟨?_, fun _ _ => ?_, nofun⟩
    · revert n
      decide +kernel
    · revert n
      decide
  refine export_reimport integerPrint requests ⟨by decide, by decide +kernel⟩ ?_ _ (by decide) ?_
    fun n hle hlt => ?_
  · decide +kernel
  · intro sample hsample
    exact hinteger sample.1 (mem_map_of_mem (f := Prod.fst) hsample)
  · have hnot : ¬ (-(2 ^ 31) ≤ n ∧ n < 2 ^ 31) := by omega
    exact ⟨decide_eq_false hnot, rfl⟩

end Esmetrics.Select
