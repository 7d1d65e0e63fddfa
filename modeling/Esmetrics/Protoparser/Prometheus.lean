import Mathlib.Data.List.DropRight
import Esmetrics.Lib.Lines
import Esmetrics.Protoparser.FastFloat

/-!
# Prometheus text format

Model of `Rows::unmarshal` of `esm-protoparser/src/prometheus.rs`. A line that fails is skipped and
its error is logged: a text gives its rows and errors in the order of the lines. Whether there are
escape characters is found out for the whole text, but makes a difference only to lines with escape
characters (`unmarshal_eq`), so that the lines are read one by one (`unmarshal_lineByLine`).
-/

namespace Esmetrics.Protoparser.Prometheus

open List

structure Tag where
  key : Bytes
  value : Bytes
deriving DecidableEq

structure Row (F : Type) where
  metric : Bytes
  tags : List Tag
  value : F
  timestamp : ℤ
deriving DecidableEq

def isWhitespace (b : UInt8) : Bool := b = ' '.toUInt8 || b = '\t'.toUInt8

def skipLeadingWhitespace (s : Bytes) : Bytes := s.dropWhile isWhitespace

def skipTrailingWhitespace (s : Bytes) : Bytes := s.rdropWhile isWhitespace

def skipTrailingComment (s : Bytes) : Bytes :=
  match s.idxOf? '#'.toUInt8 with
  | none => s
  | some n => s.take n

def nextWhitespace (s : Bytes) : Option ℕ := s.findIdx? isWhitespace

/-! ### Quoted strings -/

def findClosingQuote (s : Bytes) : Option ℕ :=
  if s.head? = some quote then (findUnescaped backslash quote s.tail).map (1 + ·) else none

/-- The text between the quotes, as it is, and what comes after them. -/
def extractQuoted (s : Bytes) (hasEscapeChars : Bool) : Except Message (Bytes × Bytes) :=
  if s.head? ≠ some quote then .error [.text "missing starting double quote in string: ", .debug s]
  else if ¬ hasEscapeChars then
    match s.tail.idxOf? quote with
    | none => .error [.text "missing closing double quote in string: ", .debug s]
    | some n => .ok (s.tail.take n, s.drop (n + 2))
  else match findClosingQuote s with
    | none => .error [.text "missing closing double quote in string: ", .debug s]
    | some n => .ok ((s.take n).drop 1, s.drop (n + 1))

/-- What an escape sequence stands for. -/
def unescapeByte (b : UInt8) : Bytes :=
  if b = backslash then [backslash]
  else if b = quote then [quote]
  else if b = 'n'.toUInt8 then ['\n'.toUInt8]
  else [backslash, b]

def unescapeValue (s : Bytes) : Bytes := unescape backslash unescapeByte s

/-! ### Tags -/

/-- What a pass of the loop of `unmarshal_tags` finds before a value. -/
inductive TagStart
  /-- The closing brace. -/
  | close (rest : Bytes)
  /-- A metric name in quotes. -/
  | metric (name rest : Bytes)
  | key (key rest : Bytes)
deriving DecidableEq

/-- After a key in quotes, which is the metric name when no value follows. -/
def unmarshalQuotedKey (metric rawKey rest : Bytes) : Except Message TagStart :=
  match skipLeadingWhitespace rest with
  | [] => .ok (.key rawKey [])
  | c :: rest =>
    if c = ','.toUInt8 ∨ c = '}'.toUInt8 then
      if ¬ metric.isEmpty then
        .error [.text "metric name ", .debug metric, .text " already set, duplicate metric name ",
          .debug rawKey]
      else .ok (.metric rawKey (if ¬ rest.isEmpty ∧ c = ','.toUInt8 then rest else c :: rest))
    else if c ≠ '='.toUInt8 then .error [.text "missing value for quoted tag ", .debug rawKey]
    else .ok (.key rawKey (skipLeadingWhitespace rest))

def unmarshalTagStart (hasEscapeChars : Bool) (metric s : Bytes) : Except Message TagStart :=
  let s := skipLeadingWhitespace s
  match s.idxOf? quote with
  | none =>
    if s.head? = some '}'.toUInt8 then .ok (.close s.tail)
    else .error [.text "missing value for tag ", .debug s]
  | some 0 => do
    let (rawKey, rest) ← extractQuoted s hasEscapeChars
    unmarshalQuotedKey metric rawKey rest
  | some n =>
    let keyPart := skipTrailingWhitespace (s.take n)
    if keyPart.getLast? ≠ some '='.toUInt8 then
      .error [.text "missing value for unquoted tag ", .debug s]
    else .ok (.key (skipTrailingWhitespace keyPart.dropLast) (s.drop n))

/-- What a pass reads: the metric name so far, the tags it adds, what is left, and whether it was
the last. -/
structure TagPass where
  metric : Bytes
  tags : List Tag
  rest : Bytes
  closed : Bool
deriving DecidableEq

/-- After a value. -/
def unmarshalTagEnd (metric key value rest : Bytes) : Except Message TagPass :=
  let tags := if key.isEmpty then [] else [⟨key, unescapeValue value⟩]
  match skipLeadingWhitespace rest with
  | [] => .error [.text "missing comma after tag ", .display key, .text "=", .debug value]
  | c :: rest =>
    if c = '}'.toUInt8 then .ok ⟨metric, tags, rest, true⟩
    else if c ≠ ','.toUInt8 then
      .error [.text "missing comma after tag ", .display key, .text "=", .debug value]
    else .ok ⟨metric, tags, rest, false⟩

def unmarshalTagPass (hasEscapeChars : Bool) (metric s : Bytes) : Except Message TagPass := do
  match ← unmarshalTagStart hasEscapeChars metric s with
  | .close rest => .ok ⟨metric, [], rest, true⟩
  | .metric name rest => .ok ⟨name, [], rest, false⟩
  | .key key rest => do
    let (value, rest) ← extractQuoted rest hasEscapeChars
    unmarshalTagEnd metric key value rest

theorem skipLeadingWhitespace_append {s : Bytes} (h : skipLeadingWhitespace s ≠ []) (t : Bytes) :
    skipLeadingWhitespace (s ++ t) = skipLeadingWhitespace s ++ t := by
  rw [skipLeadingWhitespace] at h ⊢
  rw [dropWhile_append, if_neg fun hempty => h (isEmpty_iff.mp hempty), skipLeadingWhitespace]

theorem skipLeadingWhitespace_suffix (s : Bytes) : skipLeadingWhitespace s <:+ s :=
  dropWhile_suffix _

variable {rest metric : Bytes} {hasEscapeChars : Bool}

theorem extractQuoted_suffix {s value : Bytes}
    (h : extractQuoted s hasEscapeChars = .ok (value, rest)) :
    rest <:+ s ∧ rest.length < s.length := by
  have hdrop (n : ℕ) (hs : s.head? = some quote) :
      s.drop (n + 1) <:+ s ∧ (s.drop (n + 1)).length < s.length := by
    refine ⟨drop_suffix _ _, ?_⟩
    cases s with
    | nil => cases hs
    | cons b s =>
      rw [length_drop, length_cons]
      omega
  rw [extractQuoted] at h
  split at h
  · cases h
  · next hs =>
    have hs := not_not.mp hs
    split at h
    · split at h
      · cases h
      · next n _ =>
        obtain ⟨-, rfl⟩ := Prod.mk.inj (Except.ok.inj h)
        exact hdrop (n + 1) hs
    · split at h
      · cases h
      · next n _ =>
        obtain ⟨-, rfl⟩ := Prod.mk.inj (Except.ok.inj h)
        exact hdrop n hs

/-- What is left after the start of a pass: less than before, unless a value is still to be read. -/
def TagStart.LeavesOf (s : Bytes) : TagStart → Prop
  | .close rest => rest <:+ s ∧ rest.length < s.length
  | .metric _ rest => rest <:+ s ∧ rest.length < s.length
  | .key _ rest => rest <:+ s

theorem unmarshalQuotedKey_leaves {rawKey : Bytes} {start : TagStart}
    (h : unmarshalQuotedKey metric rawKey rest = .ok start) {s : Bytes} (hsuffix : rest <:+ s)
    (hlt : rest.length < s.length) : start.LeavesOf s := by
  have hskip := skipLeadingWhitespace_suffix rest
  rw [unmarshalQuotedKey] at h
  generalize skipLeadingWhitespace rest = rest' at h hskip
  have hlen := hskip.length_le
  cases rest' with
  | nil =>
    obtain rfl := Except.ok.inj h
    exact nil_suffix
  | cons c rest' =>
    have htail : rest' <:+ s := ((suffix_cons c rest').trans hskip).trans hsuffix
    rw [length_cons] at hlen
    dsimp only at h
    split at h
    · split at h
      · exact nomatch h
      · obtain rfl := Except.ok.inj h
        split
        · exact ⟨htail, by omega⟩
        · refine ⟨hskip.trans hsuffix, ?_⟩
          rw [length_cons]
          omega
    · split at h
      · exact nomatch h
      · obtain rfl := Except.ok.inj h
        exact (skipLeadingWhitespace_suffix rest').trans htail

theorem unmarshalTagStart_leaves {s : Bytes} {start : TagStart}
    (h : unmarshalTagStart hasEscapeChars metric s = .ok start) : start.LeavesOf s := by
  have hskip := skipLeadingWhitespace_suffix s
  rw [unmarshalTagStart] at h
  generalize skipLeadingWhitespace s = s' at h hskip
  have hlen := hskip.length_le
  dsimp only at h
  split at h
  · split at h
    · next hclose =>
      obtain rfl := Except.ok.inj h
      cases s' with
      | nil => exact nomatch hclose
      | cons c rest => exact ⟨(suffix_cons c rest).trans hskip, hlen⟩
    · exact nomatch h
  · obtain ⟨⟨rawKey, rest⟩, hquoted, h⟩ := exists_of_bind_eq_ok h
    obtain ⟨hsuffix, hlt⟩ := extractQuoted_suffix hquoted
    exact unmarshalQuotedKey_leaves h (hsuffix.trans hskip) (hlt.trans_le hlen)
  · split at h
    · exact nomatch h
    · obtain rfl := Except.ok.inj h
      exact (drop_suffix _ _).trans hskip

theorem unmarshalTagEnd_suffix {key value : Bytes} {pass : TagPass}
    (h : unmarshalTagEnd metric key value rest = .ok pass) : pass.rest <:+ rest := by
  have hskip := skipLeadingWhitespace_suffix rest
  rw [unmarshalTagEnd] at h
  generalize skipLeadingWhitespace rest = rest' at h hskip
  cases rest' with
  | nil => exact nomatch h
  | cons c rest' =>
    have htail : rest' <:+ rest := (suffix_cons c rest').trans hskip
    dsimp only at h
    split at h
    · obtain rfl := Except.ok.inj h
      exact htail
    · split at h
      · exact nomatch h
      · obtain rfl := Except.ok.inj h
        exact htail

/-- Every pass of the loop consumes something. -/
theorem unmarshalTagPass_suffix {s : Bytes} {pass : TagPass}
    (h : unmarshalTagPass hasEscapeChars metric s = .ok pass) :
    pass.rest <:+ s ∧ pass.rest.length < s.length := by
  obtain ⟨start, hstart, h⟩ := exists_of_bind_eq_ok h
  have hleaves := unmarshalTagStart_leaves hstart
  cases start with
  | close rest =>
    obtain rfl := Except.ok.inj h
    exact hleaves
  | metric name rest =>
    obtain rfl := Except.ok.inj h
    exact hleaves
  | key key rest =>
    replace hleaves : rest <:+ s := hleaves
    obtain ⟨⟨value, rest'⟩, hquoted, h⟩ := exists_of_bind_eq_ok h
    obtain ⟨hsuffix, hlt⟩ := extractQuoted_suffix hquoted
    have hend := unmarshalTagEnd_suffix h
    have hlen := hend.length_le
    have hlen' := hleaves.length_le
    exact ⟨hend.trans (hsuffix.trans hleaves), by omega⟩

/-- The metric name, the tags, and what is left after them. -/
def unmarshalTags (hasEscapeChars : Bool) (metric s : Bytes) :
    Except Message (Bytes × List Tag × Bytes) :=
  match _hpass : unmarshalTagPass hasEscapeChars metric s with
  | .error err => .error err
  | .ok pass =>
    if pass.closed then .ok (pass.metric, pass.tags, pass.rest)
    else do
      let (metric, tags, rest) ← unmarshalTags hasEscapeChars pass.metric pass.rest
      .ok (metric, pass.tags ++ tags, rest)
termination_by s.length
decreasing_by exact (unmarshalTagPass_suffix _hpass).2

theorem unmarshalTags_of_error {s : Bytes} {err : Message}
    (h : unmarshalTagPass hasEscapeChars metric s = .error err) :
    unmarshalTags hasEscapeChars metric s = .error err := by
  rw [unmarshalTags]
  split
  · next herr => rw [Except.error.inj (herr.symm.trans h)]
  · next hok => exact nomatch h.symm.trans hok

theorem unmarshalTags_of_ok {s : Bytes} {pass : TagPass}
    (h : unmarshalTagPass hasEscapeChars metric s = .ok pass) :
    unmarshalTags hasEscapeChars metric s =
      if pass.closed then .ok (pass.metric, pass.tags, pass.rest)
      else (do
        let (metric, tags, rest) ← unmarshalTags hasEscapeChars pass.metric pass.rest
        .ok (metric, pass.tags ++ tags, rest)) := by
  rw [unmarshalTags]
  split
  · next herr => exact nomatch h.symm.trans herr
  · next hok =>
    obtain rfl := Except.ok.inj (h.symm.trans hok)
    rfl

/-! ### Rows -/

section Rows

variable {F : Type} (ops : F64Ops F)

/-- The value and the timestamp, which is zero when there is none. -/
def unmarshalValueTimestamp (s : Bytes) : Except Message (F × ℤ) :=
  match nextWhitespace s with
  | none => do
    let value ← (parsePromFloat ops s).mapError ([.text "cannot parse value ", .debug s,
        .text ": "] ++ ·)
    .ok (value, 0)
  | some n => do
    let value ← (parsePromFloat ops (s.take n)).mapError
      ([.text "cannot parse value ", .debug (s.take n), .text ": "] ++ ·)
    let rest := skipLeadingWhitespace (s.drop (n + 1))
    if rest.isEmpty then .ok (value, 0)
    else do
      let rest := skipTrailingWhitespace rest
      let ts ← (parsePromFloat ops rest).mapError
        ([.text "cannot parse timestamp ", .debug rest, .text ": "] ++ ·)
      let ts := if ops.inSecondsRange ts then ops.mul ts (ops.ofInt 1000) else ts
      .ok (value, ops.toI64 ts)

/-- The metric name and the tags. -/
def unmarshalMetric (hasEscapeChars : Bool) (s : Bytes) :
    Except Message (Bytes × List Tag × Bytes) :=
  match s.idxOf? '{'.toUInt8 with
  | some n => unmarshalTags hasEscapeChars (skipTrailingWhitespace (s.take n)) (s.drop (n + 1))
  | none =>
    match nextWhitespace s with
    | none => .error [.text "missing value"]
    | some n => .ok (s.take n, [], s.drop (n + 1))

def unmarshalSingleRow (hasEscapeChars : Bool) (s : Bytes) : Except Message (Row F) := do
  let (metric, tags, s) ← unmarshalMetric hasEscapeChars (skipLeadingWhitespace s)
  if metric.isEmpty then .error [.text "metric cannot be empty"]
  else
    let s := skipTrailingComment (skipLeadingWhitespace s)
    if s.isEmpty then .error [.text "value cannot be empty"]
    else do
      let (value, timestamp) ← unmarshalValueTimestamp ops s
      .ok ⟨metric, tags, value, timestamp⟩

/-- A line gives a row or an error, or nothing when it is empty or a comment. -/
def unmarshalRow (hasEscapeChars : Bool) (s : Bytes) : List (Except Message (Row F)) :=
  let s := if s.getLast? = some '\r'.toUInt8 then s.dropLast else s
  let s := skipLeadingWhitespace s
  if s.isEmpty then []
  else if s.head? = some '#'.toUInt8 then []
  else match unmarshalSingleRow ops hasEscapeChars s with
    | .ok row => [.ok row]
    | .error err =>
      [.error ([.text "cannot unmarshal Prometheus line ", .debug s, .text ": "] ++ err)]

/-- `Rows::unmarshal`: the rows, and the errors that are logged. -/
def unmarshal (s : Bytes) : List (Except Message (Row F)) :=
  forLines '\n'.toUInt8 (unmarshalRow ops (s.contains backslash)) s

end Rows

/-! ### Texts without escape characters -/

section Plain

variable {s : Bytes}

theorem extractQuoted_eq (h : backslash ∉ s) : extractQuoted s true = extractQuoted s false := by
  rw [extractQuoted, extractQuoted, if_neg (not_not.mpr rfl), if_pos Bool.false_ne_true]
  by_cases hs : s.head? = some quote
  · rw [if_neg (not_not.mpr hs), if_neg (not_not.mpr hs), findClosingQuote, if_pos hs,
      findUnescaped_of_not_mem fun hmem => h (mem_of_mem_tail hmem)]
    cases s with
    | nil => exact nomatch hs
    | cons b s =>
      rw [tail_cons]
      cases s.idxOf? quote with
      | none => rfl
      | some n =>
        rw [Option.map_some]
        dsimp only
        rw [Nat.add_comm 1 n, take_succ_cons, drop_succ_cons, drop_zero]
  · rw [if_pos hs, if_pos hs]

theorem not_mem_of_suffix {rest : Bytes} (h : backslash ∉ s) (hrest : rest <:+ s) :
    backslash ∉ rest :=
  fun hmem => h (hrest.mem hmem)

theorem unmarshalTagStart_eq (h : backslash ∉ s) (metric : Bytes) :
    unmarshalTagStart true metric s = unmarshalTagStart false metric s := by
  rw [unmarshalTagStart, unmarshalTagStart,
    extractQuoted_eq (not_mem_of_suffix h (skipLeadingWhitespace_suffix s))]

theorem unmarshalTagPass_eq (h : backslash ∉ s) (metric : Bytes) :
    unmarshalTagPass true metric s = unmarshalTagPass false metric s := by
  rw [unmarshalTagPass, unmarshalTagPass, unmarshalTagStart_eq h]
  cases hstart : unmarshalTagStart false metric s with
  | error err => rfl
  | ok start =>
    have hleaves := unmarshalTagStart_leaves hstart
    cases start with
    | close rest => rfl
    | metric name rest => rfl
    | key key rest =>
      change (do
        let (value, rest) ← extractQuoted rest true
        unmarshalTagEnd metric key value rest) = _
      rw [extractQuoted_eq (not_mem_of_suffix h hleaves)]
      rfl

theorem unmarshalTags_eq (h : backslash ∉ s) (metric : Bytes) :
    unmarshalTags true metric s = unmarshalTags false metric s := by
  induction metric, s using unmarshalTags.induct false with
  | case1 metric s err herr =>
    rw [unmarshalTags_of_error herr, unmarshalTags_of_error
      ((unmarshalTagPass_eq h metric).trans herr)]
  | case2 metric s pass hpass hclosed =>
    rw [unmarshalTags_of_ok hpass, unmarshalTags_of_ok ((unmarshalTagPass_eq h metric).trans hpass),
      if_pos hclosed, if_pos hclosed]
  | case3 metric s pass hpass hclosed ih =>
    rw [unmarshalTags_of_ok hpass, unmarshalTags_of_ok ((unmarshalTagPass_eq h metric).trans hpass),
      if_neg hclosed, if_neg hclosed, ih (not_mem_of_suffix h (unmarshalTagPass_suffix hpass).1)]

theorem unmarshalMetric_eq (h : backslash ∉ s) : unmarshalMetric true s =
    unmarshalMetric false s := by
  have htags (n : ℕ) (metric : Bytes) :
      unmarshalTags true metric (s.drop n) = unmarshalTags false metric (s.drop n) :=
    unmarshalTags_eq (not_mem_of_suffix h (drop_suffix n s)) metric
  simp only [unmarshalMetric, htags]

variable {F : Type} (ops : F64Ops F)

theorem unmarshalRow_eq (h : backslash ∉ s) : unmarshalRow ops true s =
    unmarshalRow ops false s := by
  have hline : backslash ∉ (if s.getLast? = some '\r'.toUInt8 then s.dropLast else s) := by
    split
    · exact fun hmem => h (mem_of_mem_dropLast hmem)
    · exact h
  have hskip := not_mem_of_suffix hline (skipLeadingWhitespace_suffix _)
  have hmetric := unmarshalMetric_eq (not_mem_of_suffix hskip (skipLeadingWhitespace_suffix _))
  simp only [unmarshalRow, unmarshalSingleRow, hmetric]

/-- The scanner that takes account of escape characters is right for every text. -/
theorem unmarshal_eq (s : Bytes) :
    unmarshal ops s = forLines '\n'.toUInt8 (unmarshalRow ops true) s := by
  refine forLines_congr _ fun l hl => ?_
  by_cases hmem : backslash ∈ s
  · rw [contains_iff_mem.mpr hmem]
  · rw [Bool.eq_false_iff.mpr fun hcontains => hmem (contains_iff_mem.mp hcontains),
      unmarshalRow_eq ops fun hl' => hmem (hl hl')]

/-- The rows and errors of a text are those of its lines. -/
theorem unmarshal_lineByLine : LineByLine '\n'.toUInt8 (unmarshal ops) := by
  rw [funext (unmarshal_eq ops)]
  exact forLines_lineByLine _ rfl

end Plain

end Esmetrics.Protoparser.Prometheus
