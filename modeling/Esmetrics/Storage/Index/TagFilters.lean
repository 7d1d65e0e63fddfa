import Mathlib.Data.List.Infix
import Mathlib.Data.List.Perm.Basic
import Esmetrics.Lib.Outcome
import Esmetrics.Lib.Utf8
import Esmetrics.Storage.MetricName

/-!
# Tag filters

Model of `TagFilter` and `TagFilters` (`esm-storage/src/index/tag_filters.rs`) and of
`match_tag_filters` (`esm-storage/src/index/search.rs`). A filter holds its key and value, the
prefix of the index entries that it may match, and a matcher for what follows that prefix. Values
are compared in the escaped form of the index, where the bytes 0, 1 and 2 take two bytes.

The regexp crate and `regexutil` are a parameter, `RegexpEngine`. What the code relies on is
`RegexpEngine.Lawful`: simplification keeps the language, the or-values are the language when there
are any, and a literal between `.*` and `.+` matches the text that has the literal there.

A filter with the key of the reversed Graphite names is skipped, and one with the key `__graphite__`
is compared with the entry of the metric group, which has another key. All other filters compare the
value of their label, where an absent label is the empty string (`matchTagFilters_iff`).
-/

namespace Esmetrics

open List

/-! ### Regular expressions -/

/-- The byte of an ASCII character. -/
def ch (c : Char) : UInt8 := UInt8.ofNat c.toNat

/-- The regexp crate and the simplification of regexps; expressions are their UTF-8 bytes. -/
structure RegexpEngine where
  /-- `regex::bytes::Regex::new` and `is_match`. -/
  compile : Bytes → Except String (Bytes → Bool)
  /-- The literal at the front of a regexp and the rest of it. -/
  simplifyPromRegex : Bytes → Bytes × Bytes
  getOrValuesPromRegex : Bytes → List Bytes

/-- The expression `^(?:expr)$`. -/
def anchored (expr : Bytes) : Bytes := ascii "^(?:" ++ expr ++ ascii ")$"

/-- What a byte of a regexp becomes for escaped values. -/
def tagCharRegexpEscape (a : UInt8) : Bytes :=
  if a = escapeChar then ascii "\\x000"
  else if a = tagSeparatorChar then ascii "\\x001"
  else if a = kvSeparatorChar then ascii "\\x002"
  else [a]

/-- Rewrites a regexp for escaped values: the bytes 0, 1 and 2, and their forms `\x00`, `\x01` and
`\x02` wherever these four characters stand. -/
def tagCharsRegexpEscape : Bytes → Bytes
  | a :: b :: c :: d :: rest =>
    if a = ch '\\' ∧ b = ch 'x' ∧ c = ch '0' ∧ (d = ch '0' ∨ d = ch '1' ∨ d = ch '2') then
      ascii "\\x00" ++ d :: tagCharsRegexpEscape rest
    else tagCharRegexpEscape a ++ tagCharsRegexpEscape (b :: c :: d :: rest)
  | a :: rest => tagCharRegexpEscape a ++ tagCharsRegexpEscape rest
  | [] => []

/-- The function `u8::from_str_radix` on two characters; it accepts a sign. -/
def hexByte (a b : UInt8) : Option UInt8 :=
  if a = ch '+' then hexVal b
  else
    match hexVal a, hexVal b with
    | some a, some b => some (16 * a + b)
    | _, _ => none

/-- The characters with a meaning in a regexp. -/
def regexpMetaChars : Bytes := ascii ".+*?()|[]\x7b\x7d^$"

/-- Reads a regexp that is a plain literal. -/
def parseRegexpLiteral : Bytes → Option Bytes
  | [] => some []
  | c :: src =>
    if c = ch '\\' then
      match src with
      | [] => none
      | e :: src =>
        if e = ch 'x' then
          match src with
          | a :: b :: src =>
            match hexByte a b with
            | some v => (parseRegexpLiteral src).map (v :: ·)
            | none => none
          | _ => none
        else if e ∈ regexpMetaChars ∨ e = ch '\\' ∨ e = ch '-' ∨ e = ch '/' then
          (parseRegexpLiteral src).map (e :: ·)
        else none
    else if c ∈ regexpMetaChars then none
    else (parseRegexpLiteral src).map (c :: ·)

/-- What stands at an end of a regexp: nothing, `.*` or `.+`. -/
inductive Dot where
  | none
  | star
  | plus
  deriving DecidableEq

/-- The expression. -/
def Dot.text : Dot → Bytes
  | .none => []
  | .star => ascii ".*"
  | .plus => ascii ".+"

/-- Splits `.*` or `.+` off the front. -/
def stripHead (expr : Bytes) : Dot × Bytes :=
  if Dot.star.text <+: expr then (.star, expr.drop 2)
  else if Dot.plus.text <+: expr then (.plus, expr.drop 2)
  else (.none, expr)

/-- Splits `.*` or `.+` off the end. -/
def stripTail (expr : Bytes) : Dot × Bytes :=
  if Dot.star.text <:+ expr then (.star, expr.take (expr.length - 2))
  else if Dot.plus.text <:+ expr then (.plus, expr.take (expr.length - 2))
  else (.none, expr)

def fullMatchCost : ℕ := 1
def prefixMatchCost : ℕ := 2
def literalMatchCost : ℕ := 3
def suffixMatchCost : ℕ := 4
def middleMatchCost : ℕ := 6
def reMatchCost : ℕ := 100

/-- The matcher for a literal between `head` and `tail`. -/
def literalMatchFunc (lit : Bytes) : Dot → Dot → (Bytes → Bool) × ℕ
  | .none, .none => (fun b => b == lit, literalMatchCost)
  | .none, .star => (fun b => decide (lit <+: b), prefixMatchCost)
  | .none, .plus => (fun b => decide (b.length > lit.length) && decide (lit <+: b), prefixMatchCost)
  | .star, .none => (fun b => decide (lit <:+ b), suffixMatchCost)
  | .plus, .none =>
    (fun b => decide (b.length > lit.length) && decide (lit <:+ b.drop 1), suffixMatchCost)
  | .star, .star => (fun b => decide (lit <:+: b), middleMatchCost)
  | .star, .plus =>
    (fun b => decide (b.length > lit.length) && decide (lit <:+: b.dropLast), middleMatchCost)
  | .plus, .star =>
    (fun b => decide (b.length > lit.length) && decide (lit <:+: b.drop 1), middleMatchCost)
  | .plus, .plus =>
    (fun b => decide (b.length > lit.length + 1) && decide (lit <:+: (b.drop 1).dropLast),
      middleMatchCost)

/-- The matcher of a regexp that was compiled to `re`, and its cost. -/
def getOptimizedReMatchFunc (re : Bytes → Bool) (expr : Bytes) : (Bytes → Bool) × ℕ :=
  let head := (stripHead expr).1
  let tail := (stripTail (stripHead expr).2).1
  let middle := (stripTail (stripHead expr).2).2
  if middle = [] ∧ tail = .none ∧ head = .star then (fun _ => true, fullMatchCost)
  else if middle = [] ∧ tail = .none ∧ head = .plus then (fun b => !b.isEmpty, fullMatchCost)
  else
    match parseRegexpLiteral middle with
    | some (a :: lit) => literalMatchFunc (a :: lit) head tail
    | _ => (re, reMatchCost)

/-- What the cache of regexps holds. -/
structure RegexpCacheValue where
  orValues : List Bytes
  reMatch : Bytes → Bool
  reCost : ℕ

/-- The matcher of or-values. -/
def newMatchFuncForOrSuffixes (orValues : List Bytes) : (Bytes → Bool) × ℕ :=
  (fun b => orValues.any fun v => b == v, orValues.length * literalMatchCost)

/-- Compiles a regexp for escaped values. The cache of the source only saves time. -/
def getRegexpFromCache (E : RegexpEngine) (expr : Bytes) : Except String RegexpCacheValue :=
  let escaped := tagCharsRegexpEscape expr
  match E.compile (anchored escaped) with
  | .error err => .error s!"invalid regexp {anchored escaped}: {err}"
  | .ok re =>
    let orValues := E.getOrValuesPromRegex escaped
    let m := if orValues.isEmpty then getOptimizedReMatchFunc re escaped
      else newMatchFuncForOrSuffixes orValues
    .ok ⟨orValues, m.1, m.2⟩

/-! ### Filters -/

/-- A filter on a tag. -/
structure TagFilter where
  key : Bytes
  value : Bytes
  isNegative : Bool
  isRegexp : Bool
  matchCost : ℕ
  /-- The literal at the front of a regexp. -/
  regexpPrefix : Bytes
  /-- What the index entries of the filter start with: namespace, key and escaped literal. -/
  tfPrefix : Bytes
  orSuffixes : List Bytes
  reSuffixMatch : Option (Bytes → Bool)
  isEmptyMatch : Bool

/-- The value in the form of the index without the separator at its end. -/
def marshalTagValueNoTrailingTagSeparator (dst src : Bytes) : Bytes :=
  (marshalTagValue dst src).dropLast

namespace TagFilter

/-- A new filter. -/
def init (E : RegexpEngine) (commonPrefix key value : Bytes) (isNegative isRegexp : Bool) :
    Except String TagFilter :=
  let keyPrefix := marshalTagValue commonPrefix key
  let plain (value : Bytes) : TagFilter :=
    { key := key, value := value, isNegative := isNegative, isRegexp := false
      matchCost := fullMatchCost, regexpPrefix := []
      tfPrefix := marshalTagValueNoTrailingTagSeparator keyPrefix value
      orSuffixes := [[]], reSuffixMatch := none, isEmptyMatch := value.isEmpty }
  if !isRegexp then .ok (plain value)
  else if !isValidUtf8 value then .error s!"invalid regexp {value}: not valid UTF-8"
  else
    let (p, expr) := E.simplifyPromRegex value
    if expr.isEmpty then .ok (plain p)
    else
      match getRegexpFromCache E expr with
      | .error err => .error err
      | .ok rcv =>
        .ok
          { key := key, value := value, isNegative := isNegative, isRegexp := true
            matchCost := rcv.reCost, regexpPrefix := p
            tfPrefix := marshalTagValueNoTrailingTagSeparator keyPrefix p
            orSuffixes := rcv.orValues, reSuffixMatch := some rcv.reMatch
            isEmptyMatch := p.isEmpty && rcv.reMatch [] }

/-- Matches what follows the prefix in an index entry, which ends in a separator. -/
def matchSuffix (tf : TagFilter) (b : Bytes) : Outcome Bool :=
  if b.getLast? ≠ some tagSeparatorChar then
    .err s!"unexpected end of b; want {tagSeparatorChar}; b={b}"
  else if !tf.isRegexp then .ok b.dropLast.isEmpty
  else
    match tf.reSuffixMatch with
    | none => .panic "BUG: re_suffix_match must be set for regexp filters"
    | some reMatch => .ok (reMatch b.dropLast)

/-- Matches an index entry. -/
def matches' (tf : TagFilter) (b : Bytes) : Outcome Bool :=
  if ¬ tf.tfPrefix <+: b then .ok tf.isNegative
  else do
    let ok ← tf.matchSuffix (b.drop tf.tfPrefix.length)
    if !ok then .ok tf.isNegative else .ok !tf.isNegative

end TagFilter

/-- The namespace of the entries from tags to metric ids. -/
def nsPrefixTagToMetricIds : UInt8 := 1

/-- The key of Graphite queries. -/
def graphiteKey : Bytes := ascii "__graphite__"

/-- The key of the reversed Graphite names. -/
def graphiteReverseTagKey : Bytes := [0xff]

/-- Filters, all of which a name has to match. -/
structure TagFilters where
  tfs : List TagFilter
  commonPrefix : Bytes

namespace TagFilters

def new : TagFilters := ⟨[], [nsPrefixTagToMetricIds]⟩

/-- Adds a filter. -/
def add (E : RegexpEngine) (tfs : TagFilters) (key value : Bytes) (isNegative isRegexp : Bool) :
    Except String TagFilters :=
  -- An empty value stands for the absence of the tag.
  let (value, isNegative, isRegexp) :=
    if value.isEmpty then (ascii ".+", !isNegative, true) else (value, isNegative, isRegexp)
  if isRegexp ∧ value = ascii ".*" ∧ !isNegative then .ok tfs
  else
    let value := if isRegexp ∧ value = ascii ".*" then ascii ".+" else value
    match TagFilter.init E tfs.commonPrefix key value isNegative isRegexp with
    | .error err => .error s!"cannot initialize tagFilter: {err}"
    | .ok tf =>
      if tf.isNegative && tf.isEmptyMatch then
        -- `{key!~"|foo"}` matches non-empty values only.
        match TagFilter.init E tfs.commonPrefix key (ascii ".+") false true with
        | .error err => .error s!"cannot initialize companion tag filter: {err}"
        | .ok tfNew => .ok { tfs with tfs := tfs.tfs ++ [tf, tfNew] }
      else .ok { tfs with tfs := tfs.tfs ++ [tf] }

end TagFilters

/-! ### Matching of names -/

/-- Matches one filter against a name. -/
def TagFilter.matchName (tf : TagFilter) (mn : MetricName) : Outcome Bool :=
  if tf.key = graphiteReverseTagKey then .ok true
  else if tf.key = [] ∨ tf.key = graphiteKey then
    tf.matches' (marshalTagValue (marshalTagValue [nsPrefixTagToMetricIds] []) mn.metricGroup)
  else
    match mn.tags.find? fun tag => tag.key == tf.key with
    | some tag => tf.matches' (tag.marshal [nsPrefixTagToMetricIds])
    | none => .ok (!tf.isNegative && tf.isEmptyMatch || tf.isNegative && !tf.isEmptyMatch)

/-- The loop of `matchTagFilters` after the filters `done` have matched. A filter that fails
changes places with the first one. -/
def matchTagFiltersLoop (mn : MetricName) : List TagFilter → List TagFilter →
    Outcome (Bool × List TagFilter)
  | done, [] => .ok (true, done)
  | done, tf :: rest => do
    let ok ← tf.matchName mn
    if ok then matchTagFiltersLoop mn (done ++ [tf]) rest
    else
      match done with
      | [] => .ok (false, tf :: rest)
      | tf₀ :: done => .ok (false, tf :: done ++ tf₀ :: rest)

/-- Whether a name matches all filters, and the filters in their new order. -/
def matchTagFilters (mn : MetricName) (tfs : List TagFilter) : Outcome (Bool × List TagFilter) :=
  matchTagFiltersLoop mn [] tfs

/-! ### What a filter accepts -/

/-- The value of a label; the empty key is the metric group, and an absent label is empty. -/
def MetricName.labelValue (mn : MetricName) (key : Bytes) : Bytes :=
  if key = [] then mn.metricGroup
  else ((mn.tags.find? fun tag => tag.key == key).map Tag.value).getD []

namespace TagFilter

/-- The literal in the prefix of the filter. -/
def literal (tf : TagFilter) : Bytes := if tf.isRegexp then tf.regexpPrefix else tf.value

/-- The matcher after the literal, on the escaped rest of a value. -/
def suffixMatch (tf : TagFilter) (b : Bytes) : Bool :=
  if tf.isRegexp then tf.reSuffixMatch.any fun reMatch => reMatch b else b.isEmpty

/-- Whether the filter accepts a value, before negation. -/
def accepts (tf : TagFilter) (v : Bytes) : Bool :=
  decide (tf.literal <+: v) && tf.suffixMatch (escapeTagValue (v.drop tf.literal.length))

/-- What `init` establishes. -/
structure WF (commonPrefix : Bytes) (tf : TagFilter) : Prop where
  tfPrefix : tf.tfPrefix =
    commonPrefix ++ escapeTagValue tf.key ++ tagSeparatorChar :: escapeTagValue tf.literal
  reSuffixMatch : tf.isRegexp = true → tf.reSuffixMatch.isSome
  isEmptyMatch : tf.isEmptyMatch = tf.accepts []

end TagFilter

theorem escapeTagValue_append (a b : Bytes) :
    escapeTagValue (a ++ b) = escapeTagValue a ++ escapeTagValue b := by
  simp [escapeTagValue]

theorem marshalTagByte_ne_nil (a : UInt8) : marshalTagByte a ≠ [] := by
  unfold marshalTagByte
  split_ifs <;> simp

/-- The code of one byte is not the beginning of the code of another one. -/
theorem marshalTagByte_prefix {a b : UInt8} {x y : Bytes}
    (h : marshalTagByte a ++ x = marshalTagByte b ++ y) : a = b ∧ x = y := by
  unfold marshalTagByte at h
  split_ifs at h <;> simp_all

variable {p lit e : Bytes}

/-- Escaping keeps and reflects prefixes, also before a separator. -/
theorem escapeTagValue_prefix_iff {v : Bytes} :
    escapeTagValue p <+: escapeTagValue v ++ [tagSeparatorChar] ↔ p <+: v := by
  constructor
  · intro h
    induction p generalizing v with
    | nil => exact nil_prefix
    | cons a p ih =>
      obtain ⟨t, ht⟩ := h
      cases v with
      | nil =>
        have hmem : tagSeparatorChar ∈ marshalTagByte a := by
          rw [escapeTagValue_cons, escapeTagValue_nil, nil_append] at ht
          cases hcode : marshalTagByte a with
          | nil => exact absurd hcode (marshalTagByte_ne_nil a)
          | cons c cs =>
            rw [hcode] at ht
            simp only [cons_append, List.cons.injEq] at ht
            exact ht.1 ▸ mem_cons_self
        exact absurd hmem (tagSeparatorChar_not_mem_marshalTagByte a)
      | cons b v =>
        rw [escapeTagValue_cons, escapeTagValue_cons, append_assoc, append_assoc] at ht
        obtain ⟨rfl, htail⟩ := marshalTagByte_prefix ht
        exact cons_prefix_cons.mpr ⟨rfl, ih ⟨t, htail⟩⟩
  · rintro ⟨t, rfl⟩
    rw [escapeTagValue_append, append_assoc]
    exact prefix_append _ _

theorem marshalTagValueNoTrailingTagSeparator_eq (dst src : Bytes) :
    marshalTagValueNoTrailingTagSeparator dst src = dst ++ escapeTagValue src := by
  rw [marshalTagValueNoTrailingTagSeparator, marshalTagValue_eq, dropLast_concat]

namespace TagFilter

variable {E : RegexpEngine} {commonPrefix key value : Bytes} {isNegative isRegexp : Bool}
  {tf : TagFilter}

/-- A filter on a plain value. -/
def plain (commonPrefix key value : Bytes) (isNegative : Bool) : TagFilter where
  key := key
  value := value
  isNegative := isNegative
  isRegexp := false
  matchCost := fullMatchCost
  regexpPrefix := []
  tfPrefix := marshalTagValueNoTrailingTagSeparator (marshalTagValue commonPrefix key) value
  orSuffixes := [[]]
  reSuffixMatch := none
  isEmptyMatch := value.isEmpty

/-- A filter on a regexp. -/
def regexp (commonPrefix key value : Bytes) (isNegative : Bool) (p : Bytes)
    (rcv : RegexpCacheValue) : TagFilter where
  key := key
  value := value
  isNegative := isNegative
  isRegexp := true
  matchCost := rcv.reCost
  regexpPrefix := p
  tfPrefix := marshalTagValueNoTrailingTagSeparator (marshalTagValue commonPrefix key) p
  orSuffixes := rcv.orValues
  reSuffixMatch := some rcv.reMatch
  isEmptyMatch := p.isEmpty && rcv.reMatch []

/-- What `init` returns: a filter on a plain value, or on a regexp that is not a literal. -/
theorem init_eq_ok_iff :
    init E commonPrefix key value isNegative isRegexp = .ok tf ↔
      (isRegexp = false ∧ tf = plain commonPrefix key value isNegative) ∨
      (isRegexp = true ∧ isValidUtf8 value = true ∧ (E.simplifyPromRegex value).2 = [] ∧
        tf = plain commonPrefix key (E.simplifyPromRegex value).1 isNegative) ∨
      (isRegexp = true ∧ isValidUtf8 value = true ∧ (E.simplifyPromRegex value).2 ≠ [] ∧
        ∃ rcv, getRegexpFromCache E (E.simplifyPromRegex value).2 = .ok rcv ∧
          tf = regexp commonPrefix key value isNegative (E.simplifyPromRegex value).1 rcv) := by
  cases isRegexp with
  | false =>
    change Except.ok (plain commonPrefix key value isNegative) = _ ↔ _
    simp [eq_comm (a := tf)]
  | true =>
    by_cases hutf : isValidUtf8 value = true
    · by_cases hexpr : (E.simplifyPromRegex value).2 = []
      · have heq : init E commonPrefix key value isNegative true =
            .ok (plain commonPrefix key (E.simplifyPromRegex value).1 isNegative) := by
          simp [init, hutf, hexpr, plain]
        rw [heq]
        simp [hutf, hexpr, eq_comm (a := tf)]
      · cases hrcv : getRegexpFromCache E (E.simplifyPromRegex value).2 with
        | error err => simp [init, hutf, hexpr, hrcv]
        | ok rcv =>
          have heq : init E commonPrefix key value isNegative true =
              .ok (regexp commonPrefix key value isNegative (E.simplifyPromRegex value).1 rcv) := by
            simp [init, hutf, hexpr, hrcv, regexp]
          rw [heq]
          simp [hutf, hexpr, eq_comm (a := tf)]
    · simp [init, hutf]

theorem plain_wf : (plain commonPrefix key value isNegative).WF commonPrefix where
  tfPrefix := by
    simp [plain, literal, marshalTagValueNoTrailingTagSeparator_eq, marshalTagValue_eq]
  reSuffixMatch h := by cases h
  isEmptyMatch := by
    cases value <;> simp [plain, accepts, literal, suffixMatch]

theorem regexp_wf {p : Bytes} {rcv : RegexpCacheValue} :
    (regexp commonPrefix key value isNegative p rcv).WF commonPrefix where
  tfPrefix := by
    simp [regexp, literal, marshalTagValueNoTrailingTagSeparator_eq, marshalTagValue_eq]
  reSuffixMatch _ := rfl
  isEmptyMatch := by
    cases p <;> simp [regexp, accepts, literal, suffixMatch]

theorem accepts_plain (v : Bytes) :
    (plain commonPrefix key value isNegative).accepts v = (v == value) := by
  rw [Bool.eq_iff_iff]
  simp only [accepts, literal, suffixMatch, plain, Bool.false_eq_true, if_false, Bool.and_eq_true,
    decide_eq_true_eq, beq_iff_eq, List.isEmpty_iff]
  constructor
  · rintro ⟨⟨t, rfl⟩, hnil⟩
    rw [drop_left] at hnil
    cases t with
    | nil => exact append_nil _
    | cons a t =>
      rw [escapeTagValue_cons, append_eq_nil_iff] at hnil
      exact absurd hnil.1 (marshalTagByte_ne_nil a)
  · rintro rfl
    exact ⟨prefix_rfl, by simp⟩

theorem accepts_regexp {p : Bytes} {rcv : RegexpCacheValue} (v : Bytes) :
    (regexp commonPrefix key value isNegative p rcv).accepts v =
      (decide (p <+: v) && rcv.reMatch (escapeTagValue (v.drop p.length))) := rfl

theorem init_wf (h : init E commonPrefix key value isNegative isRegexp = .ok tf) :
    tf.WF commonPrefix ∧ tf.key = key ∧ tf.isNegative = isNegative := by
  obtain ⟨-, rfl⟩ | ⟨-, -, -, rfl⟩ | ⟨-, -, -, rcv, -, rfl⟩ := init_eq_ok_iff.mp h
  · exact ⟨plain_wf, rfl, rfl⟩
  · exact ⟨plain_wf, rfl, rfl⟩
  · exact ⟨regexp_wf, rfl, rfl⟩

/-- The matcher reads what follows the prefix of the filter. -/
theorem matchSuffix_eq (h : tf.WF commonPrefix) (b : Bytes) :
    tf.matchSuffix (b ++ [tagSeparatorChar]) = .ok (tf.suffixMatch b) := by
  unfold matchSuffix suffixMatch
  rw [if_neg (by simp), dropLast_concat]
  cases hre : tf.isRegexp with
  | false => rfl
  | true =>
    obtain ⟨reMatch, hsome⟩ := Option.isSome_iff_exists.mp (h.reSuffixMatch hre)
    simp [hsome]

/-- Matching an index entry for the key of the filter. -/
theorem matches'_eq (h : tf.WF commonPrefix) (v : Bytes) :
    tf.matches' (marshalTagValue (marshalTagValue commonPrefix tf.key) v) =
      .ok (tf.accepts v ^^ tf.isNegative) := by
  have hentry : marshalTagValue (marshalTagValue commonPrefix tf.key) v =
      commonPrefix ++ escapeTagValue tf.key ++ tagSeparatorChar ::
        (escapeTagValue v ++ [tagSeparatorChar]) := by
    simp [marshalTagValue_eq]
  have hpre : tf.tfPrefix <+: marshalTagValue (marshalTagValue commonPrefix tf.key) v ↔
      tf.literal <+: v := by
    rw [hentry, h.tfPrefix, prefix_append_right_inj, cons_prefix_cons,
      escapeTagValue_prefix_iff]
    simp
  unfold matches' accepts
  by_cases hlit : tf.literal <+: v
  · obtain ⟨t, rfl⟩ := hlit
    rw [if_neg (by simp [hpre])]
    have hdrop : (marshalTagValue (marshalTagValue commonPrefix tf.key) (tf.literal ++ t)).drop
        tf.tfPrefix.length = escapeTagValue t ++ [tagSeparatorChar] := by
      rw [hentry, h.tfPrefix, escapeTagValue_append]
      simp
    rw [hdrop, matchSuffix_eq h]
    cases hm : tf.suffixMatch (escapeTagValue t) <;> cases hn : tf.isNegative <;> simp [hm]
  · rw [if_pos (by simp [hpre, hlit])]
    cases hn : tf.isNegative <;> simp [hlit]

/-- A filter with an ordinary key compares the value of its label. -/
theorem matchName_eq (h : tf.WF [nsPrefixTagToMetricIds]) (hgraphite : tf.key ≠ graphiteKey)
    (hreverse : tf.key ≠ graphiteReverseTagKey) (mn : MetricName) :
    tf.matchName mn = .ok (tf.accepts (mn.labelValue tf.key) ^^ tf.isNegative) := by
  unfold matchName MetricName.labelValue
  rw [if_neg hreverse]
  by_cases hkey : tf.key = []
  · rw [if_pos (.inl hkey), if_pos hkey]
    have heq := matches'_eq h mn.metricGroup
    rwa [hkey] at heq
  · rw [if_neg (by tauto), if_neg hkey]
    cases hfind : mn.tags.find? fun tag => tag.key == tf.key with
    | some tag =>
      have htag : tag.key = tf.key := by simpa using find?_some hfind
      have heq := matches'_eq h tag.value
      rw [← htag] at heq
      exact heq
    | none =>
      simp only [Option.map_none, Option.getD_none, ← h.isEmptyMatch]
      cases tf.isNegative <;> cases tf.isEmptyMatch <;> rfl

end TagFilter

/-- Matching a list of filters: the result is the conjunction, and the order changes. -/
theorem matchTagFiltersLoop_eq {mn : MetricName} {holds : TagFilter → Bool}
    (rest done : List TagFilter) (hrest : ∀ tf ∈ rest, tf.matchName mn = .ok (holds tf)) :
    ∃ tfs, matchTagFiltersLoop mn done rest = .ok (rest.all holds, tfs) ∧ tfs ~ done ++ rest := by
  induction rest generalizing done with
  | nil => exact ⟨done, rfl, by simp⟩
  | cons tf rest ih =>
    unfold matchTagFiltersLoop
    rw [hrest tf mem_cons_self, Outcome.ok_bind, all_cons]
    cases hholds : holds tf with
    | true =>
      obtain ⟨tfs, heq, hperm⟩ := ih (done ++ [tf]) fun tf' h => hrest tf' (mem_cons_of_mem _ h)
      refine ⟨tfs, ?_, by simpa using hperm⟩
      rw [if_pos rfl, heq, Bool.true_and]
    | false =>
      rw [if_neg Bool.false_ne_true, Bool.false_and]
      cases done with
      | nil => exact ⟨_, rfl, by simp⟩
      | cons tf₀ done =>
        refine ⟨_, rfl, ?_⟩
        have hswap : tf :: (done ++ tf₀ :: rest) ~ tf₀ :: (done ++ tf :: rest) := by
          calc tf :: (done ++ tf₀ :: rest)
            _ ~ tf :: tf₀ :: (done ++ rest) := (perm_middle).cons tf
            _ ~ tf₀ :: tf :: (done ++ rest) := .swap _ _ _
            _ ~ tf₀ :: (done ++ tf :: rest) := (perm_middle.symm).cons tf₀
        exact hswap

/-! ### What the code relies on -/

/-- UTF-8 without a newline: the bytes that `.*` matches, with and without the flag `s`. -/
def isText (v : Bytes) : Bool := isValidUtf8 v && !v.contains (ch '\n')

/-- What `.*`, `.+` or nothing matches in text. -/
def Dot.Matches : Dot → Bytes → Prop
  | .none, a => a = []
  | .star, _ => True
  | .plus, a => a ≠ []

/-- Whether a value matches the anchored regexp. -/
def RegexpEngine.isMatch (E : RegexpEngine) (expr v : Bytes) : Bool :=
  match E.compile (anchored expr) with
  | .ok re => re v
  | .error _ => false

/-- The documented behaviour of the regexp crate and of `regexutil`, on text. A literal is read
here without hexadecimal escapes, which the crate reads as code points. -/
structure RegexpEngine.Lawful (E : RegexpEngine) : Prop where
  isValidUtf8_simplify : ∀ e, isValidUtf8 e = true → isValidUtf8 (E.simplifyPromRegex e).1 = true
  simplify_literal : ∀ e re, E.compile (anchored e) = .ok re → (E.simplifyPromRegex e).2 = [] →
    ∀ v, isText v = true → re v = (v == (E.simplifyPromRegex e).1)
  simplify : ∀ e re, E.compile (anchored e) = .ok re → (E.simplifyPromRegex e).2 ≠ [] →
    ∃ re', E.compile (anchored (E.simplifyPromRegex e).2) = .ok re' ∧
      ∀ v, isText v = true → re v = (decide ((E.simplifyPromRegex e).1 <+: v) &&
        re' (v.drop (E.simplifyPromRegex e).1.length))
  orValues : ∀ e re, E.compile (anchored e) = .ok re → E.getOrValuesPromRegex e ≠ [] →
    ∀ v, isText v = true → re v = (E.getOrValuesPromRegex e).any (v == ·)
  literal : ∀ head tail m lit re, parseRegexpLiteral m = some lit → ¬ ascii "\\x" <:+: m →
    E.compile (anchored (head.text ++ m ++ tail.text)) = .ok re →
    ∀ v, isText v = true →
      (re v = true ↔ ∃ a b, v = a ++ lit ++ b ∧ Dot.Matches head a ∧ Dot.Matches tail b)
  compile_dotPlus : ∃ re, E.compile (anchored (ascii ".+")) = .ok re
  simplify_dotPlus : E.simplifyPromRegex (ascii ".+") = ([], ascii "(?s:.+)")
  orValues_dotPlus : E.getOrValuesPromRegex (ascii "(?s:.+)") = []
  dotPlus : ∃ re, E.compile (anchored (ascii "(?s:.+)")) = .ok re ∧
    ∀ v, isValidUtf8 v = true → re v = !v.isEmpty

/-- A regexp without the bytes that the index escapes and without hexadecimal escapes. -/
def isCleanRegexp (e : Bytes) : Bool :=
  decide (¬ ascii "\\x" <:+: e) &&
    e.all fun a => a ≠ escapeChar ∧ a ≠ tagSeparatorChar ∧ a ≠ kvSeparatorChar

/-- Text without the bytes that the index escapes. -/
def isPlainText (v : Bytes) : Bool :=
  isText v && v.all fun a => a ≠ escapeChar ∧ a ≠ tagSeparatorChar ∧ a ≠ kvSeparatorChar

/-! ### The optimized matchers -/

theorem stripHead_spec (e : Bytes) : (stripHead e).1.text ++ (stripHead e).2 = e := by
  unfold stripHead
  split_ifs with hstar hplus
  · obtain ⟨t, rfl⟩ := hstar
    rfl
  · obtain ⟨t, rfl⟩ := hplus
    rfl
  · rfl

theorem stripTail_spec (e : Bytes) : (stripTail e).2 ++ (stripTail e).1.text = e := by
  unfold stripTail
  split_ifs with hstar hplus
  · obtain ⟨t, rfl⟩ := hstar
    simp [Dot.text, ascii]
  · obtain ⟨t, rfl⟩ := hplus
    simp [Dot.text, ascii]
  · simp [Dot.text]

/-- A literal with at least one byte before it. -/
private theorem exists_cons_append {v : Bytes} {Q : Bytes → Prop} :
    (∃ a b, v = a ++ lit ++ b ∧ a ≠ [] ∧ Q b) ↔
      v.length > lit.length ∧ ∃ a b, a ++ lit ++ b = v.drop 1 ∧ Q b := by
  constructor
  · rintro ⟨a, b, rfl, hne, hb⟩
    cases a with
    | nil => exact absurd rfl hne
    | cons x a => exact ⟨by simp; omega, a, b, rfl, hb⟩
  · rintro ⟨hlen, a, b, hdrop, hb⟩
    cases v with
    | nil => simp at hlen
    | cons x v =>
      rw [drop_one, tail_cons] at hdrop
      exact ⟨x :: a, b, by simp [← hdrop], by simp, hb⟩

/-- A literal with at least one byte after it. -/
private theorem exists_append_concat {v : Bytes} {P : Bytes → Prop} :
    (∃ a b, v = a ++ lit ++ b ∧ P a ∧ b ≠ []) ↔
      v.length > lit.length ∧ ∃ a b, a ++ lit ++ b = v.dropLast ∧ P a := by
  constructor
  · rintro ⟨a, b, rfl, ha, hne⟩
    have hpos : 0 < b.length := length_pos_iff.mpr hne
    refine ⟨by simp; omega, a, b.dropLast, ?_, ha⟩
    rw [dropLast_append_of_ne_nil hne]
  · rintro ⟨hlen, a, b, hdrop, ha⟩
    have hne : v ≠ [] := by
      rintro rfl
      simp at hlen
    refine ⟨a, b ++ [v.getLast hne], ?_, ha, by simp⟩
    rw [← append_assoc, hdrop, dropLast_append_getLast]

/-- The optimized matchers look for the literal where the regexp has it. -/
theorem literalMatchFunc_iff (lit : Bytes) (head tail : Dot) (v : Bytes) :
    (literalMatchFunc lit head tail).1 v = true ↔
      ∃ a b, v = a ++ lit ++ b ∧ head.Matches a ∧ tail.Matches b := by
  cases head with
  | none =>
    cases tail with
    | none => simp [literalMatchFunc, Dot.Matches]
    | star =>
      simp only [literalMatchFunc, Dot.Matches, decide_eq_true_eq]
      constructor
      · rintro ⟨b, rfl⟩
        exact ⟨[], b, rfl, rfl, trivial⟩
      · rintro ⟨a, b, rfl, rfl, -⟩
        exact prefix_append _ _
    | plus =>
      simp only [literalMatchFunc, Dot.Matches, Bool.and_eq_true, decide_eq_true_eq]
      constructor
      · rintro ⟨hlen, b, rfl⟩
        refine ⟨[], b, rfl, rfl, ?_⟩
        rintro rfl
        simp at hlen
      · rintro ⟨a, b, rfl, rfl, hne⟩
        have hpos : 0 < b.length := length_pos_iff.mpr hne
        exact ⟨by simp; omega, prefix_append _ _⟩
  | star =>
    cases tail with
    | none =>
      simp only [literalMatchFunc, Dot.Matches, decide_eq_true_eq]
      constructor
      · rintro ⟨a, rfl⟩
        exact ⟨a, [], by simp, trivial, rfl⟩
      · rintro ⟨a, b, rfl, -, rfl⟩
        exact ⟨a, by simp⟩
    | star =>
      simp only [literalMatchFunc, Dot.Matches, decide_eq_true_eq]
      constructor
      · rintro ⟨a, b, rfl⟩
        exact ⟨a, b, rfl, trivial, trivial⟩
      · rintro ⟨a, b, rfl, -, -⟩
        exact ⟨a, b, rfl⟩
    | plus =>
      simp only [literalMatchFunc, Dot.Matches, Bool.and_eq_true, decide_eq_true_eq]
      rw [exists_append_concat]
      simp [List.IsInfix]
  | plus =>
    cases tail with
    | none =>
      simp only [literalMatchFunc, Dot.Matches, Bool.and_eq_true, decide_eq_true_eq]
      rw [exists_cons_append]
      simp [List.IsSuffix]
    | star =>
      simp only [literalMatchFunc, Dot.Matches, Bool.and_eq_true, decide_eq_true_eq]
      rw [exists_cons_append]
      simp [List.IsInfix]
    | plus =>
      simp only [literalMatchFunc, Dot.Matches, Bool.and_eq_true, decide_eq_true_eq]
      rw [exists_cons_append]
      have hlast : (∃ a b, v.drop 1 = a ++ lit ++ b ∧ True ∧ b ≠ []) ↔
          (v.drop 1).length > lit.length ∧ ∃ a b, a ++ lit ++ b = (v.drop 1).dropLast ∧ True :=
        exists_append_concat
      have hinf : lit <:+: (v.drop 1).dropLast ↔
          ∃ a b, a ++ lit ++ b = (v.drop 1).dropLast ∧ True := by simp [List.IsInfix]
      have hlen : v.length > lit.length + 1 ↔
          v.length > lit.length ∧ (v.drop 1).length > lit.length := by
        rw [length_drop]
        omega
      rw [hinf, hlen, and_assoc, ← hlast]
      simp [eq_comm]

/-- What follows a literal in text is text. -/
theorem isText_of_append {w : Bytes} (hp : isValidUtf8 p = true) (h : isText (p ++ w) = true) :
    isText w = true := by
  rw [isText, isValidUtf8_append hp] at h
  simp only [isText, Bool.and_eq_true, Bool.not_eq_true', contains_eq_mem,
    decide_eq_false_iff_not, mem_append, not_or] at h ⊢
  exact ⟨h.1, h.2.2⟩

/-- On text the optimized matcher of a regexp agrees with the engine. -/
theorem getOptimizedReMatchFunc_eq {E : RegexpEngine} (hE : E.Lawful) {re : Bytes → Bool}
    (hre : E.compile (anchored e) = .ok re) (hclean : isCleanRegexp e = true) {v : Bytes}
    (hv : isText v = true) : (getOptimizedReMatchFunc re e).1 v = re v := by
  set head := (stripHead e).1 with hhead
  set tail := (stripTail (stripHead e).2).1 with htail
  set middle := (stripTail (stripHead e).2).2 with hmiddle
  have hsplit : head.text ++ middle ++ tail.text = e := by
    rw [append_assoc, hmiddle, htail, stripTail_spec, hhead, stripHead_spec]
  have hhex : ¬ ascii "\\x" <:+: middle := by
    simp only [isCleanRegexp, Bool.and_eq_true, decide_eq_true_eq] at hclean
    intro hinf
    exact hclean.1 (hinf.trans ⟨head.text, tail.text, hsplit⟩)
  have hlaw : ∀ lit, parseRegexpLiteral middle = some lit →
      (re v = true ↔ ∃ a b, v = a ++ lit ++ b ∧ head.Matches a ∧ tail.Matches b) := by
    intro lit hlit
    exact hE.literal head tail middle lit re hlit hhex (by rw [hsplit]; exact hre) v hv
  unfold getOptimizedReMatchFunc
  simp only [← hhead, ← htail, ← hmiddle]
  split_ifs with hstar hplus
  · obtain ⟨hm, ht, hh⟩ := hstar
    have := hlaw [] (by rw [hm]; rfl)
    rw [hh, ht] at this
    exact ((this.mpr ⟨v, [], by simp, trivial, rfl⟩)).symm
  · obtain ⟨hm, ht, hh⟩ := hplus
    have := hlaw [] (by rw [hm]; rfl)
    rw [hh, ht] at this
    rw [Bool.eq_iff_iff, this]
    simp [Dot.Matches]
  · split
    next a lit hlit =>
      rw [Bool.eq_iff_iff, literalMatchFunc_iff, hlaw _ hlit]
    next => rfl

theorem isCleanRegexp_of_cons {a : UInt8} (h : isCleanRegexp (a :: e) = true) :
    isCleanRegexp e = true ∧ tagCharRegexpEscape a = [a] := by
  simp only [isCleanRegexp, Bool.and_eq_true, decide_eq_true_eq, all_cons] at h ⊢
  obtain ⟨hhex, ⟨h0, h1, h2⟩, hall⟩ := h
  refine ⟨⟨fun hinf => hhex (hinf.trans (suffix_cons a e).isInfix), hall⟩, ?_⟩
  rw [tagCharRegexpEscape, if_neg h0, if_neg h1, if_neg h2]

/-- Nothing is rewritten in a clean regexp. -/
theorem tagCharsRegexpEscape_eq_self (h : isCleanRegexp e = true) :
    tagCharsRegexpEscape e = e := by
  fun_induction tagCharsRegexpEscape e with
  | case1 a b c d rest hhex ih =>
    obtain ⟨rfl, rfl, -⟩ := hhex
    simp only [isCleanRegexp, Bool.and_eq_true, decide_eq_true_eq] at h
    exact absurd ⟨[], c :: d :: rest, rfl⟩ h.1
  | case2 a b c d rest hhex ih =>
    obtain ⟨hrest, ha⟩ := isCleanRegexp_of_cons h
    rw [ih hrest, ha, singleton_append]
  | case3 a rest hshort ih =>
    obtain ⟨hrest, ha⟩ := isCleanRegexp_of_cons h
    rw [ih hrest, ha, singleton_append]
  | case4 => rfl

/-- Nothing is escaped in plain text. -/
theorem escapeTagValue_eq_self {v : Bytes}
    (h : ∀ a ∈ v, a ≠ escapeChar ∧ a ≠ tagSeparatorChar ∧ a ≠ kvSeparatorChar) :
    escapeTagValue v = v := by
  induction v with
  | nil => rfl
  | cons a v ih =>
    obtain ⟨h0, h1, h2⟩ := h a mem_cons_self
    rw [escapeTagValue_cons, marshalTagByte_of_not_reserved h0 h1 h2,
      ih fun b hb => h b (mem_cons_of_mem _ hb), singleton_append]

theorem isPlainText_iff {v : Bytes} : isPlainText v = true ↔ isText v = true ∧
    ∀ a ∈ v, a ≠ escapeChar ∧ a ≠ tagSeparatorChar ∧ a ≠ kvSeparatorChar := by
  simp [isPlainText]

/-! ### The meaning of filters -/

section Meaning

variable {E : RegexpEngine} {commonPrefix key value v : Bytes} {isNegative : Bool} {tf : TagFilter}

/-- A regexp filter accepts what the regexp matches, when values and regexp need no escaping. -/
theorem TagFilter.accepts_eq_of_init (hE : E.Lawful)
    (hinit : TagFilter.init E commonPrefix key value isNegative true = .ok tf)
    {re : Bytes → Bool} (hre : E.compile (anchored value) = .ok re)
    (hclean : isCleanRegexp (E.simplifyPromRegex value).2 = true) (hv : isPlainText v = true) :
    tf.accepts v = re v := by
  obtain ⟨htext, hplain⟩ := isPlainText_iff.mp hv
  obtain ⟨hfalse, -⟩ | ⟨-, -, hexpr, rfl⟩ | ⟨-, hutf, hexpr, rcv, hrcv, rfl⟩ :=
    TagFilter.init_eq_ok_iff.mp hinit
  · cases hfalse
  · rw [TagFilter.accepts_plain, hE.simplify_literal value re hre hexpr v htext]
  · obtain ⟨re', hre', heq⟩ := hE.simplify value re hre hexpr
    rw [TagFilter.accepts_regexp, heq v htext]
    by_cases hlit : (E.simplifyPromRegex value).1 <+: v
    · obtain ⟨w, rfl⟩ := hlit
      have hw : isText w = true := isText_of_append (hE.isValidUtf8_simplify value hutf) htext
      have hmatch : rcv.reMatch w = re' w := by
        unfold getRegexpFromCache at hrcv
        simp only [tagCharsRegexpEscape_eq_self hclean, hre'] at hrcv
        cases hrcv
        dsimp only
        split_ifs with hor
        · exact getOptimizedReMatchFunc_eq hE hre' hclean hw
        · rw [hE.orValues _ re' hre' (by simpa using hor) w hw]
          rfl
      rw [drop_left, escapeTagValue_eq_self fun a ha => hplain a (mem_append_right _ ha),
        hmatch]
    · simp [hlit]

theorem isValidUtf8_escapeTagValue (hv : isValidUtf8 v = true) :
    isValidUtf8 (escapeTagValue v) = true := by
  have hpair : ∀ b : UInt8, b < 0x80 → ∀ d ∈ [escapeChar, b], d < 0x80 := fun b hb =>
    forall_mem_cons.mpr ⟨by decide, forall_mem_singleton.mpr hb⟩
  rw [escapeTagValue, isValidUtf8_flatMap (fun a ha => ?_) (fun a ha => ?_), hv]
  · -- A byte that is escaped is a character by itself.
    unfold marshalTagByte
    split_ifs
    · exact ⟨cons_ne_nil _ _, hpair _ (by decide)⟩
    · exact ⟨cons_ne_nil _ _, hpair _ (by decide)⟩
    · exact ⟨cons_ne_nil _ _, hpair _ (by decide)⟩
    · exact ⟨cons_ne_nil a [], fun d hd => mem_singleton.mp hd ▸ ha⟩
  · refine marshalTagByte_of_not_reserved ?_ ?_ ?_ <;> rintro rfl <;> exact ha (by decide)

/-- The filter `.+` accepts every non-empty value. -/
theorem TagFilter.accepts_dotPlus (hE : E.Lawful)
    (hinit : TagFilter.init E commonPrefix key (ascii ".+") isNegative true = .ok tf)
    (hv : isValidUtf8 v = true) : tf.accepts v = !v.isEmpty := by
  obtain ⟨re, hre, hmatch⟩ := hE.dotPlus
  have hescape : tagCharsRegexpEscape (ascii "(?s:.+)") = ascii "(?s:.+)" := by decide
  have hopt : (getOptimizedReMatchFunc re (ascii "(?s:.+)")).1 = re := by
    have hstrip : stripHead (ascii "(?s:.+)") = (.none, ascii "(?s:.+)") := by decide
    have hstrip' : stripTail (ascii "(?s:.+)") = (.none, ascii "(?s:.+)") := by decide
    have hparse : parseRegexpLiteral (ascii "(?s:.+)") = none := by decide +kernel
    unfold getOptimizedReMatchFunc
    simp [hstrip, hstrip', hparse]
  obtain ⟨hfalse, -⟩ | ⟨-, -, hexpr, -⟩ | ⟨-, -, -, rcv, hok, rfl⟩ :=
    TagFilter.init_eq_ok_iff.mp hinit
  · cases hfalse
  · rw [hE.simplify_dotPlus] at hexpr
    cases hexpr
  · unfold getRegexpFromCache at hok
    simp only [hE.simplify_dotPlus, hescape, hre, hE.orValues_dotPlus] at hok
    cases hok
    rw [TagFilter.accepts_regexp, hE.simplify_dotPlus]
    have hnil : (escapeTagValue v).isEmpty = v.isEmpty := by
      cases v with
      | nil => rfl
      | cons a v =>
        cases hcode : marshalTagByte a with
        | nil => exact absurd hcode (marshalTagByte_ne_nil a)
        | cons b bs => simp [hcode]
    simp only [isEmpty_nil, if_true, hopt, nil_prefix, decide_true, length_nil,
      drop_zero, Bool.true_and]
    rw [hmatch _ (isValidUtf8_escapeTagValue hv), hnil]

end Meaning

/-- A filter as a user writes it. -/
structure LabelFilter where
  key : Bytes
  value : Bytes
  isNegative : Bool
  isRegexp : Bool

namespace LabelFilter

/-- The filters added one after the other. -/
def addAll (E : RegexpEngine) (fs : List LabelFilter) : Except String TagFilters :=
  fs.foldlM (fun tfs f => tfs.add E f.key f.value f.isNegative f.isRegexp) TagFilters.new

/-- What a filter means: the value of the label is the given one, or matches the regexp, unless the
filter is negative. The negative regexp `.*` stands for `.+`. -/
def holds (E : RegexpEngine) (mn : MetricName) (f : LabelFilter) : Bool :=
  let v := mn.labelValue f.key
  let value := if f.isRegexp && f.isNegative && f.value == ascii ".*" then ascii ".+" else f.value
  (if f.isRegexp then E.isMatch value v else v == value) ^^ f.isNegative

/-- The filters whose meaning the code has: not on the Graphite keys, and regexps and the values
they are matched with need no escaping. An empty value stands for a regexp, too. -/
structure Supported (E : RegexpEngine) (mn : MetricName) (f : LabelFilter) : Prop where
  graphite : f.key ≠ graphiteKey
  reverse : f.key ≠ graphiteReverseTagKey
  valid : f.isRegexp = true → ∃ re, E.compile (anchored f.value) = .ok re
  clean : f.isRegexp = true → isCleanRegexp (E.simplifyPromRegex f.value).2 = true
  plain : f.isRegexp = true → isPlainText (mn.labelValue f.key) = true
  utf8 : f.value = [] → isValidUtf8 (mn.labelValue f.key) = true

variable {E : RegexpEngine} {mn : MetricName} {f : LabelFilter}

/-- The regexps that the code treats by themselves. -/
theorem isMatch_literal (hE : E.Lawful) (head : Dot) {re : Bytes → Bool}
    (hre : E.compile (anchored head.text) = .ok re) {v : Bytes} (hv : isText v = true) :
    E.isMatch head.text v = true ↔ head.Matches v := by
  have hlaw := hE.literal head .none [] [] re rfl (by decide) (by simpa [Dot.text] using hre) v hv
  rw [RegexpEngine.isMatch, hre]
  simpa [Dot.Matches] using hlaw

/-- The new filter accepts the values that the filter of the user means. -/
theorem accepts_eq (hE : E.Lawful) (hf : f.Supported E mn) {commonPrefix : Bytes} {tf : TagFilter}
    (hinit : TagFilter.init E commonPrefix f.key f.value f.isNegative f.isRegexp = .ok tf) :
    tf.accepts (mn.labelValue f.key) =
      if f.isRegexp then E.isMatch f.value (mn.labelValue f.key)
      else mn.labelValue f.key == f.value := by
  cases hregexp : f.isRegexp with
  | true =>
    obtain ⟨re, hre⟩ := hf.valid hregexp
    rw [hregexp] at hinit
    rw [TagFilter.accepts_eq_of_init hE hinit hre (hf.clean hregexp) (hf.plain hregexp), if_pos rfl,
      RegexpEngine.isMatch, hre]
  | false =>
    rw [hregexp] at hinit
    obtain ⟨-, rfl⟩ | ⟨htrue, -⟩ | ⟨htrue, -⟩ := TagFilter.init_eq_ok_iff.mp hinit
    · rw [TagFilter.accepts_plain, if_neg Bool.false_ne_true]
    · cases htrue
    · cases htrue

/-- What `add` does with an empty value, with `.*`, and with any other value. -/
theorem add_eq_ok {tfs tfs' : TagFilters}
    (h : tfs.add E f.key f.value f.isNegative f.isRegexp = .ok tfs') :
    (f.value = [] ∧ ∃ tf, TagFilter.init E tfs.commonPrefix f.key (ascii ".+")
      (!f.isNegative) true =
        .ok tf ∧ (tf.isEmptyMatch = false → tfs' = { tfs with tfs := tfs.tfs ++ [tf] })) ∨
    (f.isRegexp = true ∧ f.value = ascii ".*" ∧ f.isNegative = false ∧ tfs' = tfs) ∨
    (f.isRegexp = true ∧ f.value = ascii ".*" ∧ f.isNegative = true ∧
      ∃ tf, TagFilter.init E tfs.commonPrefix f.key (ascii ".+") true true = .ok tf ∧
        (tf.isEmptyMatch = false → tfs' = { tfs with tfs := tfs.tfs ++ [tf] })) ∨
    (f.value ≠ [] ∧ ¬ (f.isRegexp = true ∧ f.value = ascii ".*") ∧
      ∃ tf, TagFilter.init E tfs.commonPrefix f.key f.value f.isNegative f.isRegexp = .ok tf ∧
        (((tf.isNegative && tf.isEmptyMatch) = false ∧
          tfs' = { tfs with tfs := tfs.tfs ++ [tf] }) ∨
        ((tf.isNegative && tf.isEmptyMatch) = true ∧
          ∃ tfNew, TagFilter.init E tfs.commonPrefix f.key (ascii ".+") false true = .ok tfNew ∧
            tfs' = { tfs with tfs := tfs.tfs ++ [tf, tfNew] }))) := by
  obtain ⟨key, value, isNegative, isRegexp⟩ := f
  unfold TagFilters.add at h
  have hne : ascii ".+" ≠ ascii ".*" := by decide
  by_cases hnil : value = []
  · subst hnil
    refine .inl ⟨rfl, ?_⟩
    simp only [isEmpty_nil, if_true, hne, false_and, and_false, if_false] at h
    split at h
    next => cases h
    next tf hinit =>
      refine ⟨tf, hinit, fun hempty => ?_⟩
      simp only [hempty, Bool.and_false, Bool.false_eq_true, if_false] at h
      exact (Except.ok.inj h).symm
  · have hne' : value.isEmpty = false := by simpa using hnil
    simp only [hne', Bool.false_eq_true, if_false] at h
    by_cases hstar : isRegexp = true ∧ value = ascii ".*"
    · obtain ⟨rfl, rfl⟩ := hstar
      cases isNegative with
      | false =>
        rw [if_pos (by decide)] at h
        exact .inr (.inl ⟨rfl, rfl, rfl, (Except.ok.inj h).symm⟩)
      | true =>
        rw [if_neg (by decide), if_pos (by decide)] at h
        refine .inr (.inr (.inl ⟨rfl, rfl, rfl, ?_⟩))
        split at h
        next => cases h
        next tf hinit =>
          refine ⟨tf, hinit, fun hempty => ?_⟩
          simp only [hempty, Bool.and_false, Bool.false_eq_true, if_false] at h
          exact (Except.ok.inj h).symm
    · rw [if_neg (by rintro ⟨h1, h2, -⟩; exact hstar ⟨h1, h2⟩), if_neg hstar] at h
      refine .inr (.inr (.inr ⟨hnil, hstar, ?_⟩))
      split at h
      next => cases h
      next tf hinit =>
        refine ⟨tf, hinit, ?_⟩
        split_ifs at h with hcomp
        · split at h
          next => cases h
          next tfNew hnew => exact .inr ⟨hcomp, tfNew, hnew, (Except.ok.inj h).symm⟩
        · exact .inl ⟨by simpa using hcomp, (Except.ok.inj h).symm⟩

/-- The filters that `add` appends mean what the filter of the user means. -/
theorem add_spec (hE : E.Lawful) (hf : f.Supported E mn) {tfs tfs' : TagFilters}
    (hcommon : tfs.commonPrefix = [nsPrefixTagToMetricIds])
    (h : tfs.add E f.key f.value f.isNegative f.isRegexp = .ok tfs') :
    ∃ new, tfs' = { tfs with tfs := tfs.tfs ++ new } ∧
      (∀ tf ∈ new, tf.WF [nsPrefixTagToMetricIds] ∧ tf.key = f.key) ∧
      (new.all fun tf => tf.accepts (mn.labelValue tf.key) ^^ tf.isNegative) = f.holds E mn := by
  have htext : f.isRegexp = true → isText (mn.labelValue f.key) = true :=
    fun hregexp => (isPlainText_iff.mp (hf.plain hregexp)).1
  have hutf : f.isRegexp = true → isValidUtf8 (mn.labelValue f.key) = true := by
    intro hregexp
    have htext := htext hregexp
    rw [isText, Bool.and_eq_true] at htext
    exact htext.1
  -- A filter on `.+` is the only new one when it stands for the value.
  have hdotPlus : ∀ {neg : Bool} {tf : TagFilter},
      TagFilter.init E tfs.commonPrefix f.key (ascii ".+") neg true = .ok tf →
      isValidUtf8 (mn.labelValue f.key) = true → (tf.WF [nsPrefixTagToMetricIds] ∧ tf.key = f.key) ∧
      tf.isEmptyMatch = false ∧
        (tf.accepts (mn.labelValue tf.key) ^^ tf.isNegative) =
          (!(mn.labelValue f.key).isEmpty ^^ neg) := by
    intro neg tf hinit hv
    obtain ⟨hwf, hkey, hneg⟩ := TagFilter.init_wf hinit
    rw [hcommon] at hwf
    refine ⟨⟨hwf, hkey⟩, ?_, ?_⟩
    · rw [hwf.isEmptyMatch, TagFilter.accepts_dotPlus hE hinit rfl]
      rfl
    · rw [hkey, TagFilter.accepts_dotPlus hE hinit hv, hneg]
  obtain ⟨hnil, tf, hinit, htfs⟩ | ⟨hregexp, hstar, hneg, rfl⟩ | ⟨hregexp, hstar, hneg, tf, hinit,
    htfs⟩ | ⟨hnil, hstar, tf, hinit, hcases⟩ := add_eq_ok h
  · obtain ⟨hwf, hempty, hholds⟩ := hdotPlus hinit (hf.utf8 hnil)
    refine ⟨[tf], htfs hempty, by simpa using hwf, ?_⟩
    rw [all_cons, all_nil, Bool.and_true, hholds]
    unfold holds
    simp only [hnil]
    cases hregexp : f.isRegexp with
    | true =>
      obtain ⟨re, hre⟩ := hf.valid hregexp
      rw [hnil] at hre
      have hmatch := isMatch_literal hE .none hre (htext hregexp)
      have heq : E.isMatch [] (mn.labelValue f.key) = (mn.labelValue f.key).isEmpty := by
        rw [Bool.eq_iff_iff, List.isEmpty_iff]
        exact hmatch
      have hstar : (([] : Bytes) == ascii ".*") = false := by decide
      simp only [hstar, Bool.and_false, Bool.false_eq_true, if_false, if_true, heq]
      cases f.isNegative <;> simp
    | false =>
      simp only [Bool.false_and, Bool.false_eq_true, if_false]
      cases f.isNegative <;> cases mn.labelValue f.key <;> rfl
  · refine ⟨[], by simp, by simp, ?_⟩
    obtain ⟨re, hre⟩ := hf.valid hregexp
    have hmatch := (isMatch_literal hE .star (hstar ▸ hre) (htext hregexp)).mpr trivial
    unfold holds
    simp only [hregexp, hneg, hstar, Bool.and_false, Bool.false_and, Bool.false_eq_true, if_false,
      if_true]
    change true = (E.isMatch Dot.star.text _ ^^ false)
    rw [hmatch]
    rfl
  · obtain ⟨hwf, hempty, hholds⟩ := hdotPlus hinit (hutf hregexp)
    refine ⟨[tf], htfs hempty, by simpa using hwf, ?_⟩
    rw [all_cons, all_nil, Bool.and_true, hholds]
    obtain ⟨re, hre⟩ := hE.compile_dotPlus
    have heq : E.isMatch (ascii ".+") (mn.labelValue f.key) = !(mn.labelValue f.key).isEmpty := by
      rw [Bool.eq_iff_iff]
      refine (isMatch_literal hE .plus hre (htext hregexp)).trans ?_
      simp [Dot.Matches]
    unfold holds
    simp only [hregexp, hneg, hstar, Bool.true_and, beq_self_eq_true, if_true, heq]
  · have hholds : f.holds E mn = (tf.accepts (mn.labelValue f.key) ^^ f.isNegative) := by
      have hvalue : (f.isRegexp && f.isNegative && f.value == ascii ".*") = false := by
        rw [Bool.eq_false_iff]
        intro htrue
        simp only [Bool.and_eq_true, beq_iff_eq] at htrue
        exact hstar ⟨htrue.1.1, htrue.2⟩
      unfold holds
      simp only [hvalue, Bool.false_eq_true, if_false]
      rw [accepts_eq hE hf hinit]
    obtain ⟨hwf, hkey, hneg⟩ := TagFilter.init_wf hinit
    rw [hcommon] at hwf
    obtain ⟨-, rfl⟩ | ⟨hcomp, tfNew, hnew, rfl⟩ := hcases
    · refine ⟨[tf], rfl, by simpa using ⟨hwf, hkey⟩, ?_⟩
      rw [all_cons, all_nil, Bool.and_true, hholds, hkey, hneg]
    · -- A plain value that is not empty is not an empty match.
      have hregexp : f.isRegexp = true := by
        by_contra hplain
        rw [Bool.not_eq_true] at hplain
        rw [hplain] at hinit
        obtain ⟨-, rfl⟩ | ⟨htrue, -⟩ | ⟨htrue, -⟩ := TagFilter.init_eq_ok_iff.mp hinit
        · simp [TagFilter.plain, hnil] at hcomp
        · cases htrue
        · cases htrue
      obtain ⟨hwfNew, -, hholdsNew⟩ := hdotPlus hnew (hutf hregexp)
      refine ⟨[tf, tfNew], rfl, by simpa using ⟨⟨hwf, hkey⟩, hwfNew⟩, ?_⟩
      rw [all_cons, all_cons, all_nil, Bool.and_true, hholdsNew, hholds, hkey, hneg]
      -- A negative filter that accepts the empty value matches non-empty values only.
      rw [hwf.isEmptyMatch, hneg, Bool.and_eq_true] at hcomp
      rw [hcomp.1]
      cases hv : mn.labelValue f.key with
      | nil => rw [hcomp.2]; rfl
      | cons a v => simp

/-- All filters of a user. -/
theorem addAll_spec (hE : E.Lawful) {fs : List LabelFilter} (hfs : ∀ f ∈ fs, f.Supported E mn)
    {tfs : TagFilters} (h : addAll E fs = .ok tfs) :
    (∀ tf ∈ tfs.tfs, tf.WF [nsPrefixTagToMetricIds] ∧ tf.key ≠ graphiteKey ∧
      tf.key ≠ graphiteReverseTagKey) ∧
    (tfs.tfs.all fun tf => tf.accepts (mn.labelValue tf.key) ^^ tf.isNegative) =
      fs.all (holds E mn) := by
  have hloop : ∀ (fs : List LabelFilter) (tfs₀ tfs : TagFilters), (∀ f ∈ fs, f.Supported E mn) →
      tfs₀.commonPrefix = [nsPrefixTagToMetricIds] →
      fs.foldlM (fun tfs f => tfs.add E f.key f.value f.isNegative f.isRegexp) tfs₀ = .ok tfs →
      ∃ new, tfs.tfs = tfs₀.tfs ++ new ∧
        (∀ tf ∈ new, tf.WF [nsPrefixTagToMetricIds] ∧ tf.key ≠ graphiteKey ∧
          tf.key ≠ graphiteReverseTagKey) ∧
        (new.all fun tf => tf.accepts (mn.labelValue tf.key) ^^ tf.isNegative) =
          fs.all (holds E mn) := by
    intro fs
    induction fs with
    | nil =>
      intro tfs₀ tfs _ _ hfold
      cases hfold
      exact ⟨[], by simp, by simp, rfl⟩
    | cons f fs ih =>
      intro tfs₀ tfs hfs hcommon hfold
      rw [foldlM_cons] at hfold
      cases hadd : tfs₀.add E f.key f.value f.isNegative f.isRegexp with
      | error err =>
        rw [hadd] at hfold
        cases hfold
      | ok tfs₁ =>
        rw [hadd] at hfold
        have hf := hfs f mem_cons_self
        obtain ⟨new, rfl, hwf, hholds⟩ := add_spec hE hf hcommon hadd
        obtain ⟨new', heq, hwf', hholds'⟩ :=
          ih { tfs₀ with tfs := tfs₀.tfs ++ new } tfs
            (fun f' h => hfs f' (mem_cons_of_mem _ h)) hcommon hfold
        refine ⟨new ++ new', by rw [heq, append_assoc], ?_, ?_⟩
        · intro tf htf
          obtain htf | htf := mem_append.mp htf
          · obtain ⟨hw, hkey⟩ := hwf tf htf
            exact ⟨hw, hkey ▸ hf.graphite, hkey ▸ hf.reverse⟩
          · exact hwf' tf htf
        · rw [all_append, hholds, hholds', all_cons]
  obtain ⟨new, heq, hwf, hholds⟩ := hloop fs TagFilters.new tfs hfs rfl h
  rw [heq]
  exact ⟨hwf, hholds⟩

end LabelFilter

/-- **Label filters.** For every name and every list of supported filters that were added, in
whatever order earlier calls have left them: the name matches exactly when it has what every filter
means. -/
theorem matchTagFilters_iff {E : RegexpEngine} (hE : E.Lawful) (mn : MetricName)
    (fs : List LabelFilter) (hfs : ∀ f ∈ fs, f.Supported E mn) {tfs : TagFilters}
    (hadd : LabelFilter.addAll E fs = .ok tfs) {tfs' : List TagFilter} (hperm : tfs' ~ tfs.tfs) :
    ∃ tfs'', matchTagFilters mn tfs' = .ok (fs.all (LabelFilter.holds E mn), tfs'') ∧
      tfs'' ~ tfs.tfs := by
  obtain ⟨hwf, hholds⟩ := LabelFilter.addAll_spec hE hfs hadd
  obtain ⟨tfs'', heq, hperm'⟩ := matchTagFiltersLoop_eq tfs' [] fun tf htf => by
    obtain ⟨hw, hgraphite, hreverse⟩ := hwf tf (hperm.mem_iff.mp htf)
    exact TagFilter.matchName_eq hw hgraphite hreverse mn
  refine ⟨tfs'', ?_, hperm'.trans hperm⟩
  rw [matchTagFilters, heq, ← hholds]
  congr 2
  rw [Bool.eq_iff_iff]
  simp only [all_eq_true]
  exact forall_congr' fun tf => by rw [hperm.mem_iff]

/-! ### An engine for two regexps -/

/-- The regexps `.+` and `foo|bar`, as the crate and `regexutil` treat them. -/
def sampleEngine : RegexpEngine where
  compile e :=
    if e = anchored (ascii ".+") then .ok fun v => isText v && !v.isEmpty
    else if e = anchored (ascii "(?s:.+)") then .ok fun v => isValidUtf8 v && !v.isEmpty
    else if e = anchored (ascii "foo|bar") then .ok fun v => v == ascii "foo" || v == ascii "bar"
    else .error "unsupported"
  simplifyPromRegex e := ([], if e = ascii ".+" then ascii "(?s:.+)" else e)
  getOrValuesPromRegex e := if e = ascii "foo|bar" then [ascii "bar", ascii "foo"] else []

theorem anchored_inj {e' : Bytes} : anchored e = anchored e' ↔ e = e' := by
  simp [anchored]

theorem sampleEngine_compile {re : Bytes → Bool} (h : sampleEngine.compile (anchored e) = .ok re) :
    (e = ascii ".+" ∧ re = fun v => isText v && !v.isEmpty) ∨
      (e = ascii "(?s:.+)" ∧ re = fun v => isValidUtf8 v && !v.isEmpty) ∨
      (e = ascii "foo|bar" ∧ re = fun v => v == ascii "foo" || v == ascii "bar") := by
  simp only [sampleEngine, anchored_inj] at h
  split_ifs at h with h1 h2 h3
  · exact .inl ⟨h1, (Except.ok.inj h).symm⟩
  · exact .inr (.inl ⟨h2, (Except.ok.inj h).symm⟩)
  · exact .inr (.inr ⟨h3, (Except.ok.inj h).symm⟩)

theorem sampleEngine_dotPlus : sampleEngine.compile (anchored (ascii "(?s:.+)")) =
    .ok fun v => isValidUtf8 v && !v.isEmpty := by
  simp only [sampleEngine, anchored_inj]
  rw [if_neg (by decide), if_pos trivial]

/-- How `.*` and `.+` may stand at the ends of a regexp, by its first and last byte. -/
theorem text_append_cases {head tail : Dot} {m : Bytes} (h : head.text ++ m ++ tail.text = e) :
    (head = .none ∨ e.head? = some (ch '.')) ∧
      (tail = .none ∨ (tail = .star ∧ e.getLast? = some (ch '*')) ∨
        (tail = .plus ∧ e.getLast? = some (ch '+'))) := by
  subst h
  refine ⟨?_, ?_⟩
  · cases head with
    | none => exact .inl rfl
    | _ => exact .inr rfl
  · cases tail with
    | none => exact .inl rfl
    | star => exact .inr (.inl ⟨rfl, by simp [Dot.text, ascii, ch]; decide⟩)
    | plus => exact .inr (.inr ⟨rfl, by simp [Dot.text, ascii, ch]; decide⟩)

/-- A regexp that neither begins with a dot nor ends in a repetition, and is not a literal. -/
theorem parseRegexpLiteral_ne {head tail : Dot} {m : Bytes} (h : head.text ++ m ++ tail.text = e)
    (hhead : e.head? ≠ some (ch '.')) (hstar : e.getLast? ≠ some (ch '*'))
    (hplus : e.getLast? ≠ some (ch '+'))
    (hnone : parseRegexpLiteral e = none) : parseRegexpLiteral m ≠ some lit := by
  obtain ⟨hh, ht⟩ := text_append_cases h
  obtain rfl := hh.resolve_right hhead
  obtain rfl := ht.resolve_right (by rintro (⟨-, hlast⟩ | ⟨-, hlast⟩) <;> contradiction)
  rw [Dot.text, nil_append, append_nil] at h
  rw [h, hnone]
  exact fun hsome => by cases hsome

theorem sampleEngine_lawful : sampleEngine.Lawful where
  isValidUtf8_simplify _ _ := rfl
  simplify_literal e re h hnil := by
    obtain ⟨rfl, -⟩ | ⟨rfl, -⟩ | ⟨rfl, -⟩ := sampleEngine_compile h <;> cases hnil
  simplify e re h _ := by
    obtain ⟨rfl, rfl⟩ | ⟨rfl, -⟩ | ⟨rfl, -⟩ := sampleEngine_compile h
    · refine ⟨_, sampleEngine_dotPlus, fun v hv => ?_⟩
      have hutf : isValidUtf8 v = true := by
        rw [isText, Bool.and_eq_true] at hv
        exact hv.1
      simp [sampleEngine, hv, hutf]
    · exact ⟨re, h, fun v _ => by simp [sampleEngine]⟩
    · exact ⟨re, h, fun v _ => by simp [sampleEngine]⟩
  orValues e re h hne v _ := by
    obtain ⟨rfl, -⟩ | ⟨rfl, -⟩ | ⟨rfl, rfl⟩ := sampleEngine_compile h
    · exact absurd (by decide) hne
    · exact absurd (by decide) hne
    · have hor : sampleEngine.getOrValuesPromRegex (ascii "foo|bar") =
          [ascii "bar", ascii "foo"] := by decide
      rw [hor]
      simp [Bool.or_comm]
  literal head tail m lit re hlit _ h v hv := by
    obtain ⟨heq, rfl⟩ | ⟨heq, -⟩ | ⟨heq, -⟩ := sampleEngine_compile h
    · obtain ⟨hhead, htail⟩ := text_append_cases heq
      obtain rfl | ⟨rfl, hstar⟩ | ⟨rfl, -⟩ := htail
      · cases head with
        | none =>
          rw [Dot.text, nil_append, append_nil] at heq
          subst heq
          cases hlit
        | star => exact absurd (congrArg (fun e => e[1]?) heq) (by simp [Dot.text, ascii]; decide)
        | plus =>
          have hnil : m = [] := by simpa [Dot.text] using heq
          subst hnil
          cases hlit
          simp [Dot.Matches, hv]
      · exact absurd hstar (by decide)
      · have hlen : head.text = [] ∧ m = [] := by
          have hlen := congrArg List.length heq
          simp only [length_append] at hlen
          simpa [Dot.text, ascii] using hlen
        obtain ⟨hhead, rfl⟩ := hlen
        cases hlit
        cases head with
        | none => simp [Dot.Matches, hv]
        | _ => cases hhead
    · exact absurd hlit (parseRegexpLiteral_ne heq (by decide) (by decide) (by decide)
        (by decide +kernel))
    · exact absurd hlit (parseRegexpLiteral_ne heq (by decide) (by decide) (by decide)
        (by decide +kernel))
  compile_dotPlus := by
    refine ⟨fun v => isText v && !v.isEmpty, ?_⟩
    simp only [sampleEngine, if_true]
  simplify_dotPlus := by decide
  orValues_dotPlus := by decide
  dotPlus := ⟨_, sampleEngine_dotPlus, fun v hv => by rw [hv, Bool.true_and]⟩

/-- Three filters on a name with one tag, one of them on an absent label. -/
def sampleFilters : List LabelFilter :=
  [⟨[], ascii "up", false, false⟩, ⟨ascii "job", ascii "foo|bar", false, true⟩,
    ⟨ascii "env", [], false, false⟩]

def sampleName : MetricName := ⟨ascii "up", [⟨ascii "job", ascii "foo"⟩]⟩

theorem sampleFilters_supported : ∀ f ∈ sampleFilters, f.Supported sampleEngine sampleName := by
  simp only [sampleFilters, mem_cons, not_mem_nil, or_false]
  rintro f (rfl | rfl | rfl)
  · exact ⟨by decide, by decide, by simp, by simp, by simp, by decide⟩
  · refine ⟨by decide, by decide, fun _ => ?_, fun _ => by decide, fun _ => by decide, by decide⟩
    exact ⟨fun v => v == ascii "foo" || v == ascii "bar", by
      simp only [sampleEngine, anchored_inj]
      rw [if_neg (by decide), if_neg (by decide), if_pos trivial]⟩
  · exact ⟨by decide, by decide, by simp, by simp, by simp, by decide⟩

theorem matchTagFilters_iff_sampleFilters :
    ∃ tfs tfs'', LabelFilter.addAll sampleEngine sampleFilters = .ok tfs ∧ tfs.tfs.length = 3 ∧
      matchTagFilters sampleName tfs.tfs = .ok (true, tfs'') := by
  have hlen : ((LabelFilter.addAll sampleEngine sampleFilters).toOption.map fun tfs =>
      tfs.tfs.length) = some 3 := by decide +kernel
  cases hadd : LabelFilter.addAll sampleEngine sampleFilters with
  | error err =>
    rw [hadd] at hlen
    cases hlen
  | ok tfs =>
    rw [hadd] at hlen
    obtain ⟨tfs'', heq, -⟩ := matchTagFilters_iff sampleEngine_lawful sampleName sampleFilters
      sampleFilters_supported hadd (Perm.refl _)
    have hholds : sampleFilters.all (LabelFilter.holds sampleEngine sampleName) = true := by
      decide
    exact ⟨tfs, tfs'', rfl, Option.some.inj hlen, by rw [heq, hholds]⟩

/-- A filter on the key of the reversed names matches a name without that label, and one on
`__graphite__` does not match a name that has the label. -/
theorem matchTagFilters_artificial_keys :
    (∃ tfs, LabelFilter.addAll sampleEngine [⟨graphiteReverseTagKey, ascii "up", false, false⟩] =
        .ok tfs ∧ matchTagFilters ⟨ascii "up", []⟩ tfs.tfs = .ok (true, tfs.tfs) ∧
      LabelFilter.holds sampleEngine ⟨ascii "up", []⟩
        ⟨graphiteReverseTagKey, ascii "up", false, false⟩ = false) ∧
    ∃ tfs, LabelFilter.addAll sampleEngine [⟨graphiteKey, ascii "up", false, false⟩] = .ok tfs ∧
      matchTagFilters ⟨ascii "up", [⟨graphiteKey, ascii "up"⟩]⟩ tfs.tfs = .ok (false, tfs.tfs) ∧
      LabelFilter.holds sampleEngine ⟨ascii "up", [⟨graphiteKey, ascii "up"⟩]⟩
        ⟨graphiteKey, ascii "up", false, false⟩ = true := by
  have hreverse : (TagFilter.plain [nsPrefixTagToMetricIds] graphiteReverseTagKey (ascii "up")
      false).matchName ⟨ascii "up", []⟩ = .ok true := by decide
  have hgraphite : (TagFilter.plain [nsPrefixTagToMetricIds] graphiteKey (ascii "up")
      false).matchName ⟨ascii "up", [⟨graphiteKey, ascii "up"⟩]⟩ = .ok false := by decide
  refine ⟨⟨⟨[.plain [nsPrefixTagToMetricIds] graphiteReverseTagKey (ascii "up") false],
    [nsPrefixTagToMetricIds]⟩, rfl, ?_, by decide⟩,
    ⟨[.plain [nsPrefixTagToMetricIds] graphiteKey (ascii "up") false], [nsPrefixTagToMetricIds]⟩,
    rfl, ?_, by decide⟩
  · rw [matchTagFilters, matchTagFiltersLoop, hreverse]
    rfl
  · rw [matchTagFilters, matchTagFiltersLoop, hgraphite]
    rfl

end Esmetrics
