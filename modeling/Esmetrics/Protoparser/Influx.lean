import Esmetrics.Lib.Escape
import Esmetrics.Protoparser.FastFloat

/-!
# Influx line protocol

Model of `Rows::unmarshal` of `esm-protoparser/src/influx.rs`. A scanner takes the flag that says
whether there are escape characters in the whole input: without any it is the plain search. Rows are
reset before they are filled, and a row that fails is dropped.
-/

namespace Esmetrics.Protoparser.Influx

structure Tag where
  key : Bytes
  value : Bytes
deriving DecidableEq

structure Field (F : Type) where
  key : Bytes
  value : F
deriving DecidableEq

structure Row (F : Type) where
  measurement : Bytes
  tags : List Tag
  fields : List (Field F)
  timestamp : ℤ
deriving DecidableEq

/-! ### Scanners -/

/-- The loop of `next_unescaped_char`. -/
def nextUnescapedLoop (w : Bytes) (ch : UInt8) : Option ℕ :=
  match h : w.idxOf? ch with
  | none => none
  | some n =>
    if n = 0 ∨ w[n - 1]? ≠ some backslash then some n
    else if trailingCount backslash (w.take n) % 2 = 0 then some n
    else (nextUnescapedLoop (w.drop (n + 1)) ch).map (· + (n + 1))
termination_by w.length
decreasing_by
  have hlt := lt_length_of_idxOf? h
  rw [List.length_drop]
  omega

variable {w s : Bytes} {ch : UInt8} {n : ℕ} {hasEscapeChars : Bool}

theorem nextUnescapedLoop_of_none (h : w.idxOf? ch = none) :
    nextUnescapedLoop w ch = none := by
  rw [nextUnescapedLoop]
  split
  · rfl
  · next hsome => exact nomatch h.symm.trans hsome

theorem nextUnescapedLoop_of_some (h : w.idxOf? ch = some n) :
    nextUnescapedLoop w ch =
      if n = 0 ∨ w[n - 1]? ≠ some backslash then some n
      else if trailingCount backslash (w.take n) % 2 = 0 then some n
      else (nextUnescapedLoop (w.drop (n + 1)) ch).map (· + (n + 1)) := by
  rw [nextUnescapedLoop]
  split
  · next hnone => cases h.symm.trans hnone
  · next m hsome =>
    obtain rfl := Option.some.inj (h.symm.trans hsome)
    rfl

/-- The test of the byte before an occurrence saves the count of the run. -/
theorem nextUnescapedLoop_eq (w : Bytes) (ch : UInt8) :
    nextUnescapedLoop w ch = findUnescaped backslash ch w := by
  induction w using nextUnescapedLoop.induct ch with
  | case1 w h => rw [nextUnescapedLoop_of_none h, findUnescaped_of_none h]
  | case2 w n h hback =>
    have hzero : trailingCount backslash (w.take n) = 0 := by
      cases n with
      | zero => rw [List.take_zero]; rfl
      | succ n =>
        have hlt := lt_length_of_idxOf? h
        rw [List.take_succ_eq_append_getElem (by omega)]
        refine trailingCount_append_singleton (fun heq => ?_) _
        have hne := hback.resolve_left (Nat.succ_ne_zero n)
        rw [Nat.add_sub_cancel, List.getElem?_eq_getElem (by omega), heq] at hne
        exact hne rfl
    rw [nextUnescapedLoop_of_some h, findUnescaped_of_some h, if_pos hback, hzero, if_pos rfl]
  | case3 w n h hback heven =>
    rw [nextUnescapedLoop_of_some h, findUnescaped_of_some h, if_neg hback, if_pos heven,
      if_pos heven]
  | case4 w n h hback hodd ih =>
    rw [nextUnescapedLoop_of_some h, findUnescaped_of_some h, if_neg hback, if_neg hodd,
      if_neg hodd, ih]

/-- The first occurrence of a byte that no backslash escapes. -/
def nextUnescapedChar (s : Bytes) (ch : UInt8) (hasEscapeChars : Bool) : Option ℕ :=
  if hasEscapeChars then nextUnescapedLoop s ch else s.idxOf? ch

theorem lt_length_of_nextUnescapedChar (h : nextUnescapedChar s ch hasEscapeChars = some n) :
    n < s.length := by
  rw [nextUnescapedChar] at h
  split at h
  · rw [nextUnescapedLoop_eq] at h
    exact lt_length_of_findUnescaped h
  · exact lt_length_of_idxOf? h

/-- The loop of `is_in_quote`. -/
def isInQuoteLoop (isQuote : Bool) (s : Bytes) (hasEscapeChars : Bool) : Bool :=
  match h : nextUnescapedChar s '"'.toUInt8 hasEscapeChars with
  | none => isQuote
  | some n => isInQuoteLoop (!isQuote) (s.drop (n + 1)) hasEscapeChars
termination_by s.length
decreasing_by
  have hlt := lt_length_of_nextUnescapedChar h
  rw [List.length_drop]
  omega

theorem isInQuoteLoop_of_none {isQuote : Bool}
    (h : nextUnescapedChar s '"'.toUInt8 hasEscapeChars = none) :
    isInQuoteLoop isQuote s hasEscapeChars = isQuote := by
  rw [isInQuoteLoop]
  split
  · rfl
  · next hsome => exact nomatch h.symm.trans hsome

theorem isInQuoteLoop_of_some {isQuote : Bool}
    (h : nextUnescapedChar s '"'.toUInt8 hasEscapeChars = some n) :
    isInQuoteLoop isQuote s hasEscapeChars =
      isInQuoteLoop (!isQuote) (s.drop (n + 1)) hasEscapeChars := by
  rw [isInQuoteLoop]
  split
  · next hnone => exact nomatch h.symm.trans hnone
  · next m hsome =>
    obtain rfl := Option.some.inj (h.symm.trans hsome)
    rfl

/-- Whether the text ends inside of quotes. -/
def isInQuote (s : Bytes) (hasEscapeChars : Bool) : Bool := isInQuoteLoop false s hasEscapeChars

/-- The loop of `next_unquoted_char`. -/
def nextUnquotedLoop (w : Bytes) (ch : UInt8) (hasEscapeChars : Bool) : Option ℕ :=
  match _hnext : nextUnescapedChar w ch hasEscapeChars with
  | none => none
  | some n =>
    if isInQuote (w.take n) hasEscapeChars then
      match nextUnescapedChar (w.drop (n + 1)) '"'.toUInt8 hasEscapeChars with
      | none => none
      | some m =>
        (nextUnquotedLoop (w.drop (n + 1 + m + 1)) ch hasEscapeChars).map (· + (n + 1 + m + 1))
    else some n
termination_by w.length
decreasing_by
  have hlt := lt_length_of_nextUnescapedChar _hnext
  rw [List.length_drop]
  omega

theorem nextUnquotedLoop_of_none (h : nextUnescapedChar w ch hasEscapeChars = none) :
    nextUnquotedLoop w ch hasEscapeChars = none := by
  rw [nextUnquotedLoop]
  split
  · rfl
  · next hsome => exact nomatch h.symm.trans hsome

theorem nextUnquotedLoop_of_some (h : nextUnescapedChar w ch hasEscapeChars = some n) :
    nextUnquotedLoop w ch hasEscapeChars =
      if isInQuote (w.take n) hasEscapeChars then
        match nextUnescapedChar (w.drop (n + 1)) '"'.toUInt8 hasEscapeChars with
        | none => none
        | some m =>
          (nextUnquotedLoop (w.drop (n + 1 + m + 1)) ch hasEscapeChars).map (· + (n + 1 + m + 1))
      else some n := by
  rw [nextUnquotedLoop]
  split
  · next hnone => exact nomatch h.symm.trans hnone
  · next k hsome =>
    obtain rfl := Option.some.inj (h.symm.trans hsome)
    rfl

theorem lt_length_of_nextUnquotedLoop (h : nextUnquotedLoop w ch hasEscapeChars = some n) :
    n < w.length := by
  induction w using nextUnquotedLoop.induct ch hasEscapeChars generalizing n with
  | case1 w hnext =>
    rw [nextUnquotedLoop_of_none hnext] at h
    exact nomatch h
  | case2 w m hnext hquote hclose =>
    rw [nextUnquotedLoop_of_some hnext, if_pos hquote, hclose] at h
    exact nomatch h
  | case3 w m hnext hquote k hclose ih =>
    rw [nextUnquotedLoop_of_some hnext, if_pos hquote, hclose] at h
    obtain ⟨j, hj, rfl⟩ := Option.map_eq_some_iff.mp h
    have hlt := ih hj
    rw [List.length_drop] at hlt
    omega
  | case4 w m hnext hquote =>
    rw [nextUnquotedLoop_of_some hnext, if_neg hquote] at h
    obtain rfl := Option.some.inj h
    exact lt_length_of_nextUnescapedChar hnext

/-- What is known of the input and of the fields of a line. -/
structure UnmarshalContext where
  hasEscapeChars : Bool
  hasQuotedFields : Bool

/-- The first occurrence of a byte outside of quotes. -/
def nextUnquotedChar (s : Bytes) (ch : UInt8) (uc : UnmarshalContext) : Option ℕ :=
  if uc.hasQuotedFields then nextUnquotedLoop s ch uc.hasEscapeChars
  else nextUnescapedChar s ch uc.hasEscapeChars

theorem lt_length_of_nextUnquotedChar {uc : UnmarshalContext}
    (h : nextUnquotedChar s ch uc = some n) :
    n < s.length := by
  rw [nextUnquotedChar] at h
  split at h
  · exact lt_length_of_nextUnquotedLoop h
  · exact lt_length_of_nextUnescapedChar h

/-- Whether a byte is escaped by a backslash. -/
def isSpecial (b : UInt8) : Bool :=
  b = ' '.toUInt8 || b = ','.toUInt8 || b = '='.toUInt8 || b = backslash

/-- The backslashes of escaped bytes are removed; other backslashes stay. -/
def unescapeTagValue (s : Bytes) (hasEscapeChars : Bool) : Bytes :=
  if hasEscapeChars then unescape backslash (fun b => if isSpecial b then [b] else [backslash, b]) s
  else s

def stripLeadingWhitespace : Bytes → Bytes
  | [] => []
  | b :: s => if b = ' '.toUInt8 then stripLeadingWhitespace s else b :: s

/-! ### Rows -/

section Rows

variable {F : Type} (ops : F64Ops F)

def parseFieldValue (s : Bytes) (uc : UnmarshalContext) : Except Message F :=
  match s with
  | [] => .error [.text "field value cannot be empty"]
  | b :: rest =>
    if uc.hasQuotedFields ∧ b = '"'.toUInt8 then
      if rest.getLast? = some '"'.toUInt8 then .ok (parseBestEffort ops rest.dropLast)
      else .error [.text "missing closing quote for quoted field value ", .display s,
        .text "; this may be caused by a raw newline (`\\n`) inside the quoted field value"]
    else if s.getLast? = some 'i'.toUInt8 then do
      let n ← parseInt64 s.dropLast
      .ok (ops.ofInt n)
    else if s.getLast? = some 'u'.toUInt8 then do
      let n ← parseUint64 s.dropLast
      .ok (ops.ofInt n)
    else if s ∈ ["t", "T", "true", "True", "TRUE"].map ascii then .ok (ops.ofInt 1)
    else if s ∈ ["f", "F", "false", "False", "FALSE"].map ascii then .ok (ops.ofInt 0)
    else .ok (parseBestEffort ops s)

def unmarshalTag (s : Bytes) (uc : UnmarshalContext) : Except Message Tag :=
  match nextUnescapedChar s '='.toUInt8 uc.hasEscapeChars with
  | none => .error [.text "missing tag value for ", .debug s]
  | some n => .ok {
      key := unescapeTagValue (s.take n) uc.hasEscapeChars
      value := unescapeTagValue (s.drop (n + 1)) uc.hasEscapeChars }

def unmarshalField (s : Bytes) (uc : UnmarshalContext) : Except Message (Field F) :=
  match nextUnescapedChar s '='.toUInt8 uc.hasEscapeChars with
  | none => .error [.text "missing field value for ", .debug s]
  | some n =>
    let key := unescapeTagValue (s.take n) uc.hasEscapeChars
    if key.isEmpty then .error [.text "field key cannot be empty"]
    else match parseFieldValue ops (s.drop (n + 1)) uc with
      | .ok value => .ok ⟨key, value⟩
      | .error err => .error ([.text "cannot parse field value for ", .debug key,
        .text ": "] ++ err)

/-- A tag is kept unless its key or its value is empty. -/
def keepTag (tag : Tag) : List Tag :=
  if tag.key.isEmpty || tag.value.isEmpty then [] else [tag]

/-- The tags between commas. Those with an empty key or value are left out. -/
def unmarshalTags (s : Bytes) (uc : UnmarshalContext) : Except Message (List Tag) :=
  match _hnext : nextUnescapedChar s ','.toUInt8 uc.hasEscapeChars with
  | none => do
    let tag ← unmarshalTag s uc
    .ok (keepTag tag)
  | some n => do
    let tag ← unmarshalTag (s.take n) uc
    let tags ← unmarshalTags (s.drop (n + 1)) uc
    .ok (keepTag tag ++ tags)
termination_by s.length
decreasing_by
  have hlt := lt_length_of_nextUnescapedChar _hnext
  rw [List.length_drop]
  omega

variable {s : Bytes} {uc : UnmarshalContext}

theorem unmarshalTags_of_none (h : nextUnescapedChar s ','.toUInt8 uc.hasEscapeChars = none) :
    unmarshalTags s uc = (do
      let tag ← unmarshalTag s uc
      .ok (keepTag tag)) := by
  rw [unmarshalTags]
  split
  · rfl
  · next hsome => exact nomatch h.symm.trans hsome

theorem unmarshalTags_of_some {n : ℕ}
    (h : nextUnescapedChar s ','.toUInt8 uc.hasEscapeChars = some n) :
    unmarshalTags s uc = (do
      let tag ← unmarshalTag (s.take n) uc
      let tags ← unmarshalTags (s.drop (n + 1)) uc
      .ok (keepTag tag ++ tags)) := by
  rw [unmarshalTags]
  split
  · next hnone => exact nomatch h.symm.trans hnone
  · next m hsome =>
    obtain rfl := Option.some.inj (h.symm.trans hsome)
    rfl

/-- The fields between commas outside of quotes. -/
def unmarshalInfluxFields (s : Bytes) (uc : UnmarshalContext) : Except Message (List (Field F)) :=
  match h : nextUnquotedChar s ','.toUInt8 uc with
  | none => do
    let field ← unmarshalField ops s uc
    .ok [field]
  | some n => do
    let field ← unmarshalField ops (s.take n) uc
    let fields ← unmarshalInfluxFields (s.drop (n + 1)) uc
    .ok (field :: fields)
termination_by s.length
decreasing_by
  have hlt := lt_length_of_nextUnquotedChar h
  rw [List.length_drop]
  omega

variable {ops} in
theorem unmarshalInfluxFields_of_none (h : nextUnquotedChar s ','.toUInt8 uc = none) :
    unmarshalInfluxFields ops s uc = (do
      let field ← unmarshalField ops s uc
      .ok [field]) := by
  rw [unmarshalInfluxFields]
  split
  · rfl
  · next hsome => exact nomatch h.symm.trans hsome

variable {ops} in
theorem unmarshalInfluxFields_of_some {n : ℕ} (h : nextUnquotedChar s ','.toUInt8 uc = some n) :
    unmarshalInfluxFields ops s uc = (do
      let field ← unmarshalField ops (s.take n) uc
      let fields ← unmarshalInfluxFields ops (s.drop (n + 1)) uc
      .ok (field :: fields)) := by
  rw [unmarshalInfluxFields]
  split
  · next hnone => exact nomatch h.symm.trans hnone
  · next m hsome =>
    obtain rfl := Option.some.inj (h.symm.trans hsome)
    rfl

def tcpHint : Message := [.text ("please switch from tcp to http protocol for data ingestion; " ++
  "do not set `-influxListenAddr` command-line flag, since it is needed for tcp protocol only")]

/-- The measurement and the tags. -/
def unmarshalMeasurement (s : Bytes) (uc : UnmarshalContext) : Except Message (Bytes × List Tag) :=
  match nextUnescapedChar s ','.toUInt8 uc.hasEscapeChars with
  | some n => do
    let tags ← unmarshalTags (s.drop (n + 1)) uc
    .ok (unescapeTagValue (s.take n) uc.hasEscapeChars, tags)
  | none => .ok (unescapeTagValue s uc.hasEscapeChars, [])

/-- The fields and the timestamp, which is zero when there is none. -/
def unmarshalFieldsTimestamp (s : Bytes) (uc : UnmarshalContext) :
    Except Message (List (Field F) × ℤ) :=
  match nextUnquotedChar s ' '.toUInt8 uc with
  | none => do
    let fields ← unmarshalInfluxFields ops s uc
    .ok (fields, 0)
  | some n =>
    match unmarshalInfluxFields ops (s.take n) uc with
    | .error err => .error (if ascii "HTTP/" <+: s.drop (n + 1) then tcpHint else err)
    | .ok fields =>
      let rest := stripLeadingWhitespace (s.drop (n + 1))
      if rest.isEmpty then .ok (fields, 0)
      else match parseInt64 rest with
        | .ok timestamp => .ok (fields, timestamp)
        | .error err =>
          if ascii "HTTP/" <+: rest then .error tcpHint
          else .error ([.text "cannot parse timestamp ", .debug rest, .text ": "] ++ err)

def unmarshalSingleRow (hasEscapeChars : Bool) (s : Bytes) : Except Message (Row F) :=
  match nextUnescapedChar s ' '.toUInt8 hasEscapeChars with
  | none => .error [.text "cannot find Whitespace I in ", .debug s]
  | some n => do
    let rest := stripLeadingWhitespace (s.drop (n + 1))
    let (measurement, tags) ← unmarshalMeasurement (s.take n) ⟨hasEscapeChars, false⟩
    let uc := ⟨hasEscapeChars, (nextUnescapedChar rest '"'.toUInt8 hasEscapeChars).isSome⟩
    let (fields, timestamp) ← unmarshalFieldsTimestamp ops rest uc
    .ok ⟨measurement, tags, fields, timestamp⟩

/-- A line gives a row, or nothing when it is empty or a comment. -/
def unmarshalRow (hasEscapeChars : Bool) (s : Bytes) : Except Message (Option (Row F)) :=
  let s := if s.getLast? = some '\r'.toUInt8 then s.dropLast else s
  if s.isEmpty then .ok none
  else if s.head? = some '#'.toUInt8 then .ok none
  else do
    let row ← unmarshalSingleRow ops hasEscapeChars s
    .ok (some row)

/-- The rows before the first error, and this error. -/
structure Unmarshalled (F : Type) where
  rows : List (Row F)
  error : Option Message
deriving DecidableEq

/-- The loop over the lines. -/
def unmarshalInner (hasEscapeChars skipInvalidLines : Bool) (s : Bytes) : Unmarshalled F :=
  match s with
  | [] => ⟨[], none⟩
  | b :: s' =>
    let n := ((b :: s').idxOf? '\n'.toUInt8).getD (b :: s').length
    let rest := unmarshalInner hasEscapeChars skipInvalidLines ((b :: s').drop (n + 1))
    match unmarshalRow ops hasEscapeChars ((b :: s').take n) with
    | .ok row => ⟨row.toList ++ rest.rows, rest.error⟩
    | .error err =>
      if skipInvalidLines then rest
      else ⟨[], some ([.text "incorrect influx line ", .debug (b :: s'), .text ": "] ++ err)⟩
termination_by s.length
decreasing_by
  rw [List.length_drop, List.length_cons]
  omega

/-- `Rows::unmarshal`. -/
def unmarshal (skipInvalidLines : Bool) (s : Bytes) : Unmarshalled F :=
  unmarshalInner ops (s.contains backslash) skipInvalidLines s

end Rows

end Esmetrics.Protoparser.Influx
