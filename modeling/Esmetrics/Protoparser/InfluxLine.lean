import Esmetrics.Lib.Lines
import Esmetrics.Protoparser.Influx

/-!
# Escaped lines are read back

The scanners that take account of escape characters find what the plain ones find when there are
none (`nextUnescapedChar_eq`), so that a line without escape characters is read in the same way
whatever the flag is (`unmarshalSingleRow_eq`), and the rows of a batch are those of its lines
(`unmarshal_append`).

A line that is rendered with its separators escaped is `Closed` for each of them, part by part, so
that every scanner stops where it was rendered to (`unmarshal_eq`).
-/

namespace Esmetrics.Protoparser.Influx

open List

/-! ### Lines without escape characters -/

section Plain

variable {s : Bytes}

theorem not_mem_take (h : backslash ∉ s) (n : ℕ) : backslash ∉ s.take n :=
  fun hmem => h (mem_of_mem_take hmem)

theorem not_mem_drop (h : backslash ∉ s) (n : ℕ) : backslash ∉ s.drop n :=
  fun hmem => h (mem_of_mem_drop hmem)

theorem nextUnescapedChar_eq (h : backslash ∉ s) (ch : UInt8) :
    nextUnescapedChar s ch true = nextUnescapedChar s ch false := by
  rw [nextUnescapedChar, nextUnescapedChar, if_pos rfl, nextUnescapedLoop_eq,
    findUnescaped_of_not_mem h]
  rfl

theorem unescapeTagValue_eq (h : backslash ∉ s) :
    unescapeTagValue s true = unescapeTagValue s false := by
  rw [unescapeTagValue, unescapeTagValue, if_pos rfl, unescape_of_not_mem h]
  rfl

theorem isInQuoteLoop_eq (isQuote : Bool) (h : backslash ∉ s) :
    isInQuoteLoop isQuote s true = isInQuoteLoop isQuote s false := by
  induction isQuote, s using isInQuoteLoop.induct false with
  | case1 isQuote s hnone =>
    rw [isInQuoteLoop_of_none hnone, isInQuoteLoop_of_none ((nextUnescapedChar_eq h _).trans hnone)]
  | case2 isQuote s n hsome ih =>
    rw [isInQuoteLoop_of_some hsome, isInQuoteLoop_of_some ((nextUnescapedChar_eq h _).trans hsome)]
    exact ih (not_mem_drop h _)

theorem nextUnquotedLoop_eq (h : backslash ∉ s) (ch : UInt8) :
    nextUnquotedLoop s ch true = nextUnquotedLoop s ch false := by
  have hquote (s : Bytes) (h : backslash ∉ s) (n : ℕ) :
      isInQuote (s.take n) true = isInQuote (s.take n) false :=
    isInQuoteLoop_eq false (not_mem_take h n)
  induction s using nextUnquotedLoop.induct ch false with
  | case1 s hnone =>
    rw [nextUnquotedLoop_of_none hnone,
      nextUnquotedLoop_of_none ((nextUnescapedChar_eq h _).trans hnone)]
  | case2 s n hsome hin hclose =>
    rw [nextUnquotedLoop_of_some hsome,
      nextUnquotedLoop_of_some ((nextUnescapedChar_eq h _).trans hsome), hquote s h,
      nextUnescapedChar_eq (not_mem_drop h _), if_pos hin, if_pos hin, hclose]
  | case3 s n hsome hin m hclose ih =>
    rw [nextUnquotedLoop_of_some hsome,
      nextUnquotedLoop_of_some ((nextUnescapedChar_eq h _).trans hsome), hquote s h,
      nextUnescapedChar_eq (not_mem_drop h _), if_pos hin, if_pos hin, hclose]
    exact congrArg (Option.map _) (ih (not_mem_drop h _))
  | case4 s n hsome hin =>
    rw [nextUnquotedLoop_of_some hsome,
      nextUnquotedLoop_of_some ((nextUnescapedChar_eq h _).trans hsome), hquote s h, if_neg hin,
      if_neg hin]

theorem nextUnquotedChar_eq (h : backslash ∉ s) (ch : UInt8) (quoted : Bool) :
    nextUnquotedChar s ch ⟨true, quoted⟩ = nextUnquotedChar s ch ⟨false, quoted⟩ := by
  rw [nextUnquotedChar, nextUnquotedChar, nextUnquotedLoop_eq h, nextUnescapedChar_eq h]

theorem unmarshalTag_eq (h : backslash ∉ s) (quoted : Bool) :
    unmarshalTag s ⟨true, quoted⟩ = unmarshalTag s ⟨false, quoted⟩ := by
  simp only [unmarshalTag, nextUnescapedChar_eq h, unescapeTagValue_eq (not_mem_take h _),
    unescapeTagValue_eq (not_mem_drop h _)]

theorem unmarshalTags_eq (h : backslash ∉ s) :
    unmarshalTags s ⟨true, false⟩ = unmarshalTags s ⟨false, false⟩ := by
  induction s using unmarshalTags.induct ⟨false, false⟩ with
  | case1 s hnone =>
    rw [unmarshalTags_of_none hnone, unmarshalTags_of_none ((nextUnescapedChar_eq h _).trans hnone),
      unmarshalTag_eq h]
  | case2 s n hsome ih =>
    rw [unmarshalTags_of_some hsome, unmarshalTags_of_some ((nextUnescapedChar_eq h _).trans hsome),
      unmarshalTag_eq (not_mem_take h n), ih (not_mem_drop h _)]

theorem unmarshalMeasurement_eq (h : backslash ∉ s) :
    unmarshalMeasurement s ⟨true, false⟩ = unmarshalMeasurement s ⟨false, false⟩ := by
  simp only [unmarshalMeasurement, nextUnescapedChar_eq h, unmarshalTags_eq (not_mem_drop h _),
    unescapeTagValue_eq h, unescapeTagValue_eq (not_mem_take h _)]

variable {F : Type} (ops : F64Ops F)

theorem unmarshalField_eq (h : backslash ∉ s) (quoted : Bool) :
    unmarshalField ops s ⟨true, quoted⟩ = unmarshalField ops s ⟨false, quoted⟩ := by
  simp only [unmarshalField, nextUnescapedChar_eq h, unescapeTagValue_eq (not_mem_take h _)]
  rfl

theorem unmarshalInfluxFields_eq (h : backslash ∉ s) (quoted : Bool) :
    unmarshalInfluxFields ops s ⟨true, quoted⟩ = unmarshalInfluxFields ops s ⟨false, quoted⟩ := by
  induction s using unmarshalInfluxFields.induct ⟨false, quoted⟩ with
  | case1 s hnone =>
    rw [unmarshalInfluxFields_of_none hnone,
      unmarshalInfluxFields_of_none ((nextUnquotedChar_eq h _ _).trans hnone),
      unmarshalField_eq ops h]
  | case2 s n hsome ih =>
    rw [unmarshalInfluxFields_of_some hsome,
      unmarshalInfluxFields_of_some ((nextUnquotedChar_eq h _ _).trans hsome),
      unmarshalField_eq ops (not_mem_take h n), ih (not_mem_drop h _)]

theorem unmarshalFieldsTimestamp_eq (h : backslash ∉ s) (quoted : Bool) :
    unmarshalFieldsTimestamp ops s ⟨true, quoted⟩ = unmarshalFieldsTimestamp ops s ⟨false,
      quoted⟩ := by
  simp only [unmarshalFieldsTimestamp, nextUnquotedChar_eq h, unmarshalInfluxFields_eq ops h,
    unmarshalInfluxFields_eq ops (not_mem_take h _)]

theorem not_mem_stripLeadingWhitespace {b : UInt8} (h : b ∉ s) : b ∉ stripLeadingWhitespace s := by
  induction s with
  | nil => exact h
  | cons a s ih =>
    rw [stripLeadingWhitespace]
    split
    · exact ih fun hmem => h (mem_cons_of_mem a hmem)
    · exact h

/-- A line without escape characters gives the same row or error with both scanners. -/
theorem unmarshalSingleRow_eq (h : backslash ∉ s) :
    unmarshalSingleRow ops true s = unmarshalSingleRow ops false s := by
  have hrest (n : ℕ) : backslash ∉ stripLeadingWhitespace (s.drop n) :=
    not_mem_stripLeadingWhitespace (not_mem_drop h n)
  simp only [unmarshalSingleRow, nextUnescapedChar_eq h, unmarshalMeasurement_eq (not_mem_take h _),
    nextUnescapedChar_eq (hrest _), unmarshalFieldsTimestamp_eq ops (hrest _)]

theorem unmarshalRow_eq (h : backslash ∉ s) : unmarshalRow ops true s =
    unmarshalRow ops false s := by
  have hline : backslash ∉ (if s.getLast? = some '\r'.toUInt8 then s.dropLast else s) := by
    split
    · exact fun hmem => h (mem_of_mem_dropLast hmem)
    · exact h
  simp only [unmarshalRow, unmarshalSingleRow_eq ops hline]

end Plain

/-! ### Batches -/

section Batches

variable {F : Type} (ops : F64Ops F) {flag skip : Bool} {line s : Bytes}

/-- The rows of a line, which is skipped when it fails. -/
def lineRows (hasEscapeChars : Bool) (line : Bytes) : List (Row F) :=
  match unmarshalRow ops hasEscapeChars line with
  | .ok row => row.toList
  | .error _ => []

theorem unmarshalInner_last (h : '\n'.toUInt8 ∉ line) :
    (unmarshalInner ops flag true line).rows = lineRows ops flag line := by
  cases line with
  | nil => rw [unmarshalInner]; rfl
  | cons b line =>
    have hdrop : (b :: line).drop ((b :: line).length + 1) = [] := drop_eq_nil_of_le (Nat.le_succ _)
    rw [unmarshalInner, idxOf?_eq_none_iff.mpr h]
    dsimp only [Option.getD_none]
    rw [hdrop, take_length, lineRows, unmarshalInner]
    cases unmarshalRow ops flag (b :: line) with
    | error err => rfl
    | ok row => exact append_nil _

theorem unmarshalInner_of_row {row : Option (Row F)} (h : '\n'.toUInt8 ∉ line)
    (hrow : unmarshalRow ops flag line = .ok row) :
    unmarshalInner ops flag skip line = ⟨row.toList, none⟩ := by
  cases line with
  | nil =>
    obtain rfl := Except.ok.inj hrow
    rw [unmarshalInner]
    rfl
  | cons b line =>
    have hdrop : (b :: line).drop ((b :: line).length + 1) = [] := drop_eq_nil_of_le (Nat.le_succ _)
    rw [unmarshalInner, idxOf?_eq_none_iff.mpr h]
    dsimp only [Option.getD_none]
    rw [hdrop, take_length, hrow, unmarshalInner]
    dsimp only
    rw [append_nil]

/-- The lines are read one after the other. -/
theorem unmarshalInner_line (h : '\n'.toUInt8 ∉ line) (s : Bytes) :
    unmarshalInner ops flag skip (line ++ '\n'.toUInt8 :: s) =
      match unmarshalRow ops flag line with
      | .ok row => ⟨row.toList ++ (unmarshalInner ops flag skip s).rows,
          (unmarshalInner ops flag skip s).error⟩
      | .error err =>
        if skip then unmarshalInner ops flag skip s
        else ⟨[], some ([.text "incorrect influx line ",
          .debug (line ++ '\n'.toUInt8 :: s), .text ": "] ++ err)⟩ := by
  have hidx := idxOf?_append_cons h s
  cases hcons : line ++ '\n'.toUInt8 :: s with
  | nil => exact absurd hcons (by simp)
  | cons b r =>
    have htake : (b :: r).take line.length = line := by rw [← hcons, take_left]
    have hdrop : (b :: r).drop (line.length + 1) = s := by
      rw [← hcons, ← drop_drop, drop_left]
      rfl
    rw [hcons] at hidx
    rw [unmarshalInner, hidx]
    dsimp only [Option.getD_some]
    rw [htake]
    cases unmarshalRow ops flag line with
    | ok row => simp only [hdrop]
    | error err => simp only [hdrop]

theorem rows_unmarshalInner_line (h : '\n'.toUInt8 ∉ line) (s : Bytes) :
    (unmarshalInner ops flag true (line ++ '\n'.toUInt8 :: s)).rows =
      lineRows ops flag line ++ (unmarshalInner ops flag true s).rows := by
  rw [unmarshalInner_line ops h, lineRows]
  cases unmarshalRow ops flag line with
  | error err => rfl
  | ok row => rfl

theorem unmarshalInner_lineByLine (flag : Bool) :
    LineByLine '\n'.toUInt8 fun s => (unmarshalInner ops flag true s).rows :=
  LineByLine.of_line (lineRows ops flag) rfl (fun _ h => unmarshalInner_last ops h)
    fun _ s h => rows_unmarshalInner_line ops h s

theorem unmarshalInner_eq (h : backslash ∉ s) :
    unmarshalInner ops true skip s = unmarshalInner ops false skip s := by
  induction hn : s.length using Nat.strongRecOn generalizing s with
  | ind n ih =>
    cases s with
    | nil => rw [unmarshalInner, unmarshalInner]
    | cons b s =>
      have hlt (k : ℕ) : ((b :: s).drop (k + 1)).length < n := by
        rw [← hn, length_drop, length_cons]
        omega
      rw [unmarshalInner, unmarshalInner, unmarshalRow_eq ops (not_mem_take h _),
        ih _ (hlt _) (not_mem_drop h _) rfl]

/-- The scanners that take account of escape characters are right for every text. -/
theorem unmarshalInner_eq_unmarshal (h : flag = true ∨ backslash ∉ s) :
    unmarshalInner ops flag skip s = unmarshal ops skip s := by
  rw [unmarshal]
  by_cases hmem : backslash ∈ s
  · rw [h.resolve_right fun hnot => hnot hmem, contains_iff_mem.mpr hmem]
  · rw [Bool.eq_false_iff.mpr fun hcontains => hmem (contains_iff_mem.mp hcontains)]
    cases flag with
    | false => rfl
    | true => exact unmarshalInner_eq ops hmem

theorem unmarshalRow_contains (line : Bytes) :
    unmarshalRow ops (line.contains backslash) line = unmarshalRow ops true line := by
  by_cases hmem : backslash ∈ line
  · rw [contains_iff_mem.mpr hmem]
  · rw [Bool.eq_false_iff.mpr fun hcontains => hmem (contains_iff_mem.mp hcontains),
      unmarshalRow_eq ops hmem]

/-- The rows of a batch are those of its lines, whatever the escape characters of the others. -/
theorem unmarshal_lineByLine : LineByLine '\n'.toUInt8 fun s => (unmarshal ops true s).rows := by
  refine ⟨by rw [unmarshal, unmarshalInner], fun s t => ?_⟩
  have hinner := unmarshalInner_lineByLine ops true
  rw [← unmarshalInner_eq_unmarshal ops (.inl rfl), ← unmarshalInner_eq_unmarshal ops (.inl rfl),
    ← unmarshalInner_eq_unmarshal ops (.inl rfl)]
  exact hinner.append s t

end Batches

/-! ### Rendered lines -/

/-- A byte, with a backslash before it when it is special. -/
def escapeByte (b : UInt8) : Bytes := if isSpecial b then [backslash, b] else [b]

def escape (s : Bytes) : Bytes := s.flatMap escapeByte

def renderTag (tag : Tag) : Bytes := escape tag.key ++ '='.toUInt8 :: escape tag.value

section Rendered

variable {F : Type} (ops : F64Ops F) (print : F → Bytes)

def renderField (field : Field F) : Bytes := escape field.key ++ '='.toUInt8 :: print field.value

/-- The line of a row without timestamp. -/
def renderLine (measurement : Bytes) (tags : List Tag) (fields : List (Field F)) : Bytes :=
  escape measurement ++ tags.flatMap (fun tag => ','.toUInt8 :: renderTag tag) ++
    ' '.toUInt8 :: [','.toUInt8].intercalate (fields.map (renderField print))

/-- The text of a floating-point number. -/
def IsNumeral (text : Bytes) : Prop :=
  (text ≠ [] ∧ ∀ b ∈ text, b ∈ ascii "0123456789+-.eE") ∨ text ∈ ["inf", "-inf", "NaN"].map ascii

instance (text : Bytes) : Decidable (IsNumeral text) := inferInstanceAs (Decidable (_ ∨ _))

variable {c : UInt8} {s : Bytes}

theorem isSpecial_iff {b : UInt8} :
    isSpecial b = true ↔ b = ' '.toUInt8 ∨ b = ','.toUInt8 ∨ b = '='.toUInt8 ∨ b = backslash := by
  simp [isSpecial, or_assoc]

theorem closed_escape (hc : c ≠ backslash) (h : isSpecial c = true ∨ c ∉ s) :
    Closed backslash c (escape s) := by
  refine Closed.flatMap fun x hx => ?_
  rw [escapeByte]
  split
  · exact Closed.pair hc x
  · next hspecial =>
    refine Closed.singleton ?_ ?_
    · rintro rfl
      exact h.elim hspecial fun hnot => hnot hx
    · rintro rfl
      exact hspecial (isSpecial_iff.mpr (.inr (.inr (.inr rfl))))

theorem unescapeTagValue_escape (s : Bytes) : unescapeTagValue (escape s) true = s := by
  rw [unescapeTagValue, if_pos rfl]
  refine unescape_flatMap fun x _ => ?_
  rw [escapeByte]
  split
  · next hspecial => exact .inr ⟨x, rfl, if_pos hspecial⟩
  · next hspecial =>
    refine .inl ⟨rfl, ?_⟩
    rintro rfl
    exact hspecial (isSpecial_iff.mpr (.inr (.inr (.inr rfl))))

theorem nextUnescapedChar_append (hc : c ≠ backslash) {w : Bytes} (h : Closed backslash c w)
    (r : Bytes) : nextUnescapedChar (w ++ c :: r) c true = some w.length := by
  rw [nextUnescapedChar, if_pos rfl, nextUnescapedLoop_eq, h.findUnescaped_append hc]

theorem nextUnescapedChar_eq_none (hc : c ≠ backslash) {w : Bytes} (h : Closed backslash c w) :
    nextUnescapedChar w c true = none := by
  rw [nextUnescapedChar, if_pos rfl, nextUnescapedLoop_eq, h.findUnescaped_eq_none hc]

theorem nextUnquotedChar_unquoted (s : Bytes) (ch : UInt8) (flag : Bool) :
    nextUnquotedChar s ch ⟨flag, false⟩ = nextUnescapedChar s ch flag := rfl

theorem take_length_append (w r : Bytes) : (w ++ r).take w.length = w := take_left

theorem drop_length_succ_append (w r : Bytes) (b : UInt8) :
    (w ++ b :: r).drop (w.length + 1) = r := by
  rw [← drop_drop, drop_left]
  rfl

theorem unmarshalTag_renderTag (tag : Tag) (quoted : Bool) :
    unmarshalTag (renderTag tag) ⟨true, quoted⟩ = .ok tag := by
  have hnext := nextUnescapedChar_append (c := '='.toUInt8) (by decide)
    (closed_escape (s := tag.key) (by decide) (.inl (by decide))) (escape tag.value)
  rw [unmarshalTag, renderTag, hnext]
  dsimp only
  rw [take_length_append, drop_length_succ_append, unescapeTagValue_escape, unescapeTagValue_escape]

theorem closed_renderTag (hc : c ≠ backslash) (hspecial : isSpecial c = true)
    (hne : c ≠ '='.toUInt8) (tag : Tag) : Closed backslash c (renderTag tag) := by
  have hequals : Closed backslash c ['='.toUInt8] := Closed.singleton hne.symm (by decide)
  rw [renderTag, ← singleton_append]
  exact (closed_escape hc (.inl hspecial)).append
    (hequals.append (closed_escape hc (.inl hspecial)))

/-- The tags are read one by one; those that are kept have a key and a value. -/
theorem unmarshalTags_render (tag : Tag) (tags : List Tag)
    (h : ∀ t ∈ tag :: tags, t.key ≠ [] ∧ t.value ≠ []) :
    unmarshalTags (renderTag tag ++ tags.flatMap fun t => ','.toUInt8 :: renderTag t)
    ⟨true, false⟩ =
      .ok (tag :: tags) := by
  have hkeep : keepTag tag = [tag] := by
    obtain ⟨hkey, hvalue⟩ := h tag mem_cons_self
    simp [keepTag, hkey, hvalue]
  have hclosed := closed_renderTag (c := ','.toUInt8) (by decide) (by decide) (by decide) tag
  induction tags generalizing tag with
  | nil =>
    rw [flatMap_nil, append_nil,
      unmarshalTags_of_none (nextUnescapedChar_eq_none (by decide) hclosed), unmarshalTag_renderTag]
    exact congrArg Except.ok hkeep
  | cons tag' tags ih =>
    have h' : ∀ t ∈ tag' :: tags, t.key ≠ [] ∧ t.value ≠ [] :=
      fun t ht => h t (mem_cons_of_mem tag ht)
    have hkeep' : keepTag tag' = [tag'] := by
      obtain ⟨hkey, hvalue⟩ := h' tag' mem_cons_self
      simp [keepTag, hkey, hvalue]
    rw [flatMap_cons, cons_append,
      unmarshalTags_of_some (nextUnescapedChar_append (by decide) hclosed _), take_length_append,
      drop_length_succ_append, unmarshalTag_renderTag,
      ih tag' h' hkeep' (closed_renderTag (by decide) (by decide) (by decide) tag')]
    change Except.ok (keepTag tag ++ _) = _
    rw [hkeep]
    rfl

theorem unmarshalMeasurement_render (measurement : Bytes) (tags : List Tag)
    (h : ∀ t ∈ tags, t.key ≠ [] ∧ t.value ≠ []) :
    unmarshalMeasurement
        (escape measurement ++ tags.flatMap fun t => ','.toUInt8 :: renderTag t) ⟨true, false⟩ =
      .ok (measurement, tags) := by
  have hclosed := closed_escape (c := ','.toUInt8) (s := measurement) (by decide) (.inl (by decide))
  cases tags with
  | nil =>
    rw [flatMap_nil, append_nil, unmarshalMeasurement,
      nextUnescapedChar_eq_none (by decide) hclosed]
    dsimp only
    rw [unescapeTagValue_escape]
  | cons tag tags =>
    rw [flatMap_cons, cons_append, unmarshalMeasurement,
      nextUnescapedChar_append (by decide) hclosed]
    dsimp only
    rw [take_length_append, drop_length_succ_append, unmarshalTags_render tag tags h,
      unescapeTagValue_escape]
    rfl

namespace IsNumeral

variable {text : Bytes}

theorem ne_nil (h : IsNumeral text) : text ≠ [] := by
  rcases h with h | h
  · exact h.1
  · rintro rfl
    exact absurd h (by decide)

/-- Neither a separator nor a quote nor a line end. -/
theorem not_mem (h : IsNumeral text) {b : UInt8} (hb : b ∈ ascii " ,=\\\"\n\r") : b ∉ text := by
  rcases h with ⟨-, h⟩ | h
  · have hdisjoint : ∀ b ∈ ascii " ,=\\\"\n\r", b ∉ ascii "0123456789+-.eE" := by decide +kernel
    exact fun hmem => hdisjoint b hb (h b hmem)
  · have hnamed : ∀ text ∈ ["inf", "-inf", "NaN"].map ascii, ∀ b ∈ ascii " ,=\\\"\n\r",
        b ∉ text := by
      decide +kernel
    exact hnamed text h b hb

/-- Not an integer, which ends with its type. -/
theorem getLast?_ne (h : IsNumeral text) {b : UInt8} (hb : b ∈ ascii "iu") :
    text.getLast? ≠ some b := by
  rcases h with ⟨-, h⟩ | h
  · have hdisjoint : ∀ b ∈ ascii "iu", b ∉ ascii "0123456789+-.eE" := by decide +kernel
    exact fun hlast => hdisjoint b hb (h b (mem_of_getLast? hlast))
  · have hnamed : ∀ text ∈ ["inf", "-inf", "NaN"].map ascii, ∀ b ∈ ascii "iu",
        text.getLast? ≠ some b := by decide +kernel
    exact hnamed text h b hb

theorem not_mem_boolean (h : IsNumeral text) :
    text ∉ ["t", "T", "true", "True", "TRUE"].map ascii ∧
      text ∉ ["f", "F", "false", "False", "FALSE"].map ascii := by
  rcases h with ⟨-, h⟩ | h
  · have hletter : ∀ w ∈ ["t", "T", "true", "True", "TRUE"].map ascii ++
        ["f", "F", "false", "False", "FALSE"].map ascii, ∃ b ∈ w, b ∉ ascii "0123456789+-.eE" := by
      decide
    refine ⟨fun hmem => ?_, fun hmem => ?_⟩
    · obtain ⟨b, hb, hnot⟩ := hletter text (mem_append_left _ hmem)
      exact hnot (h b hb)
    · obtain ⟨b, hb, hnot⟩ := hletter text (mem_append_right _ hmem)
      exact hnot (h b hb)
  · have hnamed : ∀ text ∈ ["inf", "-inf", "NaN"].map ascii,
        text ∉ ["t", "T", "true", "True", "TRUE"].map ascii ∧
          text ∉ ["f", "F", "false", "False", "FALSE"].map ascii := by decide
    exact hnamed text h

theorem parseFieldValue_eq (h : IsNumeral text) (flag : Bool) :
    parseFieldValue ops text ⟨flag, false⟩ = .ok (parseBestEffort ops text) := by
  cases text with
  | nil => exact absurd rfl h.ne_nil
  | cons b rest =>
    obtain ⟨htrue, hfalse⟩ := h.not_mem_boolean
    rw [parseFieldValue, if_neg fun hquoted => Bool.false_ne_true hquoted.1,
      if_neg (h.getLast?_ne (b := 'i'.toUInt8) (by decide)),
      if_neg (h.getLast?_ne (b := 'u'.toUInt8) (by decide)), if_neg htrue, if_neg hfalse]

end IsNumeral

/-- The number of the field is read back from its text. -/
def ReadsBack (field : Field F) : Prop :=
  IsNumeral (print field.value) ∧ parseBestEffort ops (print field.value) = field.value

variable {ops print}

theorem unmarshalField_renderField {field : Field F} (hkey : field.key ≠ [])
    (h : ReadsBack ops print field) :
    unmarshalField ops (renderField print field) ⟨true, false⟩ = .ok field := by
  have hclosed := closed_escape (c := '='.toUInt8) (s := field.key) (by decide) (.inl (by decide))
  rw [unmarshalField, renderField, nextUnescapedChar_append (by decide) hclosed]
  dsimp only
  rw [take_length_append, drop_length_succ_append, unescapeTagValue_escape,
    if_neg (by simpa using hkey), h.1.parseFieldValue_eq ops, h.2]

theorem closed_renderField (hc : c ∈ ascii " ,") {field : Field F} (h : ReadsBack ops print field) :
    Closed backslash c (renderField print field) := by
  have hspecial : ∀ c ∈ ascii " ,", c ≠ backslash ∧ isSpecial c = true ∧ '='.toUInt8 ≠ c ∧
      c ∈ ascii " ,=\\\"\n\r" := by decide +kernel
  obtain ⟨hne, hspecial, hequals, hmem⟩ := hspecial c hc
  have hequals : Closed backslash c ['='.toUInt8] := Closed.singleton hequals (by decide)
  have hvalue : Closed backslash c (print field.value) :=
    Closed.of_not_mem (h.1.not_mem hmem) (h.1.not_mem (by decide))
  rw [renderField, ← singleton_append]
  exact (closed_escape hne (.inl hspecial)).append (hequals.append hvalue)

theorem unmarshalInfluxFields_render (field : Field F) (fields : List (Field F))
    (hkey : ∀ f ∈ field :: fields, f.key ≠ [])
    (h : ∀ f ∈ field :: fields, ReadsBack ops print f) :
    unmarshalInfluxFields ops ([','.toUInt8].intercalate
      ((field :: fields).map (renderField print)))
        ⟨true, false⟩ = .ok (field :: fields) := by
  have hread := unmarshalField_renderField (hkey field mem_cons_self) (h field mem_cons_self)
  have hclosed := closed_renderField (c := ','.toUInt8) (by decide) (h field mem_cons_self)
  induction fields generalizing field with
  | nil =>
    rw [map_singleton, intercalate_singleton,
      unmarshalInfluxFields_of_none ((nextUnquotedChar_unquoted _ _ _).trans
        (nextUnescapedChar_eq_none (by decide) hclosed)), hread]
    rfl
  | cons field' fields ih =>
    have hkey' : ∀ f ∈ field' :: fields, f.key ≠ [] :=
      fun f hf => hkey f (mem_cons_of_mem field hf)
    have h' : ∀ f ∈ field' :: fields, ReadsBack ops print f :=
      fun f hf => h f (mem_cons_of_mem field hf)
    have hrest := ih field' hkey' h'
      (unmarshalField_renderField (hkey' field' mem_cons_self) (h' field' mem_cons_self))
      (closed_renderField (by decide) (h' field' mem_cons_self))
    rw [map_cons] at hrest
    rw [map_cons, map_cons, intercalate_cons_cons, append_assoc,
      singleton_append, unmarshalInfluxFields_of_some ((nextUnquotedChar_unquoted _ _ _).trans
        (nextUnescapedChar_append (by decide) hclosed _)),
      take_length_append, drop_length_succ_append, hread, hrest]
    rfl

/-- The fields are not taken for a timestamp, and zero stands for the one that is missing. -/
theorem unmarshalFieldsTimestamp_render (field : Field F) (fields : List (Field F))
    (hkey : ∀ f ∈ field :: fields, f.key ≠ [])
    (h : ∀ f ∈ field :: fields, ReadsBack ops print f) :
    unmarshalFieldsTimestamp ops
        ([','.toUInt8].intercalate ((field :: fields).map (renderField print))) ⟨true, false⟩ =
      .ok (field :: fields, 0) := by
  have hclosed : Closed backslash ' '.toUInt8
      ([','.toUInt8].intercalate ((field :: fields).map (renderField print))) := by
    refine Closed.intercalate (Closed.singleton (by decide) (by decide)) fun w hw => ?_
    obtain ⟨f, hf, rfl⟩ := mem_map.mp hw
    exact closed_renderField (by decide) (h f hf)
  rw [unmarshalFieldsTimestamp, nextUnquotedChar_unquoted,
    nextUnescapedChar_eq_none (by decide) hclosed]
  dsimp only
  rw [unmarshalInfluxFields_render field fields hkey h]
  rfl

/-! ### The whole line -/

theorem stripLeadingWhitespace_escape (hs : s ≠ []) (r : Bytes) :
    stripLeadingWhitespace (escape s ++ r) = escape s ++ r := by
  cases s with
  | nil => exact absurd rfl hs
  | cons b s =>
    rw [escape, flatMap_cons, escapeByte]
    split
    · rfl
    · next hspecial =>
      have hspace : b ≠ ' '.toUInt8 := fun h => hspecial (isSpecial_iff.mpr (.inl h))
      rw [singleton_append, cons_append, stripLeadingWhitespace, if_neg hspace]

theorem not_mem_escape {b : UInt8} (hb : b ≠ backslash) (h : b ∉ s) : b ∉ escape s := by
  intro hmem
  obtain ⟨x, hx, hmem⟩ := mem_flatMap.mp hmem
  rw [escapeByte] at hmem
  split at hmem
  · rcases mem_cons.mp hmem with rfl | hmem
    · exact hb rfl
    · exact h (mem_singleton.mp hmem ▸ hx)
  · exact h (mem_singleton.mp hmem ▸ hx)

theorem not_mem_renderField {b : UInt8} (hb : b ∈ ascii "\"\n") {field : Field F}
    (hkey : b ∉ field.key) (h : ReadsBack ops print field) : b ∉ renderField print field := by
  have hbyte : ∀ b ∈ ascii "\"\n", b ≠ backslash ∧ b ≠ '='.toUInt8 ∧ b ∈ ascii " ,=\\\"\n\r" := by
    decide +kernel
  obtain ⟨hne, hequals, hmem⟩ := hbyte b hb
  rw [renderField, mem_append, mem_cons, not_or, not_or]
  exact ⟨not_mem_escape hne hkey, hequals, h.1.not_mem hmem⟩

section Line

variable {measurement : Bytes} {tags : List Tag} {field : Field F} {fields : List (Field F)}

/-- What is rendered: strings without quotes and line ends, and numbers that are read back. -/
structure Renderable (ops : F64Ops F) (print : F → Bytes) (measurement : Bytes) (tags : List Tag)
    (fields : List (Field F)) : Prop where
  measurement_ne_nil : measurement ≠ []
  not_comment : measurement.head? ≠ some '#'.toUInt8
  measurement_plain : ∀ b ∈ ascii "\"\n", b ∉ measurement
  tag_ne_nil : ∀ tag ∈ tags, tag.key ≠ [] ∧ tag.value ≠ []
  tag_plain : ∀ b ∈ ascii "\"\n", ∀ tag ∈ tags, b ∉ tag.key ∧ b ∉ tag.value
  fields_ne_nil : fields ≠ []
  key_ne_nil : ∀ field ∈ fields, field.key ≠ []
  key_plain : ∀ b ∈ ascii "\"\n", ∀ field ∈ fields, b ∉ field.key
  readsBack : ∀ field ∈ fields, ReadsBack ops print field

namespace Renderable

/-- The part before the space, where the measurement and the tags are. -/
theorem closed_measurement (measurement : Bytes) (tags : List Tag) :
    Closed backslash ' '.toUInt8
      (escape measurement ++ tags.flatMap fun tag => ','.toUInt8 :: renderTag tag) := by
  have hcomma : Closed backslash ' '.toUInt8 [','.toUInt8] :=
    Closed.singleton (by decide) (by decide)
  refine (closed_escape (by decide) (.inl (by decide))).append (Closed.flatMap fun tag _ => ?_)
  rw [← singleton_append]
  exact hcomma.append (closed_renderTag (by decide) (by decide) (by decide) tag)

theorem not_mem_fields (h : Renderable ops print measurement tags fields) {b : UInt8}
    (hb : b ∈ ascii "\"\n") : b ∉ [','.toUInt8].intercalate (fields.map (renderField print)) := by
  have hcomma : ∀ b ∈ ascii "\"\n", b ∉ [','.toUInt8] := by decide +kernel
  refine intercalate_induction (motive := fun w => b ∉ w) not_mem_nil (fun u v hu hv => ?_)
    (hcomma b hb) fun w hw => ?_
  · rw [mem_append, not_or]
    exact ⟨hu, hv⟩
  · obtain ⟨field, hfield, rfl⟩ := mem_map.mp hw
    exact not_mem_renderField hb (h.key_plain b hb field hfield) (h.readsBack field hfield)

theorem unmarshalSingleRow_eq (h : Renderable ops print measurement tags fields) :
    unmarshalSingleRow ops true (renderLine print measurement tags fields) =
      .ok ⟨measurement, tags, fields, 0⟩ := by
  have hquote : nextUnescapedChar ([','.toUInt8].intercalate (fields.map (renderField print)))
      '"'.toUInt8 true = none := by
    rw [nextUnescapedChar, if_pos rfl, nextUnescapedLoop_eq]
    exact findUnescaped_of_none (idxOf?_eq_none_iff.mpr (h.not_mem_fields (by decide)))
  cases fields with
  | nil => exact absurd rfl h.fields_ne_nil
  | cons field fields =>
    have hstrip : stripLeadingWhitespace
        ([','.toUInt8].intercalate ((field :: fields).map (renderField print))) =
        [','.toUInt8].intercalate ((field :: fields).map (renderField print)) := by
      rw [map_cons]
      cases fields.map (renderField print) with
      | nil =>
        rw [intercalate_singleton, renderField]
        exact stripLeadingWhitespace_escape (h.key_ne_nil field mem_cons_self) _
      | cons w ws =>
        rw [intercalate_cons_cons, renderField, append_assoc, append_assoc]
        exact stripLeadingWhitespace_escape (h.key_ne_nil field mem_cons_self) _
    rw [unmarshalSingleRow, renderLine,
      nextUnescapedChar_append (by decide) (closed_measurement measurement tags)]
    dsimp only
    rw [take_length_append, drop_length_succ_append, hstrip,
      unmarshalMeasurement_render measurement tags h.tag_ne_nil, hquote, Option.isSome_none]
    change (unmarshalFieldsTimestamp ops _ ⟨true, false⟩ >>= fun p =>
      Except.ok (Row.mk measurement tags p.1 p.2)) = _
    rw [unmarshalFieldsTimestamp_render field fields h.key_ne_nil h.readsBack]
    rfl

/-- The line ends with a number. -/
theorem getLast?_renderLine (h : Renderable ops print measurement tags fields) :
    (renderLine print measurement tags fields).getLast? ≠ some '\r'.toUInt8 := by
  have hfields (field : Field F) (fields : List (Field F))
      (h : ∀ f ∈ field :: fields, ReadsBack ops print f) :
      ∃ w b, [','.toUInt8].intercalate ((field :: fields).map (renderField print)) = w ++ [b] ∧
        b ≠ '\r'.toUInt8 := by
    induction fields generalizing field with
    | nil =>
      have hnumeral := (h field mem_cons_self).1
      have hprint := (dropLast_append_getLast hnumeral.ne_nil).symm
      generalize (print field.value).dropLast = w, (print field.value).getLast _ = b at hprint
      refine ⟨escape field.key ++ '='.toUInt8 :: w, b, ?_, ?_⟩
      · rw [map_singleton, intercalate_singleton, renderField, hprint, append_assoc]
        rfl
      · rintro rfl
        refine hnumeral.not_mem (b := '\r'.toUInt8) (by decide) ?_
        rw [hprint]
        exact mem_append_right _ mem_cons_self
    | cons field' fields ih =>
      obtain ⟨w, b, hrest, hb⟩ := ih field' fun f hf => h f (mem_cons_of_mem field hf)
      rw [map_cons] at hrest
      refine ⟨renderField print field ++ [','.toUInt8] ++ w, b, ?_, hb⟩
      rw [map_cons, map_cons, intercalate_cons_cons, hrest, append_assoc _ w]
  cases fields with
  | nil => exact absurd rfl h.fields_ne_nil
  | cons field fields =>
    obtain ⟨w, b, hw, hb⟩ := hfields field fields h.readsBack
    rw [renderLine, hw, getLast?_append_cons, ← cons_append, getLast?_concat]
    exact fun heq => hb (Option.some.inj heq)

theorem head?_renderLine (h : Renderable ops print measurement tags fields) :
    (renderLine print measurement tags fields).head? ≠ some '#'.toUInt8 := by
  cases measurement with
  | nil => exact absurd rfl h.measurement_ne_nil
  | cons b measurement =>
    rw [renderLine, escape, flatMap_cons, escapeByte]
    split
    · exact fun heq => absurd (Option.some.inj heq) (by decide)
    · exact h.not_comment

theorem unmarshalRow_eq (h : Renderable ops print measurement tags fields) :
    unmarshalRow ops true (renderLine print measurement tags fields) =
      .ok (some ⟨measurement, tags, fields, 0⟩) := by
  have hne : (renderLine print measurement tags fields).isEmpty = false := by
    rw [renderLine]
    simp
  rw [unmarshalRow, if_neg h.getLast?_renderLine, if_neg (Bool.not_eq_true _ ▸ hne),
    if_neg h.head?_renderLine, h.unmarshalSingleRow_eq]
  rfl

theorem newline_not_mem (h : Renderable ops print measurement tags fields) :
    '\n'.toUInt8 ∉ renderLine print measurement tags fields := by
  rw [renderLine, mem_append, mem_append, mem_cons, not_or, not_or, not_or]
  refine ⟨⟨not_mem_escape (by decide) (h.measurement_plain _ (by decide)), fun hmem => ?_⟩,
    by decide, h.not_mem_fields (by decide)⟩
  obtain ⟨tag, htag, hmem⟩ := mem_flatMap.mp hmem
  obtain ⟨hkey, hvalue⟩ := h.tag_plain '\n'.toUInt8 (by decide) tag htag
  rw [renderTag, mem_cons, mem_append, mem_cons] at hmem
  rcases hmem with hmem | hmem | hmem | hmem
  · exact absurd hmem (by decide)
  · exact not_mem_escape (by decide) hkey hmem
  · exact absurd hmem (by decide)
  · exact not_mem_escape (by decide) hvalue hmem

/-- A rendered line is read back. -/
theorem unmarshal_eq (h : Renderable ops print measurement tags fields) (skip : Bool) :
    unmarshal ops skip (renderLine print measurement tags fields) =
      ⟨[⟨measurement, tags, fields, 0⟩], none⟩ := by
  rw [← unmarshalInner_eq_unmarshal ops (.inl rfl)]
  exact unmarshalInner_of_row ops h.newline_not_mem h.unmarshalRow_eq

end Renderable

end Line

end Rendered

/-! ### Escaping -/

section Escaping

variable {F : Type} (ops : F64Ops F) (print : F → Bytes)

/-- A line with its separators escaped is read back; a line without escape characters gives the same
row or error with both scanners; and a line of a batch is read as it is read by itself. -/
theorem influx_line_escaping :
    (∀ measurement tags fields, Renderable ops print measurement tags fields → ∀ skipInvalidLines,
      unmarshal ops skipInvalidLines (renderLine print measurement tags fields) =
        ⟨[⟨measurement, tags, fields, 0⟩], none⟩) ∧
    (∀ line : Bytes, backslash ∉ line →
      unmarshalSingleRow ops true line = unmarshalSingleRow ops false line) ∧
    ∀ (skipInvalidLines : Bool) (line s : Bytes), '\n'.toUInt8 ∉ line →
      unmarshal ops skipInvalidLines (line ++ '\n'.toUInt8 :: s) =
        match unmarshalRow ops (line.contains backslash) line with
        | .ok row => ⟨row.toList ++ (unmarshal ops skipInvalidLines s).rows,
            (unmarshal ops skipInvalidLines s).error⟩
        | .error err =>
          if skipInvalidLines then unmarshal ops skipInvalidLines s
          else ⟨[], some ([.text "incorrect influx line ", .debug (line ++ '\n'.toUInt8 :: s),
            .text ": "] ++ err)⟩ := by
  refine ⟨fun measurement tags fields h skip => h.unmarshal_eq skip,
    fun line h => unmarshalSingleRow_eq ops h, fun skip line s h => ?_⟩
  rw [← unmarshalInner_eq_unmarshal ops (.inl rfl), ← unmarshalInner_eq_unmarshal ops (.inl rfl),
    unmarshalRow_contains]
  exact unmarshalInner_line ops h s

end Escaping

theorem influx_line_escaping_spaces :
    unmarshal integerOps true
        (renderLine printInteger (ascii "cpu load") [⟨ascii "a=b", ascii "c\\"⟩]
          [⟨ascii "x,y", -12⟩]) =
      ⟨[⟨ascii "cpu load", [⟨ascii "a=b", ascii "c\\"⟩], [⟨ascii "x,y", -12⟩], 0⟩], none⟩ := by
  have hnumeral : ReadsBack integerOps printInteger ⟨ascii "x,y", -12⟩ :=
    ⟨by decide +kernel, by decide +kernel⟩
  exact (influx_line_escaping integerOps printInteger).1 _ _ _ {
    measurement_ne_nil := by decide
    not_comment := by decide
    measurement_plain := by decide +kernel
    tag_ne_nil := by decide
    tag_plain := by decide +kernel
    fields_ne_nil := by decide
    key_ne_nil := by decide
    key_plain := by decide +kernel
    readsBack := by simpa using hnumeral } true

/-- A field needs a key. -/
theorem renderLine_empty_key :
    unmarshal integerOps false (renderLine printInteger (ascii "m") [] [⟨[], 1⟩]) ≠
      ⟨[⟨ascii "m", [], [⟨[], 1⟩], 0⟩], none⟩ := by
  decide +kernel

end Esmetrics.Protoparser.Influx
