import Esmetrics.Esmalert.Alert

/-!
# The restore query

The text that `build_restore_query` (`esmalert/src/remoteread/mod.rs`) makes of the names of a rule
and its group, and how the engine reads such a text (`esm-metricsql/src/lexer.rs` and `strutil.rs`):
the end of a string is its first quote that is not escaped, and the contents are unquoted.

The query is read back as its matchers, unless a name has a line break
(`parseRestoreQuery_buildRestoreQuery`): `escape_label_value` leaves it as it is, and a quoted
string must not have one.
-/

namespace Esmetrics.Esmalert

open List

/-! ### The text of the query -/

/-- Escapes a backslash and a quote. -/
def escapeLabelValue (v : Bytes) : Bytes :=
  v.flatMap fun b => if b = 92 then [92, 92] else if b = 34 then [92, 34] else [b]

/-- The text of the restore query. -/
def buildRestoreQuery (ruleName groupName : Bytes) (disableAlertgroupLabel : Bool) (lookback : ℕ) :
    Bytes :=
  let filter := alertNameLabel ++ [61, 34] ++ escapeLabelValue ruleName ++ [34]
  let filter :=
    if disableAlertgroupLabel = false ∧ groupName ≠ [] then
      filter ++ [44] ++ alertGroupLabel ++ [61, 34] ++ escapeLabelValue groupName ++ [34]
    else filter
  ascii "last_over_time(" ++ alertForStateMetric ++ [123] ++ filter ++ [125, 91] ++
    (Nat.toDigits 10 (lookback / 1000)).map (fun c => c.val.toUInt8) ++ ascii "s])"

/-- The matchers of the restore query. -/
def restoreFilters (ruleName groupName : Bytes) (disableAlertgroupLabel : Bool) :
    List (Bytes × Bytes) :=
  [(nameLabel, alertForStateMetric), (alertNameLabel, ruleName)] ++
    if disableAlertgroupLabel = false ∧ groupName ≠ [] then [(alertGroupLabel, groupName)] else []

/-! ### Reading a query -/

/-- A string behind its opening quote, and what follows it: it ends at the first quote with an even
number of backslashes before it. The flag says that this number is odd so far. -/
def scanString : Bool → Bytes → Option (Bytes × Bytes)
  | _, [] => none
  | odd, b :: s =>
    if b = 34 ∧ odd = false then some ([], s)
    else (scanString (b = 92 && !odd) s).map fun p => (b :: p.1, p.2)

/-- The characters that a letter behind a backslash stands for. -/
def letterEscapes : List (UInt8 × UInt8) :=
  [(97, 7), (98, 8), (102, 12), (110, 10), (114, 13), (116, 9), (118, 11), (92, 92), (34, 34)]

/-- Unquotes the contents of a string in double quotes. Escapes by digits, which no restore query
has, are not read. -/
def unquoteDouble : Bytes → Option Bytes
  | [] => some []
  | [b] => if b = 10 ∨ b = 34 ∨ b = 92 then none else some [b]
  | b :: e :: s =>
    if b = 10 ∨ b = 34 then none
    else if b = 92 then
      (letterEscapes.lookup e).bind fun c => (unquoteDouble s).map (c :: ·)
    else (unquoteDouble (e :: s)).map (b :: ·)

/-- One matcher `label="value"`. -/
def parseMatcher (s : Bytes) : Option ((Bytes × Bytes) × Bytes) := do
  let rest ← (s.dropWhile (· ≠ 61)).dropPrefix? [61, 34]
  let (text, rest) ← scanString false rest
  let value ← unquoteDouble text
  return ((s.takeWhile (· ≠ 61), value), rest)

/-- The matchers behind an opening brace, up to the closing one. -/
def parseMatchers : ℕ → Bytes → Option (List (Bytes × Bytes) × Bytes)
  | 0, _ => none
  | n + 1, s => do
    let (m, s) ← parseMatcher s
    match s with
    | 44 :: s =>
      let (ms, s) ← parseMatchers n s
      return (m :: ms, s)
    | 125 :: s => return ([m], s)
    | _ => none

/-- A query `last_over_time(NAME{label="value",…}[Ns])`: its matchers, with the one of the name, and
its window in milliseconds. -/
def parseRestoreQuery (expr : Bytes) : Option (List (Bytes × Bytes) × ℕ) := do
  let s ← expr.dropPrefix? (ascii "last_over_time(")
  let (matchers, rest) ← parseMatchers s.length ((s.dropWhile (· ≠ 123)).drop 1)
  let rest ← rest.dropPrefix? [91]
  let digits := rest.takeWhile (· ≠ 115)
  if rest.dropWhile (· ≠ 115) = ascii "s])" then
    let seconds := Nat.ofDigitChars 10 (digits.map fun b => Char.ofNat b.toNat) 0
    return ((nameLabel, s.takeWhile (· ≠ 123)) :: matchers, seconds * 1000)
  else none

/-! ### Reading what was written -/

theorem scanString_escapeLabelValue (v t : Bytes) :
    scanString false (escapeLabelValue v ++ 34 :: t) = some (escapeLabelValue v, t) := by
  induction v with
  | nil => simp [escapeLabelValue, scanString]
  | cons b v ih =>
    rw [escapeLabelValue, flatMap_cons, ← escapeLabelValue, append_assoc]
    by_cases hslash : b = 92
    · rw [if_pos hslash]
      simp [scanString, ih]
    · rw [if_neg hslash]
      by_cases hquote : b = 34
      · rw [if_pos hquote]
        simp [scanString, ih]
      · rw [if_neg hquote]
        simp [scanString, hslash, hquote, ih]

theorem unquoteDouble_cons {b : UInt8} (hslash : b ≠ 92) (s : Bytes) :
    unquoteDouble (b :: s) =
      if b = 10 ∨ b = 34 then none else (unquoteDouble s).map (b :: ·) := by
  cases s with
  | nil => simp [unquoteDouble, hslash]
  | cons e s => simp [unquoteDouble, hslash]

/-- An escaped text is read back, unless it has a line break. -/
theorem unquoteDouble_escapeLabelValue (v : Bytes) :
    unquoteDouble (escapeLabelValue v) = if 10 ∈ v then none else some v := by
  induction v with
  | nil => rfl
  | cons b v ih =>
    rw [escapeLabelValue, flatMap_cons, ← escapeLabelValue]
    by_cases hslash : b = 92
    · subst hslash
      have hlookup : letterEscapes.lookup 92 = some 92 := by decide
      rw [if_pos rfl, cons_append, singleton_append, unquoteDouble]
      simp [hlookup, ih, apply_ite]
    · rw [if_neg hslash]
      by_cases hquote : b = 34
      · subst hquote
        have hlookup : letterEscapes.lookup 34 = some 34 := by decide
        rw [if_pos rfl, cons_append, singleton_append, unquoteDouble]
        simp [hlookup, ih, apply_ite]
      · rw [if_neg hquote, singleton_append, unquoteDouble_cons hslash, ih]
        by_cases hbreak : b = 10
        · simp [hbreak]
        · simp [hbreak, hquote, Ne.symm hbreak, apply_ite]

/-- A matcher is read back, unless its value has a line break. -/
theorem parseMatcher_escapeLabelValue {label : Bytes} (hlabel : ∀ b ∈ label, b ≠ 61)
    (v t : Bytes) :
    parseMatcher (label ++ 61 :: 34 :: (escapeLabelValue v ++ 34 :: t)) =
      if 10 ∈ v then none else some ((label, v), t) := by
  have hall : ∀ b ∈ label, decide (b ≠ 61) = true := fun b hb => decide_eq_true (hlabel b hb)
  rw [parseMatcher, dropWhile_append_of_pos hall, takeWhile_append_of_pos hall]
  by_cases hbreak : 10 ∈ v
  · simp [dropPrefix?, scanString_escapeLabelValue, unquoteDouble_escapeLabelValue, hbreak]
  · simp [dropPrefix?, scanString_escapeLabelValue, unquoteDouble_escapeLabelValue, hbreak]

theorem parseMatchers_one {label : Bytes} (hlabel : ∀ b ∈ label, b ≠ 61) (n : ℕ) (v t : Bytes) :
    parseMatchers (n + 1) (label ++ 61 :: 34 :: (escapeLabelValue v ++ 34 :: 125 :: t)) =
      if 10 ∈ v then none else some ([(label, v)], t) := by
  rw [parseMatchers, parseMatcher_escapeLabelValue hlabel]
  by_cases hbreak : 10 ∈ v
  · rw [if_pos hbreak, if_pos hbreak]
    rfl
  · rw [if_neg hbreak, if_neg hbreak]
    rfl

theorem parseMatchers_cons {label : Bytes} (hlabel : ∀ b ∈ label, b ≠ 61) (n : ℕ) (v t : Bytes) :
    parseMatchers (n + 1) (label ++ 61 :: 34 :: (escapeLabelValue v ++ 34 :: 44 :: t)) =
      if 10 ∈ v then none else (parseMatchers n t).map fun p => ((label, v) :: p.1, p.2) := by
  rw [parseMatchers, parseMatcher_escapeLabelValue hlabel]
  by_cases hbreak : 10 ∈ v
  · rw [if_pos hbreak, if_pos hbreak]
    rfl
  · rw [if_neg hbreak, if_neg hbreak]
    cases hrest : parseMatchers n t <;> simp [hrest]

/-- The byte of a digit. -/
theorem toNat_of_mem_toDigits {n : ℕ} {c : Char} (hc : c ∈ Nat.toDigits 10 n) :
    c.val.toUInt8.toNat = c.toNat ∧ c.toNat ≤ 57 := by
  have hdigit : c.isDigit = true := Nat.isDigit_of_mem_toDigits (by decide) (by decide) hc
  have hle : c.val.toNat ≤ 57 := by
    simp only [Char.isDigit, UInt32.le_iff_toNat_le, Bool.and_eq_true, decide_eq_true_iff] at hdigit
    exact hdigit.2
  refine ⟨?_, hle⟩
  rw [UInt32.toNat_toUInt8, Nat.mod_eq_of_lt (by omega)]
  rfl

/-- The digits of a number are read back. -/
theorem ofDigitChars_map_toDigits (n : ℕ) :
    Nat.ofDigitChars 10 (((Nat.toDigits 10 n).map fun c => c.val.toUInt8).map fun b =>
      Char.ofNat b.toNat) 0 = n := by
  have hmap : ((Nat.toDigits 10 n).map fun c => c.val.toUInt8).map (fun b => Char.ofNat b.toNat) =
      Nat.toDigits 10 n := by
    rw [map_map, map_congr_left (g := id), map_id]
    intro c hc
    rw [Function.comp_apply, (toNat_of_mem_toDigits hc).1, Char.ofNat_toNat, id]
  rw [hmap, Nat.ofDigitChars_ten_toDigits]

/-- Whether the strings of the restore query are strings of the query language, which have no line
break. -/
def RestoreQueryParses (ruleName groupName : Bytes) (disableAlertgroupLabel : Bool) : Prop :=
  10 ∉ ruleName ∧ (disableAlertgroupLabel = false → 10 ∉ groupName)

instance (ruleName groupName : Bytes) (disableAlertgroupLabel : Bool) :
    Decidable (RestoreQueryParses ruleName groupName disableAlertgroupLabel) :=
  inferInstanceAs (Decidable (_ ∧ (_ → _)))

/-- What comes behind the matchers. -/
theorem parseRestoreQuery_of_matchers (text : Bytes) (lookback : ℕ)
    (matchers : Option (List (Bytes × Bytes)))
    (h : ∀ n t, parseMatchers (n + 2) (text ++ 125 :: t) = matchers.map fun ms => (ms, t)) :
    parseRestoreQuery (ascii "last_over_time(" ++ (alertForStateMetric ++ 123 :: (text ++
        125 :: 91 :: ((Nat.toDigits 10 (lookback / 1000)).map (fun c => c.val.toUInt8) ++
          ascii "s])")))) =
      matchers.map fun ms => ((nameLabel, alertForStateMetric) :: ms, lookback / 1000 * 1000) := by
  have hname : ∀ b ∈ alertForStateMetric, decide (b ≠ 123) = true := by decide +kernel
  have hdigits : ∀ b ∈ (Nat.toDigits 10 (lookback / 1000)).map (fun c => c.val.toUInt8),
      decide (b ≠ 115) = true := by
    intro b hb
    obtain ⟨c, hc, rfl⟩ := mem_map.mp hb
    obtain ⟨hbyte, hle⟩ := toNat_of_mem_toDigits hc
    have hs : (115 : UInt8).toNat = 115 := rfl
    rw [decide_eq_true_iff]
    intro heq
    have hnat := congrArg UInt8.toNat heq
    rw [hbyte, hs] at hnat
    omega
  have hend : ascii "s])" = 115 :: ascii "])" := rfl
  obtain ⟨n, hn⟩ : ∃ n, (alertForStateMetric ++ 123 :: (text ++ 125 :: 91 ::
      ((Nat.toDigits 10 (lookback / 1000)).map (fun c => c.val.toUInt8) ++
        ascii "s])"))).length = n + 2 := ⟨_, rfl⟩
  rw [parseRestoreQuery, dropPrefix?_append_of_beq _ (beq_self_eq_true _)]
  simp only [Option.bind_eq_bind, Option.bind_some, hn]
  rw [dropWhile_append_of_pos hname, takeWhile_append_of_pos hname,
    dropWhile_cons_of_neg (by decide),
    takeWhile_cons_of_neg (by decide), drop_one, tail_cons, append_nil, h]
  cases matchers with
  | none => rfl
  | some ms =>
    have hprefix : ∀ t : Bytes, (91 :: t).dropPrefix? [91] = some t := fun t =>
      dropPrefix?_append_of_beq t (beq_self_eq_true [91])
    simp only [Option.map_some, Option.bind_some, hprefix]
    rw [dropWhile_append_of_pos hdigits, takeWhile_append_of_pos hdigits, hend,
      dropWhile_cons_of_neg (by decide), takeWhile_cons_of_neg (by decide), append_nil, if_pos rfl,
      ofDigitChars_map_toDigits]
    rfl

/-- **Reading the restore query.** -/
theorem parseRestoreQuery_buildRestoreQuery (ruleName groupName : Bytes)
    (disableAlertgroupLabel : Bool) (lookback : ℕ) :
    parseRestoreQuery (buildRestoreQuery ruleName groupName disableAlertgroupLabel lookback) =
      if RestoreQueryParses ruleName groupName disableAlertgroupLabel then
        some (restoreFilters ruleName groupName disableAlertgroupLabel, lookback / 1000 * 1000)
      else none := by
  have hlabel : ∀ b ∈ alertNameLabel, b ≠ 61 := by decide +kernel
  have hgrouplabel : ∀ b ∈ alertGroupLabel, b ≠ 61 := by decide +kernel
  rw [buildRestoreQuery, restoreFilters]
  by_cases hgroup : disableAlertgroupLabel = false ∧ groupName ≠ []
  · have h := parseRestoreQuery_of_matchers
      (alertNameLabel ++ 61 :: 34 :: (escapeLabelValue ruleName ++ 34 :: 44 ::
        (alertGroupLabel ++ 61 :: 34 :: (escapeLabelValue groupName ++ [34])))) lookback
      (if 10 ∈ ruleName then none else if 10 ∈ groupName then none else
        some [(alertNameLabel, ruleName), (alertGroupLabel, groupName)]) fun n t => by
        simp only [append_assoc, cons_append, nil_append]
        rw [parseMatchers_cons hlabel, parseMatchers_one hgrouplabel]
        split_ifs <;> rfl
    simp only [if_pos hgroup, append_assoc, cons_append, nil_append] at h ⊢
    rw [h]
    by_cases hrule : 10 ∈ ruleName
    · simp [RestoreQueryParses, hrule]
    · by_cases hname : 10 ∈ groupName
      · simp [RestoreQueryParses, hrule, hname, hgroup.1]
      · simp [RestoreQueryParses, hrule, hname]
  · have h := parseRestoreQuery_of_matchers
      (alertNameLabel ++ 61 :: 34 :: (escapeLabelValue ruleName ++ [34])) lookback
      (if 10 ∈ ruleName then none else some [(alertNameLabel, ruleName)]) fun n t => by
        simp only [append_assoc, cons_append, nil_append]
        rw [parseMatchers_one hlabel]
        split_ifs <;> rfl
    have hother : disableAlertgroupLabel = false → 10 ∉ groupName := by
      intro henabled
      rw [not_not.mp fun hne => hgroup ⟨henabled, hne⟩]
      exact not_mem_nil
    simp only [if_neg hgroup, append_assoc, cons_append, nil_append] at h ⊢
    rw [h]
    by_cases hrule : 10 ∈ ruleName
    · simp [RestoreQueryParses, hrule]
    · rw [if_neg hrule, if_pos ⟨hrule, hother⟩]
      rfl

end Esmetrics.Esmalert
