import Esmetrics.Lib.FixedWidth
import Esmetrics.Lib.Lines

/-!
# The scanner of CSV texts

Model of `Scanner` of `esm-protoparser/src/csvimport.rs`, which reads a text line by line and each
line field by field. The scanner has one cursor for the line and one for the text, and its error
holds until the next line.

Reading the rest of a quoted field inverts the doubling of quotes (`readQuotedField_quoteField`), so
a rendered row is read back field by field (`columns_renderRow`), and rendered rows row by row
(`rows_renderRows`). Each field and each line makes the cursor move on, so that the loop over a line
ends (`columns_eq_some`).
-/

namespace Esmetrics.Protoparser.Csv

open List

/-! ### The scanner -/

/-- What an error message is made of: the text that it quotes. -/
inductive ScanError
  | missingClosingQuote (s : Bytes)
  | missingComma (s : Bytes)
deriving DecidableEq

structure Scanner where
  line : Bytes
  rest : Bytes
  isLastColumn : Bool
  error : Option ScanError

def Scanner.new (s : Bytes) : Scanner := ⟨[], s, false, none⟩

def trimTrailingCr (s : Bytes) : Bytes := if s.getLast? = some '\r'.toUInt8 then s.dropLast else s

/-- The loop of `next_line`: the first line that is not empty, and what follows it. -/
def nextLineLoop (s : Bytes) : Option (Bytes × Bytes) :=
  if _ : s = [] then none
  else
    let line := trimTrailingCr (s.takeWhile (· ≠ '\n'.toUInt8))
    let tail := (s.dropWhile (· ≠ '\n'.toUInt8)).tail
    if line ≠ [] then some (line, tail) else nextLineLoop tail
termination_by s.length
decreasing_by
  have hlength := length_pos_iff.mpr ‹s ≠ []›
  have hsuffix := (dropWhile_suffix (· ≠ '\n'.toUInt8) (l := s)).length_le
  rw [length_tail]
  omega

def Scanner.nextLine (sc : Scanner) : Bool × Scanner :=
  match nextLineLoop sc.rest with
  | some (line, rest) => (true, ⟨line, rest, false, none⟩)
  | none => (false, ⟨[], [], false, none⟩)

/-- The loop of `read_quoted_field` after a doubled quote. -/
def readEscaped (err : ScanError) (quote : UInt8) (buf s : Bytes) :
    Except ScanError (Bytes × Bytes) :=
  match _hafter : s.dropWhile (· ≠ quote) with
  | [] => .error err
  | _ :: tail =>
    let buf := buf ++ s.takeWhile (· ≠ quote)
    if tail.head? = some quote then
      readEscaped err quote (buf ++ [quote]) tail.tail
    else .ok (buf, tail)
termination_by s.length
decreasing_by
  have hsuffix := (dropWhile_suffix (· ≠ quote) (l := s)).length_le
  rw [_hafter, length_cons] at hsuffix
  rw [length_tail]
  omega

/-- Reads a field that starts with a quote; its text, and what follows the closing quote. -/
def readQuotedField (quote : UInt8) (body : Bytes) : Except ScanError (Bytes × Bytes) :=
  let err := .missingClosingQuote (quote :: body)
  match body.dropWhile (· ≠ quote) with
  | [] => .error err
  | _ :: tail =>
    let text := body.takeWhile (· ≠ quote)
    if tail.head? ≠ some quote then .ok (text, tail)
    else readEscaped err quote (text ++ [quote]) tail.tail

def isQuote (b : UInt8) : Bool := b == '"'.toUInt8 || b == '\''.toUInt8

/-- A field without quotes. -/
def Scanner.nextBareColumn (sc : Scanner) : Option Bytes × Scanner :=
  match sc.line.dropWhile (· ≠ ','.toUInt8) with
  | _ :: line => (some (sc.line.takeWhile (· ≠ ','.toUInt8)), { sc with line := line })
  | [] => (some sc.line, { sc with line := [], isLastColumn := true })

def Scanner.nextColumn (sc : Scanner) : Option Bytes × Scanner :=
  if sc.isLastColumn || sc.error.isSome then (none, sc)
  else
    match sc.line with
    | [] => sc.nextBareColumn
    | quote :: body =>
      if isQuote quote then
        match readQuotedField quote body with
        | .ok (field, []) => (some field, { sc with line := [], isLastColumn := true })
        | .ok (field, b :: tail) =>
          if b = ','.toUInt8 then (some field, { sc with line := tail })
          else (none, { sc with error := some (.missingComma (quote :: body)) })
        | .error err => (none, { sc with error := some err })
      else sc.nextBareColumn

/-! ### The loops over the columns and the lines -/

/-- `while let Some(column) = scanner.next_column()`, at most so often. -/
def columns : ℕ → Scanner → Option (List Bytes × Scanner)
  | 0, _ => none
  | fuel + 1, sc =>
    match sc.nextColumn with
    | (none, sc) => some ([], sc)
    | (some field, sc) => (columns fuel sc).map fun result => (field :: result.1, result.2)

/-- `while scanner.next_line()` over the columns of each line, at most so often: the fields of the
lines with the error that is left at the end of each. -/
def rows : ℕ → Scanner → Option (List (List Bytes × Option ScanError))
  | 0, _ => none
  | fuel + 1, sc =>
    match sc.nextLine with
    | (false, _) => some []
    | (true, sc) =>
      match columns (fuel + 1) sc with
      | none => none
      | some (fields, sc) => (rows fuel sc).map fun result => (fields, sc.error) :: result

/-! ### The loops end -/

variable {quote b : UInt8} {tail text : Bytes} {fuel : ℕ} {sc : Scanner}

theorem length_readEscaped {err : ScanError} {buf s field : Bytes}
    (h : readEscaped err quote buf s = .ok (field, tail)) : tail.length < s.length := by
  induction hn : s.length using Nat.strongRecOn generalizing s buf with
  | ind n ih =>
    have hsuffix := (dropWhile_suffix (· ≠ quote) (l := s)).length_le
    rw [readEscaped] at h
    split at h
    · exact absurd h (by simp)
    · rename_i hafter
      rw [hafter, length_cons] at hsuffix
      dsimp only at h
      split_ifs at h
      · have htail := ih _ (by rw [length_tail]; omega) h rfl
        rw [length_tail] at htail
        omega
      · obtain ⟨-, rfl⟩ := Prod.mk.inj (Except.ok.inj h)
        omega

theorem length_readQuotedField {body field : Bytes}
    (h : readQuotedField quote body = .ok (field, tail)) :
    tail.length < body.length := by
  have hsuffix := (dropWhile_suffix (· ≠ quote) (l := body)).length_le
  rw [readQuotedField] at h
  split at h
  · exact absurd h (by simp)
  · rename_i hafter
    rw [hafter, length_cons] at hsuffix
    dsimp only at h
    split_ifs at h
    · obtain ⟨-, rfl⟩ := Prod.mk.inj (Except.ok.inj h)
      omega
    · have htail := length_readEscaped h
      rw [length_tail] at htail
      omega

namespace Scanner

/-- How many columns there can be still. -/
def columnsLeft (sc : Scanner) : ℕ := if sc.isLastColumn then 0 else sc.line.length + 1

theorem nextBareColumn_step {sc : Scanner} (h : sc.isLastColumn = false) :
    sc.nextBareColumn.2.rest = sc.rest ∧ sc.nextBareColumn.2.columnsLeft < sc.columnsLeft := by
  have hsuffix := (dropWhile_suffix (· ≠ ','.toUInt8) (l := sc.line)).length_le
  rw [nextBareColumn]
  split
  · rename_i hafter
    rw [hafter, length_cons] at hsuffix
    refine ⟨rfl, ?_⟩
    rw [columnsLeft, columnsLeft, h]
    exact Nat.succ_lt_succ hsuffix
  · refine ⟨rfl, ?_⟩
    rw [columnsLeft, columnsLeft, h]
    exact Nat.succ_pos _

/-- A column makes the cursor of the line move on, and leaves that of the text where it is. -/
theorem nextColumn_step (sc : Scanner) :
    sc.nextColumn.2.rest = sc.rest ∧
      (sc.nextColumn.1.isSome → sc.nextColumn.2.columnsLeft < sc.columnsLeft) := by
  rw [nextColumn]
  split_ifs with hstop
  · exact ⟨rfl, fun h => absurd h Bool.false_ne_true⟩
  · rw [Bool.not_eq_true, Bool.or_eq_false_iff] at hstop
    obtain ⟨hlast, -⟩ := hstop
    have hbare := nextBareColumn_step hlast
    split
    · exact ⟨hbare.1, fun _ => hbare.2⟩
    · rename_i quote body hline
      split_ifs
      · split
        · refine ⟨rfl, fun _ => ?_⟩
          rw [columnsLeft, columnsLeft, hlast]
          exact Nat.succ_pos _
        · rename_i hread
          have htail := length_readQuotedField hread
          split_ifs
          · refine ⟨rfl, fun _ => ?_⟩
            rw [length_cons] at htail
            rw [columnsLeft, columnsLeft, hlast, hline, length_cons, if_neg Bool.false_ne_true,
              if_neg Bool.false_ne_true]
            dsimp only
            omega
          · exact ⟨rfl, fun h => absurd h Bool.false_ne_true⟩
        · exact ⟨rfl, fun h => absurd h Bool.false_ne_true⟩
      · exact ⟨hbare.1, fun _ => hbare.2⟩

end Scanner

theorem length_nextLineLoop {s line rest : Bytes} (h : nextLineLoop s = some (line, rest)) :
    line.length ≤ s.length ∧ rest.length < s.length := by
  induction hn : s.length using Nat.strongRecOn generalizing s with
  | ind n ih =>
    have hprefix := (List.takeWhile_prefix (· ≠ '\n'.toUInt8) (l := s)).length_le
    have hsuffix := (dropWhile_suffix (· ≠ '\n'.toUInt8) (l := s)).length_le
    rw [nextLineLoop] at h
    split_ifs at h with hnil
    have hlength := length_pos_iff.mpr hnil
    dsimp only at h
    split_ifs at h
    · obtain ⟨rfl, rfl⟩ := Prod.mk.inj (Option.some.inj h)
      refine ⟨?_, by rw [length_tail]; omega⟩
      rw [trimTrailingCr]
      split_ifs
      · rw [length_dropLast]
        omega
      · omega
    · have htail := ih _ (by rw [length_tail]; omega) h rfl
      rw [length_tail] at htail
      omega

/-- **The loop over the columns ends**, with the cursor of the text where it was. -/
theorem columns_eq_some (h : sc.columnsLeft < fuel) :
    ∃ fields sc', columns fuel sc = some (fields, sc') ∧ sc'.rest = sc.rest := by
  induction fuel generalizing sc with
  | zero => exact absurd h (Nat.not_lt_zero _)
  | succ fuel ih =>
    obtain ⟨hrest, hleft⟩ := sc.nextColumn_step
    rw [columns]
    split
    · rename_i heq
      rw [heq] at hrest
      exact ⟨_, _, rfl, hrest⟩
    · rename_i heq
      rw [heq] at hrest hleft
      obtain ⟨fields, sc', hcolumns, hrest'⟩ :=
        ih (lt_of_lt_of_le (hleft rfl) (Nat.lt_succ_iff.mp h))
      rw [hcolumns]
      exact ⟨_, _, rfl, hrest'.trans hrest⟩

/-- **The loop over the lines ends.** -/
theorem isSome_rows (h : sc.rest.length + 2 ≤ fuel) : (rows fuel sc).isSome = true := by
  induction fuel generalizing sc with
  | zero => exact absurd h (by omega)
  | succ fuel ih =>
    rw [rows, Scanner.nextLine]
    cases hnext : nextLineLoop sc.rest with
    | none => rfl
    | some next =>
      obtain ⟨line, rest⟩ := next
      obtain ⟨hline, hrest⟩ := length_nextLineLoop hnext
      have hleft : (Scanner.mk line rest false none).columnsLeft < fuel + 1 := by
        rw [Scanner.columnsLeft, if_neg Bool.false_ne_true]
        exact Nat.lt_of_lt_of_le (by dsimp only; omega) h
      obtain ⟨fields, sc', hcolumns, hrest'⟩ := columns_eq_some hleft
      dsimp only
      rw [hcolumns]
      dsimp only
      rw [Option.isSome_map]
      exact ih (by rw [hrest']; dsimp only; omega)

/-! ### Rendered rows -/

/-- A field, with the quote that it is rendered in, if any. -/
structure Field where
  text : Bytes
  quote : Option UInt8
deriving DecidableEq

def doubleQuotes (quote : UInt8) (text : Bytes) : Bytes := text.flatMap fun b =>
  if b = quote then [b, b] else [b]

def Field.render (f : Field) : Bytes :=
  match f.quote with
  | none => f.text
  | some quote => quote :: (doubleQuotes quote f.text ++ [quote])

def renderRow (row : List Field) : Bytes := [','.toUInt8].intercalate (row.map Field.render)

/-- The rows, one line each; the last line may end in a newline too. -/
def renderRows (finalNewline : Bool) : List (List Field) → Bytes
  | [] => []
  | [row] => renderRow row ++ if finalNewline then ['\n'.toUInt8] else []
  | row :: row' :: rs => renderRow row ++ '\n'.toUInt8 :: renderRows finalNewline (row' :: rs)

/-- The field has no newline; when it is left bare, no comma and no carriage return either, and it
does not start with a quote. -/
structure Field.WellFormed (f : Field) : Prop where
  newline : '\n'.toUInt8 ∉ f.text
  quote : ∀ quote ∈ f.quote, isQuote quote = true
  comma : f.quote = none → ','.toUInt8 ∉ f.text
  carriageReturn : f.quote = none → '\r'.toUInt8 ∉ f.text
  head : f.quote = none → ∀ b ∈ f.text.head?, isQuote b = false

/-- A row has fields, and is not a bare empty one. -/
structure RowWellFormed (row : List Field) : Prop where
  ne_nil : row ≠ []
  fields : ∀ f ∈ row, f.WellFormed
  ne_empty : row ≠ [⟨[], none⟩]

/-! ### Fields are read back -/

theorem takeWhile_append_cons (h : b ∉ text) (rest : Bytes) :
    (text ++ b :: rest).takeWhile (· ≠ b) = text := by
  rw [takeWhile_append_of_pos fun _ ha => decide_eq_true (ne_of_mem_of_not_mem ha h),
    takeWhile_cons_of_neg (by simp), append_nil]

theorem dropWhile_append_cons (h : b ∉ text) (rest : Bytes) :
    (text ++ b :: rest).dropWhile (· ≠ b) = b :: rest := by
  rw [dropWhile_append_of_pos fun _ ha => decide_eq_true (ne_of_mem_of_not_mem ha h),
    dropWhile_cons_of_neg (by simp)]

theorem dropWhile_of_notMem (h : b ∉ text) : text.dropWhile (· ≠ b) = [] :=
  dropWhile_eq_nil_iff.mpr fun _ ha => decide_eq_true (ne_of_mem_of_not_mem ha h)

theorem doubleQuotes_of_notMem (h : quote ∉ text) :
    doubleQuotes quote text = text := by
  have hsingle : ∀ b ∈ text, (if b = quote then [b, b] else [b]) = [b] := fun b hb =>
    if_neg (ne_of_mem_of_not_mem hb h)
  rw [doubleQuotes, flatMap_congr hsingle, flatMap_singleton']

theorem doubleQuotes_append_cons (h : quote ∉ text) (rest : Bytes) :
    doubleQuotes quote (text ++ quote :: rest) = text ++ quote :: quote ::
    doubleQuotes quote rest := by
  have htext := doubleQuotes_of_notMem h
  rw [doubleQuotes] at htext ⊢
  rw [flatMap_append, htext, flatMap_cons, if_pos rfl]
  rfl

theorem readEscaped_doubleQuotes {err : ScanError} (htail : tail.head? ≠ some quote)
    (text buf : Bytes) :
    readEscaped err quote buf (doubleQuotes quote text ++ quote :: tail) =
    .ok (buf ++ text, tail) := by
  induction text using line_induction quote generalizing buf with
  | last text htext =>
    rw [doubleQuotes_of_notMem htext, readEscaped]
    split
    · rename_i hnil
      rw [dropWhile_append_cons htext] at hnil
      exact absurd hnil (by simp)
    · rename_i hcons
      rw [dropWhile_append_cons htext] at hcons
      obtain ⟨rfl, rfl⟩ := List.cons.inj hcons
      dsimp only
      rw [if_neg htail, takeWhile_append_cons htext]
  | line text rest htext ih =>
    rw [doubleQuotes_append_cons htext, append_assoc, cons_append, cons_append, readEscaped]
    split
    · rename_i hnil
      rw [dropWhile_append_cons htext] at hnil
      exact absurd hnil (by simp)
    · rename_i hcons
      rw [dropWhile_append_cons htext] at hcons
      obtain ⟨rfl, rfl⟩ := List.cons.inj hcons
      dsimp only
      rw [head?_cons, if_pos rfl, takeWhile_append_cons htext, tail_cons, ih]
      simp only [append_assoc, singleton_append]

/-- **Reading a quoted field undoes the doubling of quotes.** -/
theorem readQuotedField_quoteField (htail : tail.head? ≠ some quote) (text : Bytes) :
    readQuotedField quote (doubleQuotes quote text ++ quote :: tail) = .ok (text, tail) := by
  rw [readQuotedField]
  induction text using line_induction quote with
  | last text htext =>
    rw [doubleQuotes_of_notMem htext, dropWhile_append_cons htext, takeWhile_append_cons htext]
    exact if_pos htail
  | line text rest htext _ =>
    rw [doubleQuotes_append_cons htext, append_assoc, cons_append, cons_append,
      dropWhile_append_cons htext, takeWhile_append_cons htext]
    dsimp only
    rw [head?_cons, if_neg (not_not_intro rfl), tail_cons, readEscaped_doubleQuotes htail,
      append_assoc, singleton_append]

/-- The start of a bare field is no quote, and neither is a comma after an empty one. -/
theorem nextColumn_of_bare (hlast : sc.isLastColumn = false) (herror : sc.error = none)
    (hhead : ∀ b ∈ sc.line.head?, isQuote b = false) : sc.nextColumn = sc.nextBareColumn := by
  rw [Scanner.nextColumn, hlast, herror]
  split_ifs
  · contradiction
  · split
    · rfl
    · rename_i quote body hline
      rw [hline] at hhead
      rw [hhead quote rfl, if_neg Bool.false_ne_true]

theorem nextColumn_of_quoted (hlast : sc.isLastColumn = false) (herror : sc.error = none)
    {body : Bytes}
    (hline : sc.line = quote :: body) (hquote : isQuote quote = true) :
    sc.nextColumn =
      match readQuotedField quote body with
      | .ok (field, []) => (some field, { sc with line := [], isLastColumn := true })
      | .ok (field, b :: tail) =>
        if b = ','.toUInt8 then (some field, { sc with line := tail })
        else (none, { sc with error := some (.missingComma (quote :: body)) })
      | .error err => (none, { sc with error := some err }) := by
  rw [Scanner.nextColumn, hlast, herror]
  split_ifs
  · contradiction
  · rw [hline]
    dsimp only
    rw [if_pos hquote]

/-- A field at the end of a line. -/
theorem nextColumn_last {f : Field} (hf : f.WellFormed) (hlast : sc.isLastColumn = false)
    (herror : sc.error = none) (hline : sc.line = f.render) :
    sc.nextColumn = (some f.text, { sc with line := [], isLastColumn := true }) := by
  cases hquote : f.quote with
  | none =>
    rw [Field.render, hquote] at hline
    rw [nextColumn_of_bare hlast herror (hline ▸ hf.head hquote), Scanner.nextBareColumn, hline,
      dropWhile_of_notMem (hf.comma hquote)]
  | some quote =>
    rw [Field.render, hquote] at hline
    rw [nextColumn_of_quoted hlast herror hline (hf.quote quote hquote),
      readQuotedField_quoteField (by simp) f.text]

/-- A field before a comma. -/
theorem nextColumn_comma {f : Field} (hf : f.WellFormed) (hlast : sc.isLastColumn = false)
    (herror : sc.error = none) {rest : Bytes} (hline : sc.line = f.render ++ ','.toUInt8 :: rest) :
    sc.nextColumn = (some f.text, { sc with line := rest }) := by
  cases hquote : f.quote with
  | none =>
    rw [Field.render, hquote] at hline
    have hhead : ∀ b ∈ sc.line.head?, isQuote b = false := by
      have htext := hf.head hquote
      rw [hline]
      dsimp only
      rw [head?_append]
      cases hfirst : f.text.head? with
      | none =>
        intro b hb
        obtain rfl := Option.some.inj hb
        decide
      | some b => rwa [hfirst] at htext
    rw [nextColumn_of_bare hlast herror hhead, Scanner.nextBareColumn, hline,
      dropWhile_append_cons (hf.comma hquote), takeWhile_append_cons (hf.comma hquote)]
  | some quote =>
    rw [Field.render, hquote, cons_append, append_assoc, singleton_append] at hline
    have hcomma : (','.toUInt8 :: rest).head? ≠ some quote := by
      intro heq
      obtain rfl := Option.some.inj heq
      exact absurd (hf.quote _ hquote) (by decide)
    rw [nextColumn_of_quoted hlast herror hline (hf.quote quote hquote),
      readQuotedField_quoteField hcomma f.text]
    exact if_pos rfl

/-! ### Rows are read back -/

variable {f g : Field} {row : List Field}

theorem renderRow_singleton (f : Field) : renderRow [f] = f.render := append_nil f.render

theorem renderRow_cons (f g : Field) (row : List Field) :
    renderRow (f :: g :: row) = f.render ++ ','.toUInt8 :: renderRow (g :: row) := by
  rw [renderRow, renderRow, map_cons, map_cons, intercalate_cons_cons, append_assoc]
  rfl

/-- There is a comma between two fields. -/
theorem length_le_renderRow (row : List Field) : row.length ≤ (renderRow row).length + 1 := by
  induction row with
  | nil => exact Nat.zero_le _
  | cons f row ih =>
    cases row with
    | nil => exact Nat.succ_le_succ (Nat.zero_le _)
    | cons g row =>
      have hcomma : (','.toUInt8 :: renderRow (g :: row)).length =
          (renderRow (g :: row)).length + 1 := length_cons
      rw [renderRow_cons, length_append, length_cons, hcomma]
      omega

/-- **A rendered row is read back field by field.** -/
theorem columns_renderRow (hne : row ≠ []) (hrow : ∀ f ∈ row, f.WellFormed)
    (hlast : sc.isLastColumn = false)
    (herror : sc.error = none) (hline : sc.line = renderRow row) (hfuel : row.length < fuel) :
    columns fuel sc = some (row.map Field.text, { sc with line := [], isLastColumn := true }) := by
  induction row generalizing sc fuel with
  | nil => exact absurd rfl hne
  | cons f row ih =>
    obtain ⟨hf, hrow⟩ := forall_mem_cons.mp hrow
    obtain ⟨fuel, rfl⟩ : ∃ n, fuel = n + 2 := ⟨fuel - 2, by rw [length_cons] at hfuel; omega⟩
    cases row with
    | nil =>
      rw [renderRow_singleton] at hline
      rw [columns, nextColumn_last hf hlast herror hline]
      rfl
    | cons g row =>
      rw [renderRow_cons] at hline
      have hfuel : (g :: row).length < fuel + 1 := Nat.lt_of_succ_lt_succ (length_cons ▸ hfuel)
      have hlast' : ({ sc with line := renderRow (g :: row) } : Scanner).isLastColumn =
          false := hlast
      have hrest := ih (cons_ne_nil g row) hrow hlast' herror rfl hfuel
      rw [columns, nextColumn_comma hf hlast herror hline]
      dsimp only
      rw [hrest]
      rfl

theorem newline_notMem_render (hf : f.WellFormed) : '\n'.toUInt8 ∉ f.render := by
  rw [Field.render]
  cases hquote : f.quote with
  | none => exact hf.newline
  | some quote =>
    have hne : '\n'.toUInt8 ≠ quote := by
      rintro rfl
      exact absurd (hf.quote _ hquote) (by decide)
    have hdouble : '\n'.toUInt8 ∉ doubleQuotes quote f.text := by
      intro hmem
      obtain ⟨b, hb, hmem⟩ := mem_flatMap.mp hmem
      have hbn : '\n'.toUInt8 = b := by
        split_ifs at hmem
        · simpa using hmem
        · simpa using hmem
      exact hf.newline (hbn ▸ hb)
    simp only [mem_cons, mem_append, not_mem_nil, or_false, not_or]
    exact ⟨hne, hdouble, hne⟩

theorem newline_notMem_renderRow (hrow : ∀ f ∈ row, f.WellFormed) :
    '\n'.toUInt8 ∉ renderRow row := by
  induction row with
  | nil => exact not_mem_nil
  | cons f row ih =>
    obtain ⟨hf, hrow⟩ := forall_mem_cons.mp hrow
    cases row with
    | nil =>
      rw [renderRow_singleton]
      exact newline_notMem_render hf
    | cons g row =>
      rw [renderRow_cons, mem_append, mem_cons, not_or, not_or]
      exact ⟨newline_notMem_render hf, by decide, ih hrow⟩

theorem getLast?_render (hf : f.WellFormed) : f.render.getLast? ≠ some '\r'.toUInt8 := by
  rw [Field.render]
  cases hquote : f.quote with
  | none => exact fun hlast => hf.carriageReturn hquote (mem_of_getLast? hlast)
  | some quote =>
    dsimp only
    rw [← cons_append, getLast?_concat]
    rintro hlast
    obtain rfl := Option.some.inj hlast
    exact absurd (hf.quote _ hquote) (by decide)

/-- A rendered row has no carriage return at its end that would be cut off. -/
theorem trimTrailingCr_renderRow (hrow : ∀ f ∈ row, f.WellFormed) :
    trimTrailingCr (renderRow row) = renderRow row := by
  refine if_neg ?_
  induction row with
  | nil => exact fun h => absurd h (by decide)
  | cons f row ih =>
    obtain ⟨hf, hrow⟩ := forall_mem_cons.mp hrow
    cases row with
    | nil =>
      rw [renderRow_singleton]
      exact getLast?_render hf
    | cons g row =>
      rw [renderRow_cons, getLast?_append_cons, getLast?_cons]
      have hlast := ih hrow
      cases hrest : (renderRow (g :: row)).getLast? with
      | none => decide
      | some b => rwa [hrest] at hlast

theorem renderRow_ne_nil (hrow : RowWellFormed row) : renderRow row ≠ [] := by
  match row, hrow with
  | [], hrow => exact absurd rfl hrow.ne_nil
  | [f], hrow =>
    obtain ⟨text, quote⟩ := f
    rw [renderRow_singleton, Field.render]
    cases quote with
    | none =>
      rintro rfl
      exact hrow.ne_empty rfl
    | some quote => exact cons_ne_nil _ _
  | f :: g :: row, _ =>
    rw [renderRow_cons]
    exact append_ne_nil_of_right_ne_nil _ (cons_ne_nil _ _)

/-- A rendered row is the next line. -/
theorem nextLineLoop_renderRow (hrow : RowWellFormed row) (rest : Bytes) :
    nextLineLoop (renderRow row) = some (renderRow row, []) ∧
      nextLineLoop (renderRow row ++ '\n'.toUInt8 :: rest) = some (renderRow row, rest) := by
  have hne := renderRow_ne_nil hrow
  have hnewline := newline_notMem_renderRow hrow.fields
  have htrim := trimTrailingCr_renderRow hrow.fields
  have htake : (renderRow row).takeWhile (· ≠ '\n'.toUInt8) = renderRow row :=
    takeWhile_eq_self_iff.mpr fun _ ha => decide_eq_true (ne_of_mem_of_not_mem ha hnewline)
  constructor
  · rw [nextLineLoop, dif_neg hne, htake, dropWhile_of_notMem hnewline, htrim]
    exact if_pos hne
  · rw [nextLineLoop, dif_neg (append_ne_nil_of_left_ne_nil hne _), takeWhile_append_cons hnewline,
      dropWhile_append_cons hnewline, htrim]
    exact if_pos hne

theorem nextLineLoop_renderRows (finalNewline : Bool) (hrow : RowWellFormed row)
    (rs : List (List Field)) :
    nextLineLoop (renderRows finalNewline (row :: rs)) = some (renderRow row,
      renderRows finalNewline rs) := by
  cases rs with
  | nil =>
    cases finalNewline with
    | false =>
      have hrender : renderRows false [row] = renderRow row := append_nil _
      rw [hrender]
      exact (nextLineLoop_renderRow hrow []).1
    | true => exact (nextLineLoop_renderRow hrow []).2
  | cons row' rs =>
    rw [renderRows]
    exact (nextLineLoop_renderRow hrow _).2

/-- **Rendered rows are read back row by row.** -/
theorem rows_renderRows (finalNewline : Bool) {rs : List (List Field)}
    (hrs : ∀ row ∈ rs, RowWellFormed row)
    (hrest : sc.rest = renderRows finalNewline rs)
    (hfuel : (renderRows finalNewline rs).length + 2 ≤ fuel) :
    rows fuel sc = some (rs.map fun row => (row.map Field.text, none)) := by
  induction rs generalizing sc fuel with
  | nil =>
    obtain ⟨fuel, rfl⟩ : ∃ n, fuel = n + 1 := ⟨fuel - 1, by omega⟩
    have hnil : nextLineLoop [] = none := by rw [nextLineLoop, dif_pos rfl]
    rw [rows, Scanner.nextLine, hrest, renderRows, hnil]
    rfl
  | cons row rs ih =>
    obtain ⟨hrow, hrs⟩ := forall_mem_cons.mp hrs
    obtain ⟨fuel, rfl⟩ : ∃ n, fuel = n + 1 := ⟨fuel - 1, by omega⟩
    have hnext := nextLineLoop_renderRows finalNewline hrow rs
    have hshorter := length_nextLineLoop hnext
    have hlength := length_le_renderRow row
    have hlast : (⟨renderRow row, renderRows finalNewline rs, false, none⟩ : Scanner).isLastColumn =
        false := rfl
    have hfields : row.length < fuel + 1 := by omega
    have hcolumns := columns_renderRow hrow.ne_nil hrow.fields hlast rfl rfl hfields
    rw [rows, Scanner.nextLine, hrest, hnext]
    dsimp only
    rw [hcolumns]
    dsimp only
    rw [ih hrs rfl (by omega)]
    rfl

/-- **The scanner inverts quoting**: rendered rows are read back without errors, and the loops over
the lines and the columns of any text end. -/
theorem scanner_inverts_quoting (rs : List (List Field)) (hrs : ∀ row ∈ rs, RowWellFormed row) :
    (∀ finalNewline fuel, (renderRows finalNewline rs).length + 2 ≤ fuel →
      rows fuel (.new (renderRows finalNewline rs)) =
      some (rs.map fun row => (row.map Field.text, none))) ∧
    ∀ s fuel, s.length + 2 ≤ fuel → (rows fuel (.new s)).isSome = true :=
  ⟨fun finalNewline _ hfuel => rows_renderRows finalNewline hrs rfl hfuel,
    fun _ _ hfuel => isSome_rows hfuel⟩

theorem scanner_inverts_quoting_two :
    rows 20 (.new (ascii "a,'b''c'\n\"\",")) =
      some [([ascii "a", ascii "b'c"], none), ([[], []], none)] :=
  (scanner_inverts_quoting [[⟨ascii "a", none⟩, ⟨ascii "b'c", some 39⟩],
    [⟨[], some 34⟩, ⟨[], none⟩]] (by
    have hbare : Field.WellFormed ⟨ascii "a", none⟩ := by
      constructor <;> simp [ascii, isQuote] <;> decide
    have hquoted : Field.WellFormed ⟨ascii "b'c", some 39⟩ := by
      constructor <;> simp [ascii, isQuote] <;> decide
    have hempty : Field.WellFormed ⟨[], some 34⟩ := by constructor <;> simp [isQuote]; decide
    have hlast : Field.WellFormed ⟨[], none⟩ := by constructor <;> simp
    simp only [forall_mem_cons]
    refine ⟨⟨by decide, ?_, by decide⟩, ⟨by decide, ?_, by decide⟩, by simp⟩
    · simpa using ⟨hbare, hquoted⟩
    · simpa using ⟨hempty, hlast⟩)).1 false 20 (by decide)

end Esmetrics.Protoparser.Csv
