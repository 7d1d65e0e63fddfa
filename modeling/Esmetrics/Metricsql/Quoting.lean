import Mathlib.Data.Nat.Digits.Lemmas
import Esmetrics.Lib.Outcome

/-!
# Quoted strings and escaped identifiers

Model of `quote_string` and `go_unquote` of `esm-metricsql/src/strutil.rs`, and of
`append_escaped_ident`, `scan_ident` and `unescape_ident` of `lexer.rs`. A string is the list of its
characters, and a position in it counts characters. The table of `char::is_alphabetic` is a
parameter, of which its ASCII part is used.

A quoted string is read back for every string (`goUnquote_quoteString`). An identifier is read back
if and only if it has no character above `U+FFFF` to be hex-encoded, of which only the lower 16 bits
are written (`unescapeIdent_appendEscapedIdent_iff`).
-/

namespace Esmetrics.Metricsql

open List

/-! ### Classes of characters -/

def inRanges (ranges : List (ℕ × ℕ)) (c : Char) : Bool := ranges.any fun r =>
  r.1 ≤ c.toNat && c.toNat ≤ r.2

/-- The method `char::is_control`, the characters of class `Cc`. -/
def isControl (c : Char) : Bool := inRanges [(0, 0x1F), (0x7F, 0x9F)] c

/-- The method `char::is_whitespace`, the characters with the property `White_Space`. -/
def isWhitespace (c : Char) : Bool :=
  inRanges [(0x9, 0xD), (0x20, 0x20), (0x85, 0x85), (0xA0, 0xA0), (0x1680, 0x1680),
    (0x2000, 0x200A), (0x2028, 0x2029), (0x202F, 0x202F), (0x205F, 0x205F), (0x3000, 0x3000)] c

def isFormatChar (c : Char) : Bool :=
  inRanges [(0xAD, 0xAD), (0x600, 0x605), (0x61C, 0x61C), (0x6DD, 0x6DD), (0x70F, 0x70F),
    (0x890, 0x891),
    (0x8E2, 0x8E2), (0x180E, 0x180E), (0x200B, 0x200F), (0x202A, 0x202E), (0x2060, 0x2064),
    (0x2066, 0x206F),
    (0xFEFF, 0xFEFF), (0xFFF9, 0xFFFB), (0x110BD, 0x110BD), (0x110CD, 0x110CD), (0x13430, 0x1343F),
    (0x1BCA0, 0x1BCA3), (0x1D173, 0x1D17A), (0xE0001, 0xE0001), (0xE0020, 0xE007F)] c

def isPrint (c : Char) : Bool :=
  if c = ' ' then true
  else if isControl c || isWhitespace c || isFormatChar c then false
  else !inRanges [(0xE000, 0xF8FF), (0xF0000, 0x10FFFD)] c

/-! ### Hexadecimal digits -/

/-- The function `char::from_u32`. -/
def charFromU32 (v : ℕ) : Option Char := if v.isValidChar then some (Char.ofNat v) else none

/-- The method `char::to_digit` for the radix 16. -/
def toDigit16 (c : Char) : Option ℕ :=
  if '0' ≤ c ∧ c ≤ '9' then some (c.toNat - 48)
  else if 'a' ≤ c ∧ c ≤ 'f' then some (c.toNat - 87)
  else if 'A' ≤ c ∧ c ≤ 'F' then some (c.toNat - 55)
  else none

/-- What `{v:0widthx}` writes. -/
def formatHex (width v : ℕ) : List Char := List.leftpad width '0' (Nat.toDigits 16 v)

/-- The number that hexadecimal digits stand for. -/
def hexValue (s : List Char) : Option ℕ :=
  s.foldlM (fun v d => (toDigit16 d).map fun h => v * 16 + h) 0

/-- The number of the first `n` digits, and the rest. -/
def readHex (n : ℕ) (s : List Char) : Option (ℕ × List Char) :=
  if s.length < n then none else (hexValue (s.take n)).map fun v => (v, s.drop n)

/-! ### Quoted strings -/

/-- The characters that are escaped by a letter. -/
def letterEscapes : List (Char × Char) :=
  [('\x07', 'a'), ('\x08', 'b'), ('\x0c', 'f'), ('\n', 'n'), ('\r', 'r'), ('\t', 't'),
    ('\x0b', 'v')]

/-- A character that is hex-encoded. -/
def hexEscape (v : ℕ) : List Char :=
  if v < 0x80 then 'x' :: formatHex 2 v
  else if v < 0x10000 then 'u' :: formatHex 4 v
  else 'U' :: formatHex 8 v

/-- A character of a quoted string. -/
def quoteChar (c : Char) : List Char :=
  if c = '"' ∨ c = '\\' then ['\\', c]
  else if isPrint c then [c]
  else
    match letterEscapes.find? (·.1 = c) with
    | some p => ['\\', p.2]
    | none => '\\' :: hexEscape c.toNat

def appendQuotedString (dst s : List Char) : List Char :=
  s.foldl (fun dst c => dst ++ quoteChar c) (dst ++ ['"']) ++ ['"']

def quoteString (s : List Char) : List Char := appendQuotedString [] s

def readHexEscape (n : ℕ) (s : List Char) : Option (Char × List Char) := do
  let (v, s) ← readHex n s
  let c ← charFromU32 v
  return (c, s)

def isOctal (c : Char) : Bool := '0' ≤ c && c ≤ '7'

/-- A sequence of hexadecimal or octal digits, behind its first character. -/
def unquoteDigits (e : Char) (s : List Char) : Option (Char × List Char) :=
  if e = 'x' then readHexEscape 2 s
  else if e = 'u' then readHexEscape 4 s
  else if e = 'U' then readHexEscape 8 s
  else if isOctal e then
    match s with
    | d :: d' :: s =>
      let v := ((e.toNat - 48) * 8 + (d.toNat - 48)) * 8 + (d'.toNat - 48)
      if isOctal d ∧ isOctal d' ∧ v ≤ 255 then (charFromU32 v).map fun c => (c, s) else none
    | _ => none
  else none

/-- An escape sequence of a quoted string, behind its backslash. -/
def unquoteEscape : List Char → Option (Char × List Char)
  | [] => none
  | e :: s =>
    match (letterEscapes ++ [('\\', '\\'), ('"', '"')]).find? (·.2 = e) with
    | some p => some (p.1, s)
    | none => unquoteDigits e s

/-- Unquotes the contents of a string in double quotes. -/
def unquoteDouble : ℕ → List Char → Option (List Char)
  | _, [] => some []
  | 0, _ :: _ => none
  | n + 1, c :: s =>
    if c = '\n' ∨ c = '"' then none
    else if c = '\\' then (unquoteEscape s).bind fun p => (unquoteDouble n p.2).map (p.1 :: ·)
    else (unquoteDouble n s).map (c :: ·)

/-- The error quotes the token. -/
inductive UnquoteError
  | invalidSyntax (token : List Char)
deriving DecidableEq

/-- Unquotes a string in double quotes or in backquotes. -/
def goUnquote (token : List Char) : Except UnquoteError (List Char) :=
  if token.length < 2 then .error (.invalidSyntax token)
  else if token.getLast? ≠ token.head? then .error (.invalidSyntax token)
  else
    let inner := token.tail.dropLast
    if token.head? = some '`' then
      if '`' ∈ inner then .error (.invalidSyntax token) else .ok (inner.filter (· ≠ '\r'))
    else if token.head? = some '"' then
      match unquoteDouble inner.length inner with
      | some s => .ok s
      | none => .error (.invalidSyntax token)
    else .error (.invalidSyntax token)

example : goUnquote (quoteString ['a', '"', '\n', '\x01']) = .ok ['a', '"', '\n', '\x01'] := by
  decide

/-! ### Reading digits -/

theorem charFromU32_toNat (c : Char) : charFromU32 c.toNat = some c := by
  have hvalid : c.toNat.isValidChar := c.valid
  rw [charFromU32, if_pos hvalid, Char.ofNat_toNat]

theorem toNat_of_charFromU32 {v : ℕ} {c : Char} (h : charFromU32 v = some c) : c.toNat = v := by
  rw [charFromU32] at h
  split_ifs at h with hv
  rw [← Option.some.inj h, Char.ofNat, dif_pos hv]
  rfl

theorem toDigit16_digitChar {d : ℕ} (h : d < 16) : toDigit16 d.digitChar = some d := by
  revert d
  decide

theorem hexValue_concat (s : List Char) (c : Char) :
    hexValue (s ++ [c]) = (hexValue s).bind fun v => (toDigit16 c).map fun h => v * 16 + h := by
  rw [hexValue, foldlM_append]
  simp [hexValue]

theorem hexValue_toDigits (v : ℕ) : hexValue (Nat.toDigits 16 v) = some v := by
  induction v using Nat.strongRecOn with
  | ind v ih =>
    by_cases hv : v < 16
    · have hdigit := toDigit16_digitChar hv
      rw [Nat.toDigits_of_lt_base hv]
      simp [hexValue, hdigit]
    · rw [Nat.toDigits_of_base_le (by decide) (by omega), hexValue_concat, ih (v / 16) (by omega),
        toDigit16_digitChar (Nat.mod_lt v (by decide))]
      exact congrArg some (Nat.div_add_mod' v 16)

theorem length_formatHex {width v : ℕ} (hwidth : 0 < width) (h : v < 16 ^ width) :
    (formatHex width v).length = width := by
  have := (Nat.length_toDigits_le_iff (b := 16) (by decide) hwidth).mpr h
  rw [formatHex, length_leftpad]
  omega

/-- Formatted digits are read back. -/
theorem readHex_formatHex {width v : ℕ} (hwidth : 0 < width) (h : v < 16 ^ width)
    (rest : List Char) : readHex width (formatHex width v ++ rest) = some (v, rest) := by
  have hlen := length_formatHex hwidth h
  have hzeros (k : ℕ) : hexValue (List.replicate k '0') = some 0 := by
    induction k with
    | zero => rfl
    | succ k ih =>
      rw [replicate_succ', hexValue_concat, ih]
      rfl
  have hvalue : hexValue (formatHex width v) = some v := by
    rw [formatHex, List.leftpad, hexValue, foldlM_append]
    exact (congrArg (Option.bind · _) (hzeros _)).trans (hexValue_toDigits v)
  rw [readHex, if_neg (by simp [hlen]), take_left' hlen, drop_left' hlen, hvalue]
  rfl

theorem readHexEscape_formatHex {width : ℕ} {c : Char} (hwidth : 0 < width)
    (h : c.toNat < 16 ^ width)
    (rest : List Char) : readHexEscape width (formatHex width c.toNat ++ rest) =
    some (c, rest) := by
  rw [readHexEscape, readHex_formatHex hwidth h]
  dsimp only [Option.bind_eq_bind, Option.bind_some]
  rw [charFromU32_toNat]
  rfl

theorem toNat_lt (c : Char) : c.toNat < 0x110000 := by
  have hvalid : c.toNat.isValidChar := c.valid
  rw [Nat.isValidChar] at hvalid
  omega

/-! ### Quoted strings are read back -/

/-- A printable character is no line break. -/
theorem ne_of_isPrint {c : Char} (h : isPrint c = true) : c ≠ '\n' := by
  rintro rfl
  exact absurd h (by decide)

theorem unquoteEscape_of_mem {p : Char × Char} (h : p ∈ letterEscapes ++ [('\\', '\\'), ('"', '"')])
    (s : List Char) : unquoteEscape (p.2 :: s) = some (p.1, s) := by
  have hfind : ∀ p ∈ letterEscapes ++ [('\\', '\\'), ('"', '"')],
      (letterEscapes ++ [('\\', '\\'), ('"', '"')]).find? (·.2 = p.2) = some p := by decide
  rw [unquoteEscape, hfind p h]

/-- A character that is hex-encoded is read back. -/
theorem unquoteEscape_hexEscape (c : Char) (rest : List Char) :
    unquoteEscape (hexEscape c.toNat ++ rest) = some (c, rest) := by
  have hlt := toNat_lt c
  rw [hexEscape]
  by_cases hx : c.toNat < 0x80
  · rw [if_pos hx]
    exact readHexEscape_formatHex (by decide) (by omega) rest
  · rw [if_neg hx]
    by_cases hu : c.toNat < 0x10000
    · rw [if_pos hu]
      exact readHexEscape_formatHex (by decide) hu rest
    · rw [if_neg hu]
      exact readHexEscape_formatHex (by decide) (by omega) rest

/-- A character of a quoted string stands for itself or is behind a backslash. -/
theorem quoteChar_cases (c : Char) :
    quoteChar c = [c] ∧ c ≠ '\n' ∧ c ≠ '"' ∧ c ≠ '\\' ∨
      ∃ s, quoteChar c = '\\' :: s ∧ ∀ rest, unquoteEscape (s ++ rest) = some (c, rest) := by
  rw [quoteChar]
  by_cases hquote : c = '"' ∨ c = '\\'
  · refine .inr ⟨[c], if_pos hquote, fun rest => @unquoteEscape_of_mem (c, c) ?_ rest⟩
    obtain rfl | rfl := hquote <;> decide
  · obtain ⟨hne, hne'⟩ := not_or.mp hquote
    rw [if_neg hquote]
    by_cases hprint : isPrint c = true
    · exact .inl ⟨if_pos hprint, ne_of_isPrint hprint, hne, hne'⟩
    · rw [if_neg hprint]
      cases hfind : letterEscapes.find? (·.1 = c) with
      | some p =>
        have hp := find?_some hfind
        refine .inr ⟨[p.2], rfl, fun rest => ?_⟩
        rw [← of_decide_eq_true hp]
        exact unquoteEscape_of_mem (mem_append_left _ (mem_of_find?_eq_some hfind)) rest
      | none => exact .inr ⟨_, rfl, unquoteEscape_hexEscape c⟩

/-- Reading a character of a quoted string. -/
theorem unquoteDouble_quoteChar (n : ℕ) (c : Char) (rest : List Char) :
    unquoteDouble (n + 1) (quoteChar c ++ rest) = (unquoteDouble n rest).map (c :: ·) := by
  obtain ⟨hquote, hn, hne, hne'⟩ | ⟨s, hquote, hread⟩ := quoteChar_cases c
  · rw [hquote, singleton_append, unquoteDouble, if_neg (not_or.mpr ⟨hn, hne⟩), if_neg hne']
  · rw [hquote, cons_append, unquoteDouble, if_neg (by decide), if_pos rfl, hread]
    rfl

theorem unquoteDouble_flatMap_quoteChar {s : List Char} {n : ℕ} (hn : s.length ≤ n) :
    unquoteDouble n (s.flatMap quoteChar) = some s := by
  induction s generalizing n with
  | nil => cases n <;> rfl
  | cons c s ih =>
    obtain ⟨n, rfl⟩ : ∃ n', n = n' + 1 := ⟨n - 1, by rw [length_cons] at hn; omega⟩
    rw [flatMap_cons, unquoteDouble_quoteChar, ih (Nat.le_of_succ_le_succ hn)]
    rfl

theorem quoteString_eq (s : List Char) : quoteString s = '"' :: (s.flatMap quoteChar ++ ['"']) := by
  rw [quoteString, appendQuotedString, foldl_append_eq_append, ← flatMap_def]
  rfl

/-- **A quoted string is read back.** -/
theorem goUnquote_quoteString (s : List Char) : goUnquote (quoteString s) = .ok s := by
  have hlen : s.length ≤ (s.flatMap quoteChar).length := by
    induction s with
    | nil => exact le_rfl
    | cons c s ih =>
      have hpos : 0 < (quoteChar c).length := by
        obtain ⟨hquote, -⟩ | ⟨s, hquote, -⟩ :=
          quoteChar_cases c <;> rw [hquote] <;> exact Nat.succ_pos _
      rw [flatMap_cons, length_append, length_cons]
      omega
  have hlast : ('"' :: (s.flatMap quoteChar ++ ['"'])).getLast? = some '"' :=
    getLast?_concat (l := '"' :: _)
  rw [quoteString_eq, goUnquote, if_neg (by simp), hlast, head?_cons, if_neg (not_not.mpr rfl),
    tail_cons, dropLast_concat, if_neg (by decide), if_pos rfl,
    unquoteDouble_flatMap_quoteChar hlen]

/-! ### Escaped identifiers -/

variable (isAlphabetic : Char → Bool)

/-- The alphabetic characters of ASCII are its letters. -/
def AsciiAlphabetic : Prop := ∀ c : Char, c.toNat < 128 → isAlphabetic c = c.isAlpha

def isFirstIdentChar (r : Char) : Bool := isAlphabetic r || r == '_' || r == ':'

def isIdentChar (r : Char) : Bool := isFirstIdentChar isAlphabetic r || r.isDigit || r == '.'

/-- Only the lower 16 bits are encoded, like in the original. -/
def appendEscapeSequence (dst : List Char) (r : Char) : List Char :=
  let dst := dst ++ ['\\']
  if isPrint r then dst ++ [r]
  else if r.toNat < 256 then dst ++ 'x' :: formatHex 2 r.toNat
  else dst ++ 'u' :: formatHex 4 (r.toNat &&& 0xFFFF)

/-- Whether a character is written as it is. -/
def isPlain (first : Bool) (r : Char) : Bool :=
  if first then isFirstIdentChar isAlphabetic r else isIdentChar isAlphabetic r

/-- The loop of `append_escaped_ident`. -/
def appendEscapedLoop : Bool → List Char → List Char → List Char
  | _, dst, [] => dst
  | first, dst, r :: s =>
    appendEscapedLoop false (if isPlain isAlphabetic first r then dst ++ [r]
      else appendEscapeSequence dst r) s

def appendEscapedIdent (dst s : List Char) : List Char := appendEscapedLoop isAlphabetic true dst s

/-- Decodes the escape sequence behind a backslash; returns its length, too. -/
def decodeEscapeSequence : List Char → Option (Char × ℕ)
  | [] => none
  | c :: s =>
    if c = 'x' ∨ c = 'X' then (readHexEscape 2 s).map fun p => (p.1, 3)
    else if c = 'u' ∨ c = 'U' then (readHexEscape 4 s).map fun p => (p.1, 5)
    else if isPrint c then some (c, 1)
    else none

/-- The loop of `scan_ident`. -/
def scanIdentLoop : ℕ → ℕ → List Char → ℕ
  | 0, i, _ => i
  | _ + 1, i, [] => i
  | n + 1, i, r :: s =>
    if isPlain isAlphabetic (i == 0) r then scanIdentLoop n (i + 1) s
    else if r ≠ '\\' then i
    else
      match decodeEscapeSequence s with
      | none => i
      | some (_, size) => scanIdentLoop n (i + 1 + size) (s.drop size)

def scanIdent (s : List Char) : Outcome (List Char) :=
  let i := scanIdentLoop isAlphabetic s.length 0 s
  if i = 0 then
    .panic ("BUG: scanIdent couldn't find a single ident char; " ++
      "make sure is_ident_prefix is called before scan_ident")
  else .ok (s.take i)

/-- The loop of `unescape_ident`. -/
def unescapeIdentLoop : ℕ → List Char → List Char
  | 0, s => s
  | n + 1, s =>
    match s.span (· ≠ '\\') with
    | (before, []) => before
    | (before, _ :: s) =>
      match decodeEscapeSequence s with
      | none => before ++ '\\' :: unescapeIdentLoop n s
      | some (r, size) => before ++ r :: unescapeIdentLoop n (s.drop size)

def unescapeIdent (s : List Char) : List Char := unescapeIdentLoop (s.length + 1) s

example : unescapeIdent (appendEscapedIdent Char.isAlpha [] ['1', '-', 'a', '\x07']) =
    ['1', '-', 'a', '\x07'] := by
  decide

/-! ### Escaped identifiers are read back -/

/-- A character that is written as it is, or whose escape sequence encodes it whole. -/
def Encodable (r : Char) : Prop := isFirstIdentChar isAlphabetic r ∨ isPrint r ∨ r.toNat < 0x10000

instance (r : Char) : Decidable (Encodable isAlphabetic r) := inferInstanceAs (Decidable (_ ∨ _))

/-- An escape sequence, behind its backslash. -/
def escapeBody (r : Char) : List Char :=
  if isPrint r then [r]
  else if r.toNat < 256 then 'x' :: formatHex 2 r.toNat
  else 'u' :: formatHex 4 (r.toNat &&& 0xFFFF)

/-- An identifier with its escape sequences. -/
def escapedIdent : Bool → List Char → List Char
  | _, [] => []
  | first, r :: s => (if isPlain isAlphabetic first r then [r] else '\\' :: escapeBody r) ++
    escapedIdent false s

theorem appendEscapedIdent_eq (dst s : List Char) :
    appendEscapedIdent isAlphabetic dst s = dst ++ escapedIdent isAlphabetic true s := by
  have hloop (first : Bool) (dst s : List Char) :
      appendEscapedLoop isAlphabetic first dst s = dst ++ escapedIdent isAlphabetic first s := by
    induction s generalizing first dst with
    | nil => exact (append_nil dst).symm
    | cons r s ih =>
      have hsequence : appendEscapeSequence dst r = dst ++ '\\' :: escapeBody r := by
        rw [appendEscapeSequence, escapeBody]
        split_ifs <;> simp
      rw [appendEscapedLoop, ih, escapedIdent, hsequence, ← append_assoc]
      split_ifs <;> rfl
  exact hloop true dst s

variable {isAlphabetic} (hascii : AsciiAlphabetic isAlphabetic) {first : Bool} {r : Char}
include hascii

theorem isPlain_of_isAlpha (h : r.isAlpha = true) (hr : r.toNat < 128) :
    isPlain isAlphabetic first r = true := by
  cases first <;> simp [isPlain, isIdentChar, isFirstIdentChar, hascii r hr, h]

theorem isPlain_backslash : isPlain isAlphabetic first '\\' = false := by
  have h : isAlphabetic '\\' = false := hascii '\\' (by decide)
  cases first <;> simp [isPlain, isIdentChar, isFirstIdentChar, h]

omit hascii in
/-- A character that is written as it is can be encoded. -/
theorem encodable_of_isPlain (h : isPlain isAlphabetic first r = true) :
    Encodable isAlphabetic r := by
  cases first with
  | true => exact .inl h
  | false =>
    obtain h | h := Bool.or_eq_true_iff.mp (show isIdentChar isAlphabetic r = true from h)
    · obtain h | h := Bool.or_eq_true_iff.mp h
      · exact .inl h
      · have hdigit : r.toNat ≤ 57 := (Char.isDigit_iff_toNat.mp h).2
        exact .inr (.inr (by omega))
    · obtain rfl := eq_of_beq h
      exact .inr (.inr (by decide))

/-- The escape sequence of a character that it encodes whole. -/
theorem decodeEscapeSequence_escapeBody (hplain : isPlain isAlphabetic first r = false)
    (h : Encodable isAlphabetic r) (rest : List Char) :
    decodeEscapeSequence (escapeBody r ++ rest) = some (r, (escapeBody r).length) := by
  have hletter (c : Char) (hc : c.isAlpha = true) (hlt : c.toNat < 128) : r ≠ c := by
    rintro rfl
    rw [isPlain_of_isAlpha hascii hc hlt] at hplain
    exact absurd hplain (by decide)
  rw [escapeBody]
  by_cases hprint : isPrint r = true
  · rw [if_pos hprint, singleton_append, decodeEscapeSequence,
      if_neg (not_or.mpr ⟨hletter 'x' rfl (by decide), hletter 'X' rfl (by decide)⟩),
      if_neg (not_or.mpr ⟨hletter 'u' rfl (by decide), hletter 'U' rfl (by decide)⟩), if_pos hprint]
    rfl
  · rw [if_neg hprint]
    by_cases hx : r.toNat < 256
    · rw [if_pos hx, cons_append, decodeEscapeSequence, if_pos (.inl rfl),
        readHexEscape_formatHex (by decide) hx, length_cons, length_formatHex (by decide) hx]
      rfl
    · have hlt : r.toNat < 0x10000 := by
        obtain h | h | h := h
        · cases first <;> simp [isPlain, isIdentChar, h] at hplain
        · exact absurd h hprint
        · exact h
      have hmask : r.toNat &&& 0xFFFF = r.toNat :=
        (Nat.and_two_pow_sub_one_eq_mod _ 16).trans (Nat.mod_eq_of_lt hlt)
      rw [if_neg hx, hmask, cons_append, decodeEscapeSequence, if_neg (by decide),
        if_pos (.inl rfl),
        readHexEscape_formatHex (by decide) hlt, length_cons, length_formatHex (by decide) hlt]
      rfl

omit hascii in
/-- The escape sequence of another character is that of no character, or of one with 16 bits. -/
theorem toNat_of_decodeEscapeSequence (h : ¬ Encodable isAlphabetic r) {rest : List Char}
    {r' : Char} {size : ℕ}
    (hdecode : decodeEscapeSequence (escapeBody r ++ rest) = some (r', size)) :
    r'.toNat < 0x10000 := by
  obtain ⟨-, hprint, hlt⟩ : _ ∧ _ ∧ _ := by rwa [Encodable, not_or, not_or] at h
  have hmask : r.toNat &&& 0xFFFF < 16 ^ 4 := by
    rw [show 0xFFFF = 2 ^ 16 - 1 from rfl, Nat.and_two_pow_sub_one_eq_mod]
    exact Nat.mod_lt _ (by decide)
  rw [escapeBody, if_neg hprint, if_neg (by omega), cons_append, decodeEscapeSequence,
    if_neg (by decide),
    if_pos (.inl rfl), readHexEscape, readHex_formatHex (by decide) hmask] at hdecode
  obtain ⟨⟨c, s⟩, hchar, hsize⟩ := Option.map_eq_some_iff.mp hdecode
  obtain ⟨⟨v, s'⟩, hv, hpair⟩ := Option.bind_eq_some_iff.mp hchar
  obtain ⟨rfl, rfl⟩ := Prod.mk.inj (Option.some.inj hv)
  obtain ⟨c', hc', hpair⟩ := Option.bind_eq_some_iff.mp hpair
  obtain ⟨rfl, -⟩ := Prod.mk.inj (Option.some.inj hpair)
  obtain ⟨rfl, -⟩ := Prod.mk.inj hsize
  exact (toNat_of_charFromU32 hc').trans_lt hmask

/-- The scanner takes an escaped identifier and stops behind it. -/
theorem scanIdentLoop_escapedIdent {s t : List Char} (hs : ∀ r ∈ s, Encodable isAlphabetic r)
    (ht : ∀ c ∈ t.head?, isIdentChar isAlphabetic c = false ∧ c ≠ '\\') {n i : ℕ}
    (hi : s = [] → i ≠ 0)
    (hn : (escapedIdent isAlphabetic (i == 0) s ++ t).length ≤ n) :
    scanIdentLoop isAlphabetic n i (escapedIdent isAlphabetic (i == 0) s ++ t) =
      i + (escapedIdent isAlphabetic (i == 0) s).length := by
  induction s generalizing n i with
  | nil =>
    have hfirst : (i == 0) = false := beq_false_of_ne (hi rfl)
    cases t with
    | nil => cases n <;> rfl
    | cons c t =>
      obtain ⟨hident, hne⟩ := ht c rfl
      obtain ⟨n, rfl⟩ : ∃ n', n = n' + 1 := ⟨n - 1, by simp [escapedIdent] at hn; omega⟩
      have hplain : isPlain isAlphabetic (i == 0) c = false := by rwa [hfirst]
      rw [escapedIdent, nil_append, scanIdentLoop, hplain, if_neg Bool.false_ne_true, if_pos hne]
      rfl
  | cons r s ih =>
    have htail := fun {n i : ℕ} => @ih (fun r' hr' => hs r' (mem_cons_of_mem r hr')) n (i + 1)
      (fun _ => Nat.succ_ne_zero i)
    rw [escapedIdent] at hn ⊢
    cases hplain : isPlain isAlphabetic (i == 0) r with
    | true =>
      rw [hplain, if_pos rfl] at hn
      obtain ⟨n, rfl⟩ : ∃ n', n = n' + 1 := ⟨n - 1, by simp at hn; omega⟩
      rw [if_pos rfl, singleton_append, cons_append, scanIdentLoop, hplain, if_pos rfl]
      rw [length_cons]
      exact (htail (Nat.le_of_succ_le_succ hn)).trans (by simp [Nat.add_assoc, Nat.add_comm])
    | false =>
      rw [hplain, if_neg Bool.false_ne_true] at hn
      obtain ⟨n, rfl⟩ : ∃ n', n = n' + 1 := ⟨n - 1, by simp at hn; omega⟩
      rw [if_neg Bool.false_ne_true, cons_append, cons_append, append_assoc, scanIdentLoop,
        isPlain_backslash hascii, if_neg Bool.false_ne_true, if_neg (not_not.mpr rfl),
        decodeEscapeSequence_escapeBody hascii hplain (hs r mem_cons_self)]
      dsimp only
      rw [drop_left, Nat.add_right_comm]
      refine (htail ?_).trans ?_
      · simp at hn ⊢
        omega
      · simp
        omega

omit hascii in
theorem unescapeIdentLoop_cons {n : ℕ} {c : Char} (hc : c ≠ '\\') (s : List Char) :
    unescapeIdentLoop (n + 1) (c :: s) = c :: unescapeIdentLoop (n + 1) s := by
  rw [unescapeIdentLoop, unescapeIdentLoop, span_eq_takeWhile_dropWhile,
    span_eq_takeWhile_dropWhile,
    takeWhile_cons_of_pos (by simpa using hc), dropWhile_cons_of_pos (by simpa using hc)]
  cases s.dropWhile (· ≠ '\\') with
  | nil => rfl
  | cons _ s =>
    dsimp only
    cases decodeEscapeSequence s <;> rfl

/-- An escaped identifier is unescaped to the identifier if and only if its escape sequences encode
all of it. -/
theorem unescapeIdentLoop_escapedIdent_iff {s : List Char} {n : ℕ}
    (hn : (escapedIdent isAlphabetic first s).length ≤ n) :
    unescapeIdentLoop (n + 1) (escapedIdent isAlphabetic first s) = s ↔ ∀ r ∈ s,
    Encodable isAlphabetic r := by
  induction s generalizing first n with
  | nil => simp [escapedIdent, unescapeIdentLoop]
  | cons r s ih =>
    rw [escapedIdent] at hn ⊢
    rw [forall_mem_cons]
    cases hplain : isPlain isAlphabetic first r with
    | true =>
      have hne : r ≠ '\\' := by
        rintro rfl
        rw [isPlain_backslash hascii] at hplain
        exact absurd hplain (by decide)
      rw [hplain, if_pos rfl, singleton_append, length_cons] at hn
      rw [if_pos rfl, singleton_append, unescapeIdentLoop_cons hne, cons_inj_right, ih (by omega),
        and_iff_right (encodable_of_isPlain hplain)]
    | false =>
      rw [hplain, if_neg Bool.false_ne_true, length_append, length_cons] at hn
      obtain ⟨n, rfl⟩ : ∃ n', n = n' + 1 := ⟨n - 1, by omega⟩
      rw [if_neg Bool.false_ne_true, cons_append, unescapeIdentLoop, span_eq_takeWhile_dropWhile,
        takeWhile_cons_of_neg (by simp), dropWhile_cons_of_neg (by simp)]
      dsimp only
      by_cases hr : Encodable isAlphabetic r
      · rw [decodeEscapeSequence_escapeBody hascii hplain hr]
        dsimp only
        rw [drop_left, nil_append, cons_inj_right, ih (by omega), and_iff_right hr]
      · have hlarge : 0x10000 ≤ r.toNat := not_lt.mp fun h => hr (.inr (.inr h))
        refine iff_of_false (fun heq => ?_) fun h => hr h.1
        -- The first character that is read has 16 bits.
        cases hdecode : decodeEscapeSequence (escapeBody r ++
          escapedIdent isAlphabetic false s) with
        | none =>
          rw [hdecode] at heq
          obtain ⟨rfl, -⟩ := List.cons.inj heq
          exact absurd hlarge (by decide)
        | some p =>
          rw [hdecode] at heq
          obtain ⟨rfl, -⟩ := List.cons.inj heq
          exact absurd (toNat_of_decodeEscapeSequence hr hdecode) (not_lt.mpr hlarge)

theorem unescapeIdent_appendEscapedIdent_iff (s : List Char) :
    unescapeIdent (appendEscapedIdent isAlphabetic [] s) = s ↔ ∀ r ∈ s,
    Encodable isAlphabetic r := by
  rw [appendEscapedIdent_eq, nil_append, unescapeIdent,
    unescapeIdentLoop_escapedIdent_iff hascii le_rfl]

theorem scanIdent_appendEscapedIdent {s t : List Char} (hs : s ≠ [])
    (h : ∀ r ∈ s, Encodable isAlphabetic r)
    (ht : ∀ c ∈ t.head?, isIdentChar isAlphabetic c = false ∧ c ≠ '\\') :
    scanIdent isAlphabetic (appendEscapedIdent isAlphabetic [] s ++ t) =
    .ok (appendEscapedIdent isAlphabetic [] s) := by
  have hscan := scanIdentLoop_escapedIdent hascii h ht (i := 0) (fun hnil => absurd hnil hs) le_rfl
  have hpos : 0 < (escapedIdent isAlphabetic true s).length := by
    obtain ⟨r, s, rfl⟩ := exists_cons_of_ne_nil hs
    rw [escapedIdent]
    split_ifs <;> exact Nat.succ_pos _
  rw [appendEscapedIdent_eq, nil_append, scanIdent]
  rw [show (0 == 0) = true from rfl, Nat.zero_add] at hscan
  rw [hscan, if_neg (by omega), take_left]

omit hascii

/-- **Quoting is inverted by the lexer**: for every string, and for every identifier with no
character above `U+FFFF` to be hex-encoded. -/
theorem quoting_inverted (hascii : AsciiAlphabetic isAlphabetic) :
    (∀ s, goUnquote (quoteString s) = .ok s) ∧
      ∀ s t : List Char, s ≠ [] → (∀ c ∈ t.head?, isIdentChar isAlphabetic c = false ∧ c ≠ '\\') →
        ((scanIdent isAlphabetic (appendEscapedIdent isAlphabetic [] s ++ t) =
              .ok (appendEscapedIdent isAlphabetic [] s) ∧
            unescapeIdent (appendEscapedIdent isAlphabetic [] s) = s) ↔
          ∀ r ∈ s, Encodable isAlphabetic r) := by
  refine ⟨goUnquote_quoteString, fun s t hs ht => ⟨fun h => ?_, fun h => ⟨?_, ?_⟩⟩⟩
  · exact (unescapeIdent_appendEscapedIdent_iff hascii s).mp h.2
  · exact scanIdent_appendEscapedIdent hascii hs h ht
  · exact (unescapeIdent_appendEscapedIdent_iff hascii s).mpr h

theorem quoting_inverted_bell :
    goUnquote (quoteString ['a', '\x07']) = .ok ['a', '\x07'] ∧
      (scanIdent Char.isAlpha (appendEscapedIdent Char.isAlpha [] ['1', '\x07'] ++ ['{']) =
          .ok (appendEscapedIdent Char.isAlpha [] ['1', '\x07']) ∧
        unescapeIdent (appendEscapedIdent Char.isAlpha [] ['1', '\x07']) = ['1', '\x07']) := by
  have h := @quoting_inverted Char.isAlpha fun _ _ => rfl
  refine ⟨h.1 _, (h.2 _ _ (cons_ne_nil _ _) ?_).mpr ?_⟩
  · rintro c ⟨⟩
    decide
  · exact forall_mem_cons.mpr
      ⟨.inr (.inr (by decide)), forall_mem_singleton.mpr (.inr (.inr (by decide)))⟩

/-- The language tag `U+E0001` is written as `\u0001` and read back as another character. -/
theorem unescapeIdent_languageTag :
    scanIdent Char.isAlpha (appendEscapedIdent Char.isAlpha [] [Char.ofNat 0xE0001]) =
        .ok ['\\', 'u', '0', '0', '0', '1'] ∧
      unescapeIdent (appendEscapedIdent Char.isAlpha [] [Char.ofNat 0xE0001]) ≠
        [Char.ofNat 0xE0001] := by
  decide

end Esmetrics.Metricsql
