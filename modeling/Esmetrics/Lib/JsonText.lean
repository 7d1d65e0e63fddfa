import Esmetrics.Lib.KeyedList
import Esmetrics.Lib.Utf8

/-!
# JSON texts

JSON values and the texts that stand for them, without white space, as a relation between a text, a
value and what comes after it. Values are nested at most `n` deep, as far as a parser with a
recursion limit goes; a number is its text, and an object keeps the first place and the last value
of each name. An escape of four hexadecimal digits is one of an ASCII character.

The relation gives a text at most one value: a parser by recursion reads every text of it
(`parseJson_of_isJson`).
-/

namespace Esmetrics

open List

/-- A JSON value. -/
inductive Json where
  | null
  | bool (b : Bool)
  | number (text : Bytes)
  | string (s : Bytes)
  | array (items : List Json)
  | object (members : List (Bytes × Json))

namespace Json

/-- A number is somewhere in a value. -/
inductive HasNumber : Json → Bytes → Prop where
  | number (text : Bytes) : HasNumber (.number text) text
  | array {items : List Json} {item : Json} {text : Bytes} (hitem : item ∈ items)
      (h : HasNumber item text) : HasNumber (.array items) text
  | object {members : List (Bytes × Json)} {member : Bytes × Json} {text : Bytes}
      (hmember : member ∈ members) (h : HasNumber member.2 text) : HasNumber (.object members) text

/-- The map of some members, in the order of their first occurrences. -/
def indexMap (members : List (Bytes × Json)) : List (Bytes × Json) :=
  members.foldl (fun map member => setByKey Prod.fst member map) []

theorem indexMap_of_nodup {members : List (Bytes × Json)} (h : (members.map Prod.fst).Nodup) :
    indexMap members = members :=
  foldl_setByKey_of_nodup h

/-! ### Strings -/

/-- The characters with a short escape. -/
def shortEscape (e : UInt8) : Option UInt8 :=
  if e = quote ∨ e = backslash ∨ e = '/'.toUInt8 then some e
  else if e = 'b'.toUInt8 then some 0x08
  else if e = 'f'.toUInt8 then some 0x0C
  else if e = 'n'.toUInt8 then some 0x0A
  else if e = 'r'.toUInt8 then some 0x0D
  else if e = 't'.toUInt8 then some 0x09
  else none

/-- The ASCII character of four hexadecimal digits. -/
def unicodeEscape (a b c d : UInt8) : Option UInt8 := do
  let n := (((← hexVal a).toNat * 16 + (← hexVal b).toNat) * 16 + (← hexVal c).toNat) * 16 +
    (← hexVal d).toNat
  if n < 0x80 then some n.toUInt8 else none

/-- A text after the opening quote of a string, the string, and what comes after its closing
quote. -/
inductive IsString : Bytes → Bytes → Bytes → Prop where
  | close (rest : Bytes) : IsString (quote :: rest) [] rest
  | raw {c : UInt8} {text s rest : Bytes} (control : 0x20 ≤ c) (not_quote : c ≠ quote)
      (not_backslash : c ≠ backslash) (h : IsString text s rest) :
      IsString (c :: text) (c :: s) rest
  | escape {e c : UInt8} {text s rest : Bytes} (short : shortEscape e = some c)
    (h : IsString text s rest) :
      IsString (backslash :: e :: text) (c :: s) rest
  | unicode {a b c d x : UInt8} {text s rest : Bytes} (digits : unicodeEscape a b c d = some x)
      (h : IsString text s rest) : IsString (backslash :: 'u'.toUInt8 :: a :: b :: c :: d :: text)
      (x :: s) rest

/-! ### Numbers -/

def isDigit (b : UInt8) : Bool := '0'.toUInt8 ≤ b && b ≤ '9'.toUInt8

/-- The bytes of a number without an exponent. -/
def isNumberByte (b : UInt8) : Bool := isDigit b || b = '-'.toUInt8 || b = '.'.toUInt8

/-- A number without an exponent: a sign, an integer without leading zeros, and a fraction. -/
def IsNumber (text : Bytes) : Prop :=
  ∃ sign int frac, text = sign ++ int ++ frac ∧ (sign = [] ∨ sign = ['-'.toUInt8]) ∧
    (int = ['0'.toUInt8] ∨ int ≠ [] ∧ int.head? ≠ some '0'.toUInt8 ∧ ∀ b ∈ int, isDigit b = true) ∧
    (frac = [] ∨ ∃ digits, frac = '.'.toUInt8 :: digits ∧ digits ≠ [] ∧ ∀ b ∈ digits,
      isDigit b = true)

/-! ### Values -/

/-- Items with commas between them, up to a closing bracket. -/
inductive IsItems {α : Type} (item : Bytes → α → Bytes → Prop) (close : UInt8) : Bytes → List α →
    Bytes → Prop where
  | last {text rest : Bytes} {x : α} (h : item text x (close :: rest)) :
    IsItems item close text [x] rest
  | cons {text text' rest : Bytes} {x : α} {xs : List α} (h : item text x (','.toUInt8 :: text'))
      (hs : IsItems item close text' xs rest) : IsItems item close text (x :: xs) rest

inductive IsScalar : Bytes → Json → Bytes → Prop where
  | null (rest : Bytes) : IsScalar ('n'.toUInt8 :: 'u'.toUInt8 :: 'l'.toUInt8 :: 'l'.toUInt8 ::
    rest) .null rest
  | true (rest : Bytes) :
      IsScalar ('t'.toUInt8 :: 'r'.toUInt8 :: 'u'.toUInt8 :: 'e'.toUInt8 :: rest)
      (.bool Bool.true) rest
  | false (rest : Bytes) :
      IsScalar ('f'.toUInt8 :: 'a'.toUInt8 :: 'l'.toUInt8 :: 's'.toUInt8 :: 'e'.toUInt8 :: rest)
        (.bool Bool.false) rest
  | number {text rest : Bytes} (number : IsNumber text)
    (ends : ∀ b ∈ rest.head?, isNumberByte b = Bool.false) :
      IsScalar (text ++ rest) (.number text) rest
  | string {text s rest : Bytes} (h : IsString text s rest) :
    IsScalar (quote :: text) (.string s) rest

/-- A name and a value. -/
inductive IsMember (value : Bytes → Json → Bytes → Prop) : Bytes → Bytes × Json → Bytes → Prop where
  | mk {text text' rest name : Bytes} {v : Json} (hname : IsString text name (':'.toUInt8 :: text'))
      (h : value text' v rest) : IsMember value (quote :: text) (name, v) rest

inductive IsCompound (value : Bytes → Json → Bytes → Prop) : Bytes → Json → Bytes → Prop where
  | emptyArray (rest : Bytes) : IsCompound value ('['.toUInt8 :: ']'.toUInt8 :: rest)
    (.array []) rest
  | array {text rest : Bytes} {items : List Json} (h : IsItems value ']'.toUInt8 text items rest) :
      IsCompound value ('['.toUInt8 :: text) (.array items) rest
  | emptyObject (rest : Bytes) : IsCompound value ('{'.toUInt8 :: '}'.toUInt8 :: rest)
    (.object []) rest
  | object {text rest : Bytes} {members : List (Bytes × Json)}
      (h : IsItems (IsMember value) '}'.toUInt8 text members rest) :
      IsCompound value ('{'.toUInt8 :: text) (.object (indexMap members)) rest

/-- A text that starts with a value, nested at most so deep, and what comes after it. -/
def IsValue : ℕ → Bytes → Json → Bytes → Prop
  | 0 => IsScalar
  | n + 1 => fun text v rest => IsScalar text v rest ∨ IsCompound (IsValue n) text v rest

/-- The text of a value. -/
def IsJson (n : ℕ) (text : Bytes) (v : Json) : Prop := IsValue n text v []

variable {n : ℕ} {rest : Bytes} {v : Json} {close : UInt8}

theorem isValue_of_isScalar {text : Bytes} (h : IsScalar text v rest) :
    IsValue n text v rest := by
  cases n with
  | zero => exact h
  | succ n => exact .inl h

/-- Items that are written with commas between them. -/
theorem isItems_intercalate {α β : Type} {item : Bytes → α → Bytes → Prop} {text : β → Bytes}
    {value : β → α} (x : β) (xs : List β)
    (h : ∀ y ∈ x :: xs, ∀ c rest, c = ','.toUInt8 ∨ c = close →
      item (text y ++ c :: rest) (value y) (c :: rest))
    (rest : Bytes) :
    IsItems item close ([','.toUInt8].intercalate ((x :: xs).map text) ++ close :: rest)
      ((x :: xs).map value) rest := by
  induction xs generalizing x with
  | nil =>
    rw [map_singleton, intercalate_singleton]
    exact .last (h x mem_cons_self _ _ (.inr rfl))
  | cons y ys ih =>
    have hys := ih y fun z hz => h z (mem_cons_of_mem x hz)
    rw [map_cons, map_cons, intercalate_cons_cons, append_assoc, append_assoc,
      singleton_append, ← map_cons]
    exact .cons (h x mem_cons_self _ _ (.inl rfl)) hys

/-! ### A parser -/

def parseString : Bytes → Option (Bytes × Bytes)
  | [] => none
  | c :: text =>
    if c = quote then some ([], text)
    else if c = backslash then
      match text with
      | [] => none
      | e :: text =>
        if e = 'u'.toUInt8 then
          match text with
          | a :: b :: c :: d :: text => do
            let x ← unicodeEscape a b c d
            let (s, rest) ← parseString text
            some (x :: s, rest)
          | _ => none
        else do
          let x ← shortEscape e
          let (s, rest) ← parseString text
          some (x :: s, rest)
    else if c < 0x20 then none
    else do
      let (s, rest) ← parseString text
      some (c :: s, rest)

/-- Items up to the closing bracket, at most so many. -/
def parseItems {α : Type} (item : Bytes → Option (α × Bytes)) (close : UInt8) :
    ℕ → Bytes → Option (List α × Bytes)
  | 0, _ => none
  | k + 1, text => do
    let (x, rest) ← item text
    match rest with
    | [] => none
    | c :: rest =>
      if c = close then some ([x], rest)
      else if c = ','.toUInt8 then do
        let (xs, rest) ← parseItems item close k rest
        some (x :: xs, rest)
      else none

def parseMember (value : Bytes → Option (Json × Bytes)) : Bytes → Option ((Bytes × Json) × Bytes)
  | [] => none
  | _ :: text => do
    let (name, rest) ← parseString text
    let (v, rest) ← value rest.tail
    some ((name, v), rest)

def parseNumber (text : Bytes) : Option (Json × Bytes) :=
  some (.number (text.takeWhile isNumberByte), text.dropWhile isNumberByte)

/-- Reads a value, nested at most so deep. -/
def parseValue : ℕ → Bytes → Option (Json × Bytes)
  | _, [] => none
  | n, b :: text =>
    if b = 'n'.toUInt8 then some (.null, text.drop 3)
    else if b = 't'.toUInt8 then some (.bool true, text.drop 3)
    else if b = 'f'.toUInt8 then some (.bool false, text.drop 4)
    else if b = quote then (parseString text).map fun (s, rest) => (.string s, rest)
    else if b = '['.toUInt8 then
      match n with
      | 0 => none
      | n + 1 =>
        if text.head? = some ']'.toUInt8 then some (.array [], text.tail)
        else (parseItems (parseValue n) ']'.toUInt8 text.length text).map fun (items, rest) =>
          (.array items, rest)
    else if b = '{'.toUInt8 then
      match n with
      | 0 => none
      | n + 1 =>
        if text.head? = some '}'.toUInt8 then some (.object [], text.tail)
        else
          (parseItems (parseMember (parseValue n)) '}'.toUInt8 text.length text).map
            fun (members, rest) =>
            (.object (indexMap members), rest)
    else parseNumber (b :: text)

def parseJson (n : ℕ) (text : Bytes) : Option Json := (parseValue n text).map Prod.fst

/-! ### The parser reads every text -/

theorem parseString_of_isString {text s : Bytes} (h : IsString text s rest) :
    parseString text = some (s, rest) := by
  induction h with
  | close rest => rw [parseString.eq_def]; rfl
  | raw control not_quote not_backslash _ ih =>
    rw [parseString.eq_def]
    dsimp only
    rw [if_neg not_quote, if_neg not_backslash, if_neg (not_lt.mpr control), ih]
    rfl
  | @escape e c text s rest short _ ih =>
    have hu : e ≠ 'u'.toUInt8 := by
      rintro rfl
      have hnone : shortEscape 'u'.toUInt8 = none := by decide
      exact nomatch hnone.symm.trans short
    rw [parseString.eq_def]
    dsimp only
    rw [if_neg (by decide), if_pos rfl, if_neg hu, short, ih]
    rfl
  | unicode digits _ ih =>
    rw [parseString.eq_def]
    dsimp only
    rw [if_neg (by decide), if_pos rfl, if_pos rfl, digits, ih]
    rfl

theorem IsString.length_lt {text s : Bytes} (h : IsString text s rest) :
    rest.length < text.length := by
  induction h with
  | close rest => exact Nat.lt_succ_self _
  | raw _ _ _ _ ih => exact Nat.lt_succ_of_lt ih
  | escape _ _ ih =>
    simp only [length_cons]
    omega
  | unicode _ _ ih =>
    simp only [length_cons]
    omega

theorem IsNumber.bytes {text : Bytes} (h : IsNumber text) :
    text ≠ [] ∧ ∀ b ∈ text, isNumberByte b = true := by
  obtain ⟨sign, int, frac, rfl, hsign, hint, hfrac⟩ := h
  have hdigit : ∀ b, isDigit b = true → isNumberByte b = true := fun b hb => by
    rw [isNumberByte, hb, Bool.true_or, Bool.true_or]
  have hint' : int ≠ [] ∧ ∀ b ∈ int, isNumberByte b = true := by
    obtain rfl | ⟨hne, _, hdigits⟩ := hint
    · exact ⟨by decide, fun b hb => by rw [mem_singleton.mp hb]; decide⟩
    · exact ⟨hne, fun b hb => hdigit b (hdigits b hb)⟩
  refine ⟨by simp [hint'.1], fun b hb => ?_⟩
  obtain hb | hb := mem_append.mp hb
  · obtain hb | hb := mem_append.mp hb
    · obtain rfl | rfl := hsign
      · exact absurd hb not_mem_nil
      · rw [mem_singleton.mp hb]
        decide
    · exact hint'.2 b hb
  · obtain rfl | ⟨digits, rfl, _, hdigits⟩ := hfrac
    · exact absurd hb not_mem_nil
    · obtain rfl | hb := mem_cons.mp hb
      · decide
      · exact hdigit b (hdigits b hb)

theorem IsScalar.length_lt {text : Bytes} (h : IsScalar text v rest) :
    rest.length < text.length := by
  cases h with
  | null | true | false =>
    simp only [length_cons]
    omega
  | number number =>
    have := length_pos_iff.mpr number.bytes.1
    rw [length_append]
    omega
  | string h => exact Nat.lt_succ_of_lt h.length_lt

theorem IsItems.lengths {α : Type} {item : Bytes → α → Bytes → Prop} {text : Bytes} {xs : List α}
    (h : IsItems item close text xs rest) (hitem : ∀ text x rest,
      item text x rest → rest.length < text.length) :
    rest.length < text.length ∧ xs.length ≤ text.length := by
  induction h with
  | last h =>
    have hlt := hitem _ _ _ h
    rw [length_cons] at hlt
    refine ⟨by omega, ?_⟩
    rw [length_singleton]
    omega
  | cons h _ ih =>
    have hlt := hitem _ _ _ h
    rw [length_cons] at hlt
    refine ⟨by omega, ?_⟩
    rw [length_cons]
    omega

theorem IsMember.length_lt {value : Bytes → Json → Bytes → Prop} {text : Bytes}
    {member : Bytes × Json}
    (h : IsMember value text member rest)
    (hvalue : ∀ text v rest, value text v rest → rest.length < text.length) :
    rest.length < text.length := by
  cases h with
  | mk hname h =>
    have hlt := hname.length_lt
    have hlt' := hvalue _ _ _ h
    rw [length_cons] at hlt ⊢
    omega

theorem IsValue.length_lt {text : Bytes} (h : IsValue n text v rest) :
    rest.length < text.length := by
  induction n generalizing text v rest with
  | zero => exact IsScalar.length_lt h
  | succ n ih =>
    obtain h | h := h
    · exact h.length_lt
    · cases h with
      | emptyArray | emptyObject =>
        simp only [length_cons]
        omega
      | array h => exact Nat.lt_succ_of_lt (h.lengths fun _ _ _ => ih).1
      | object h => exact Nat.lt_succ_of_lt (h.lengths fun _ _ _ hm =>
        hm.length_lt fun _ _ _ => ih).1

/-- A closing bracket is not a comma. -/
theorem parseItems_of_isItems {α : Type} {item : Bytes → α → Bytes → Prop}
    {parse : Bytes → Option (α × Bytes)}
    (hclose : close ≠ ','.toUInt8) (hparse : ∀ text x rest, item text x rest →
      parse text = some (x, rest))
    {text : Bytes} {xs : List α} (h : IsItems item close text xs rest) {k : ℕ}
      (hk : xs.length ≤ k) :
    parseItems parse close k text = some (xs, rest) := by
  induction h generalizing k with
  | last h =>
    obtain ⟨k, rfl⟩ := Nat.exists_eq_add_of_le' hk
    rw [length_singleton, parseItems, hparse _ _ _ h]
    exact if_pos rfl
  | cons h _ ih =>
    rw [length_cons] at hk
    obtain ⟨k, rfl⟩ := Nat.exists_eq_add_of_le' (Nat.le_trans (Nat.le_add_left 1 _) hk)
    rw [parseItems, hparse _ _ _ h]
    have hih := ih (k := k) (by omega)
    refine (if_neg (Ne.symm hclose)).trans ((if_pos rfl).trans ?_)
    rw [hih]
    rfl

theorem parseMember_of_isMember {value : Bytes → Json → Bytes → Prop}
    {parse : Bytes → Option (Json × Bytes)}
    (hparse : ∀ text v rest, value text v rest → parse text = some (v, rest)) {text : Bytes}
    {member : Bytes × Json} (h : IsMember value text member rest) :
    parseMember parse text = some (member, rest) := by
  cases h with
  | mk hname h =>
    rw [parseMember, parseString_of_isString hname]
    change (parse _ >>= _) = _
    rw [tail_cons, hparse _ _ _ h]
    rfl

theorem parseNumber_append {text : Bytes} (h : IsNumber text)
    (ends : ∀ b ∈ rest.head?, isNumberByte b = false) :
    parseNumber (text ++ rest) = some (.number text, rest) := by
  have hrest : rest.takeWhile isNumberByte = [] ∧ rest.dropWhile isNumberByte = rest := by
    cases rest with
    | nil => exact ⟨rfl, rfl⟩
    | cons b rest =>
      have hb : ¬ isNumberByte b = true := by simp [ends b rfl]
      exact ⟨takeWhile_cons_of_neg hb, dropWhile_cons_of_neg hb⟩
  rw [parseNumber, takeWhile_append_of_pos h.bytes.2, dropWhile_append_of_pos h.bytes.2,
    hrest.1, hrest.2, append_nil]

theorem parseValue_of_isScalar {text : Bytes} (h : IsScalar text v rest) :
    parseValue n text = some (v, rest) := by
  cases h with
  | null => rw [parseValue.eq_def]; rfl
  | true => rw [parseValue.eq_def]; rfl
  | false => rw [parseValue.eq_def]; rfl
  | string h =>
    rw [parseValue.eq_def]
    dsimp only
    rw [if_neg (by decide), if_neg (by decide), if_neg (by decide), if_pos rfl,
      parseString_of_isString h]
    rfl
  | @number text rest number ends =>
    obtain ⟨hne, hbytes⟩ := number.bytes
    obtain ⟨b, text, rfl⟩ := exists_cons_of_ne_nil hne
    have hb := hbytes b mem_cons_self
    have hother : ∀ c : UInt8, isNumberByte c = Bool.false → b ≠ c := by
      rintro c hc rfl
      exact Bool.false_ne_true (hc.symm.trans hb)
    rw [cons_append, parseValue.eq_def]
    dsimp only
    rw [if_neg (hother _ (by decide)), if_neg (hother _ (by decide)), if_neg (hother _ (by decide)),
      if_neg (hother _ (by decide)), if_neg (hother _ (by decide)), if_neg (hother _ (by decide)),
      ← cons_append]
    exact parseNumber_append number ends

/-- The text of an item does not start with the closing bracket. -/
theorem IsItems.head_ne {α : Type} {item : Bytes → α → Bytes → Prop} {text : Bytes} {xs : List α}
    (h : IsItems item close text xs rest) (hitem : ∀ text x rest,
      item text x rest → text.head? ≠ some close) :
    text.head? ≠ some close := by
  cases h with
  | last h => exact hitem _ _ _ h
  | cons h _ => exact hitem _ _ _ h

theorem IsValue.head_ne {text : Bytes} (h : IsValue n text v rest) :
    text.head? ≠ some ']'.toUInt8 := by
  have hscalar : ∀ {text rest v}, IsScalar text v rest → text.head? ≠ some ']'.toUInt8 := by
    intro text rest v h
    cases h with
    | null | true | false | string => exact fun heq => absurd (Option.some.inj heq) (by decide)
    | number number =>
      obtain ⟨hne, hbytes⟩ := number.bytes
      obtain ⟨b, text, rfl⟩ := exists_cons_of_ne_nil hne
      intro heq
      have hb := hbytes b mem_cons_self
      rw [Option.some.inj heq] at hb
      exact absurd hb (by decide)
  cases n with
  | zero => exact hscalar h
  | succ n =>
    obtain h | h := h
    · exact hscalar h
    · cases h <;> exact fun heq => absurd (Option.some.inj heq) (by decide)

/-- **Every text of a value is read.** -/
theorem parseValue_of_isValue {text : Bytes} (h : IsValue n text v rest) :
    parseValue n text = some (v, rest) := by
  induction n generalizing text v rest with
  | zero => exact parseValue_of_isScalar h
  | succ n ih =>
    obtain h | h := h
    · exact parseValue_of_isScalar h
    · cases h with
      | emptyArray => rw [parseValue.eq_def]; rfl
      | emptyObject => rw [parseValue.eq_def]; rfl
      | @array text _ items h =>
        have hlength := (h.lengths fun _ _ _ => IsValue.length_lt).2
        have hitems : parseItems (parseValue n) ']'.toUInt8 text.length text = some (items, rest) :=
          parseItems_of_isItems (by decide) (fun _ _ _ h => ih h) h hlength
        rw [parseValue.eq_def]
        dsimp only
        rw [if_neg (by decide), if_neg (by decide), if_neg (by decide),
          if_neg (by decide), if_pos rfl, if_neg (h.head_ne fun _ _ _ => IsValue.head_ne), hitems]
        rfl
      | @object text _ members h =>
        have hlength := (h.lengths fun _ _ _ hm => hm.length_lt fun _ _ _ => IsValue.length_lt).2
        have hhead : ∀ text member rest, IsMember (IsValue n) text member rest →
            text.head? ≠ some '}'.toUInt8 := by
          intro text member rest hm
          cases hm with
          | mk => exact fun heq => absurd (Option.some.inj heq) (by decide)
        have hmembers : parseItems (parseMember (parseValue n)) '}'.toUInt8 text.length text =
            some (members, rest) :=
          parseItems_of_isItems (by decide) (fun _ _ _ hm =>
            parseMember_of_isMember (fun _ _ _ h => ih h) hm) h hlength
        rw [parseValue.eq_def]
        dsimp only
        rw [if_neg (by decide), if_neg (by decide), if_neg (by decide), if_neg (by decide),
          if_neg (by decide), if_pos rfl, if_neg (h.head_ne hhead), hmembers]
        rfl

theorem parseJson_of_isJson {text : Bytes} (h : IsJson n text v) :
    parseJson n text = some v := by
  rw [parseJson, parseValue_of_isValue h]
  rfl

end Json

end Esmetrics
