import Esmetrics.Lib.Utf8

/-!
# Query strings

Model of `esm-http/src/query.rs`: percent decoding of paths and of query components, and the list of
arguments of a query string. Strings are their bytes; a decoded component that is not UTF-8 is
converted with replacement characters.
-/

namespace Esmetrics.Http

open List

/-- The byte of two hexadecimal digits. -/
def hexByte (h l : UInt8) : Option UInt8 :=
  match hexVal h, hexVal l with
  | some hi, some lo => some (hi <<< 4 ||| lo)
  | _, _ => none

/-- Decodes the escapes; one that is not valid stays as it is. -/
def decodeBytes (plusAsSpace : Bool) : Bytes → Bytes
  | [] => []
  | c :: s =>
    if c = '+'.toUInt8 ∧ plusAsSpace then ' '.toUInt8 :: decodeBytes plusAsSpace s
    else if c = '%'.toUInt8 then
      match s with
      | h :: l :: rest =>
        match hexByte h l with
        | some b => b :: decodeBytes plusAsSpace rest
        | none => c :: decodeBytes plusAsSpace (h :: l :: rest)
      | [h] => c :: decodeBytes plusAsSpace [h]
      | [] => [c]
    else c :: decodeBytes plusAsSpace s

/-- Decodes a component; one without anything to decode stays as it is. -/
def decode (s : Bytes) (plusAsSpace : Bool) : Bytes :=
  if s.any fun b => b = '%'.toUInt8 || (plusAsSpace && b = '+'.toUInt8) then
    fromUtf8Lossy (decodeBytes plusAsSpace s)
  else s

def percentDecodePlus (s : Bytes) : Bytes := decode s true

/-- Decodes the escapes of a path, or fails. -/
def decodePathBytes : Bytes → Option Bytes
  | [] => some []
  | c :: s =>
    if c = '%'.toUInt8 then
      match s with
      | h :: l :: rest =>
        match hexByte h l with
        | some b => (decodePathBytes rest).map (b :: ·)
        | none => none
      | _ => none
    else (decodePathBytes s).map (c :: ·)

/-- Decodes a path; it fails on an invalid escape and when the result is not UTF-8. -/
def percentDecodePath (s : Bytes) : Option Bytes :=
  if '%'.toUInt8 ∈ s then (decodePathBytes s).filter isValidUtf8 else some s

/-- The text before and after the first occurrence of a separator. -/
def splitOnce (c : UInt8) (s : Bytes) : Option (Bytes × Bytes) :=
  if c ∈ s then some (s.takeWhile (· ≠ c), (s.dropWhile (· ≠ c)).tail) else none

/-- One argument of a query string; without an equals sign its value is empty. -/
def parseArg (kv : Bytes) : Bytes × Bytes :=
  let arg := (splitOnce '='.toUInt8 kv).getD (kv, [])
  (percentDecodePlus arg.1, percentDecodePlus arg.2)

/-- The decoded arguments of a query string. -/
def parseQuery (query : Bytes) : List (Bytes × Bytes) :=
  ((query.splitOn '&'.toUInt8).filter (· ≠ [])).map parseArg

example : parseQuery (ascii "a=1&&b=hello+world&c=%2Fx&d") =
    [(ascii "a", ascii "1"), (ascii "b", ascii "hello world"), (ascii "c", ascii "/x"),
      (ascii "d", [])] := by decide +kernel

/-! ### Cutting -/

variable {c : UInt8}

theorem splitOnce_append {l : Bytes} (hl : c ∉ l) (r : Bytes) :
    splitOnce c (l ++ c :: r) = some (l, r) := by
  have hne : ∀ b ∈ l, decide (b ≠ c) = true := fun b hb =>
    decide_eq_true fun heq => hl (heq ▸ hb)
  rw [splitOnce, if_pos (mem_append_right _ (mem_cons_self ..)),
    takeWhile_append_of_pos hne, dropWhile_append_of_pos hne]
  simp

theorem splitOnce_eq_none {s : Bytes} (h : c ∉ s) : splitOnce c s = none := if_neg h

theorem append_of_splitOnce {s l r : Bytes} (h : splitOnce c s = some (l, r)) :
    s = l ++ c :: r ∧ c ∉ l := by
  rw [splitOnce] at h
  split_ifs at h with hc
  obtain ⟨l', r', rfl, hl'⟩ := eq_append_cons_of_mem hc
  have hsplit := splitOnce_append hl' r'
  rw [splitOnce, if_pos hc, h] at hsplit
  obtain ⟨rfl, rfl⟩ := Prod.mk.inj (Option.some.inj hsplit)
  exact ⟨rfl, hl'⟩

/-! ### Arguments -/

/-- The arguments are read from ampersand to ampersand. -/
theorem parseQuery_lineByLine : LineByLine '&'.toUInt8 parseQuery where
  nil := rfl
  append s t := by
    rw [parseQuery, parseQuery, parseQuery, splitOn_append_cons_self, filter_append,
      map_append]

theorem parseQuery_of_not_mem {piece : Bytes} (h : '&'.toUInt8 ∉ piece) (hne : piece ≠ []) :
    parseQuery piece = [parseArg piece] := by
  rw [parseQuery, splitOn_eq_singleton h]
  simp [hne]

/-- The character takes no part in an escape. -/
def IsLiteral (c : UInt8) : Prop := hexVal c = none ∧ c ≠ '%'.toUInt8 ∧ c ≠ '+'.toUInt8

theorem decodeBytes_cons (hc : IsLiteral c) (plusAsSpace : Bool) (t : Bytes) :
    decodeBytes plusAsSpace (c :: t) = c :: decodeBytes plusAsSpace t := by
  rw [decodeBytes.eq_def]
  simp [hc.2.1, hc.2.2]

/-- A text is decoded in two parts at such a character. -/
theorem decodeBytes_append_cons (hc : IsLiteral c) (plusAsSpace : Bool) (s t : Bytes) :
    decodeBytes plusAsSpace (s ++ c :: t) =
      decodeBytes plusAsSpace s ++ c :: decodeBytes plusAsSpace t := by
  have hnone : ∀ d, hexByte c d = none ∧ hexByte d c = none := by
    intro d
    rw [hexByte, hexByte, hc.1]
    cases hexVal d <;> exact ⟨rfl, rfl⟩
  induction s using decodeBytes.induct plusAsSpace with
  | case1 => exact decodeBytes_cons hc plusAsSpace t
  | case2 d s hplus ih =>
    rw [cons_append, decodeBytes.eq_def, decodeBytes.eq_def _ (d :: s)]
    simp only [if_pos hplus, ih]
    rfl
  | case3 h l rest b hb hplus ih =>
    rw [cons_append, cons_append, cons_append, decodeBytes.eq_def,
      decodeBytes.eq_def _ ('%'.toUInt8 :: h :: l :: rest)]
    simp only [if_neg hplus, if_true, hb, ih]
    rfl
  | case4 h l rest hb hplus ih =>
    rw [cons_append, cons_append, cons_append, decodeBytes.eq_def,
      decodeBytes.eq_def _ ('%'.toUInt8 :: h :: l :: rest)]
    simp only [if_neg hplus, if_true, hb]
    rw [cons_append, ← ih]
    rfl
  | case5 h hplus ih =>
    rw [cons_append, cons_append, nil_append, decodeBytes.eq_def,
      decodeBytes.eq_def _ ['%'.toUInt8, h]]
    simp only [if_neg hplus, if_true, (hnone h).2]
    rw [cons_append, ← ih]
    rfl
  | case6 hplus =>
    have hcons := decodeBytes_cons hc plusAsSpace t
    rw [cons_append, nil_append, decodeBytes.eq_def, decodeBytes.eq_def _ ['%'.toUInt8]]
    simp only [if_neg hplus, if_true]
    cases t with
    | nil => exact congrArg _ hcons
    | cons d t =>
      simp only [(hnone d).1]
      exact congrArg _ hcons
  | case7 d s hplus hpercent ih =>
    rw [cons_append, decodeBytes.eq_def, decodeBytes.eq_def _ (d :: s)]
    simp only [if_neg hplus, if_neg hpercent, ih]
    rfl

/-- Such a character is still there when a component is decoded. -/
theorem mem_decode (hc : IsLiteral c) (hascii : c < 0x80) (plusAsSpace : Bool) (s t : Bytes) :
    c ∈ decode (s ++ c :: t) plusAsSpace := by
  rw [decode]
  split_ifs
  · rw [decodeBytes_append_cons hc, fromUtf8Lossy_append_cons hascii]
    exact mem_append_right _ (mem_cons_self ..)
  · exact mem_append_right _ (mem_cons_self ..)

/-! ### Texts -/

/-- A decoded component of a text is a text. -/
theorem isValidUtf8_decode {s : Bytes} (h : isValidUtf8 s = true) (plusAsSpace : Bool) :
    isValidUtf8 (decode s plusAsSpace) = true := by
  rw [decode]
  split_ifs
  · exact isValidUtf8_fromUtf8Lossy _
  · exact h

theorem isValidUtf8_parseArg {kv : Bytes} (h : isValidUtf8 kv = true) :
    isValidUtf8 (parseArg kv).1 = true ∧ isValidUtf8 (parseArg kv).2 = true := by
  rw [parseArg]
  cases hsplit : splitOnce '='.toUInt8 kv with
  | none => exact ⟨isValidUtf8_decode h true, isValidUtf8_decode (s := []) rfl true⟩
  | some arg =>
    obtain ⟨heq, -⟩ := append_of_splitOnce (l := arg.1) (r := arg.2) hsplit
    rw [heq, isValidUtf8_append_cons (by decide)] at h
    exact ⟨isValidUtf8_decode h.1 true, isValidUtf8_decode h.2 true⟩

/-- The keys and values of a query string that is a text are texts. -/
theorem isValidUtf8_of_mem_parseQuery {query : Bytes} (h : isValidUtf8 query = true)
    {arg : Bytes × Bytes}
    (harg : arg ∈ parseQuery query) : isValidUtf8 arg.1 = true ∧ isValidUtf8 arg.2 = true := by
  obtain ⟨kv, hkv, rfl⟩ := mem_map.mp harg
  exact isValidUtf8_parseArg (isValidUtf8_of_mem_splitOn (by decide) h (mem_filter.mp hkv).1)

end Esmetrics.Http
