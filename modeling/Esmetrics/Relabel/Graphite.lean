import Esmetrics.Protoparser.FastFloat
import Esmetrics.Relabel.Config

/-!
# Graphite templates

Model of `esm-relabel/src/graphite.rs`: a template with stars is matched against the metric name,
and the parts that the stars stand for are filled into the labels of the rule.
-/

namespace Esmetrics.Relabel

/-! ### The first occurrence of a text -/

/-- The text before and after the first occurrence of a separator. -/
def cutAt (sep : Bytes) : Bytes → Option (Bytes × Bytes)
  | [] => if sep = [] then some ([], []) else none
  | b :: s =>
    if sep <+: b :: s then some ([], (b :: s).drop sep.length)
    else (cutAt sep s).map fun cut => (b :: cut.1, cut.2)

theorem append_of_cutAt {sep s before after : Bytes} (h : cutAt sep s = some (before, after)) :
    s = before ++ sep ++ after := by
  induction s generalizing before with
  | nil =>
    rw [cutAt] at h
    split_ifs at h with hsep
    obtain ⟨rfl, rfl⟩ := Prod.mk.inj (Option.some.inj h)
    rw [hsep]
    rfl
  | cons b s ih =>
    rw [cutAt] at h
    split_ifs at h with hsep
    · obtain ⟨rfl, rfl⟩ := Prod.mk.inj (Option.some.inj h)
      rw [List.nil_append]
      exact (List.prefix_append_drop hsep)
    · obtain ⟨cut, hcut, heq⟩ := Option.map_eq_some_iff.mp h
      obtain ⟨rfl, rfl⟩ := Prod.mk.inj heq
      exact congrArg (b :: ·) (ih hcut)

theorem length_of_cutAt {sep s before after : Bytes} (h : cutAt sep s = some (before, after)) :
    s.length = before.length + sep.length + after.length := by
  rw [append_of_cutAt h, List.length_append, List.length_append]

/-- What follows a second cut is shorter, by the separators too. -/
theorem length_lt_of_cutAt {b : UInt8} {sep sep' s text rest name rest' : Bytes}
    (h : cutAt (b :: sep) s = some (text, rest)) (h' : cutAt sep' rest = some (name, rest')) :
    rest'.length < s.length := by
  have hs := length_of_cutAt h
  have hs' := length_of_cutAt h'
  rw [List.length_cons] at hs
  omega

/-! ### Matching -/

/-- The wildcard of a match template. -/
def star : Bytes := ascii "*"

/-- The literal parts and the stars of a match template. -/
def splitMatchTemplate (pattern : Bytes) : List Bytes :=
  ((pattern.splitOn '*'.toUInt8).intersperse star).filter (· ≠ [])

/-- Matches the parts of a template in order, and collects what the stars stand for. -/
def matchParts : List Bytes → Bytes → List Bytes → Option (List Bytes)
  | [], rest, captures => if rest = [] then some captures else none
  | [part], rest, captures =>
    if part ≠ star then
      if part <+: rest then matchParts [] (rest.drop part.length) captures else none
    else if '.'.toUInt8 ∈ rest then none
    else some (captures ++ [rest])
  | part :: next :: parts, rest, captures =>
    if part ≠ star then
      if part <+: rest then matchParts (next :: parts) (rest.drop part.length) captures else none
    else
      match cutAt next rest with
      | none => none
      | some (captured, rest) =>
        if '.'.toUInt8 ∈ captured then none else matchParts parts rest (captures ++ [captured])

/-- Matches a text against a template; the first capture is the whole text. -/
def matchGraphiteTemplate (pattern s : Bytes) : Option (List Bytes) :=
  let parts := splitMatchTemplate pattern
  if parts.getLast?.any fun last => last ≠ star ∧ ¬ last <:+ s then none
  else matchParts parts s [s]

example : matchGraphiteTemplate (ascii "test.*.*.counter") (ascii "test.foo.bar.counter") =
    some [ascii "test.foo.bar.counter", ascii "foo", ascii "bar"] := by decide +kernel

/-! ### Expansion -/

/-- A piece of a replacement: its text, and the capture it refers to. -/
structure ReplacePart where
  text : Bytes
  idx : Option ℕ

def pushReplacePart (text : Bytes) (idx : Option ℕ) : List ReplacePart :=
  if text = [] then [] else [⟨text, idx⟩]

/-- The pieces of a replacement: references are a dollar sign and a number, with or without
braces. -/
def splitReplaceTemplate (template : Bytes) : List ReplacePart :=
  match h : cutAt (ascii "$") template with
  | none => pushReplacePart template none
  | some (text, rest) =>
    have hrest : rest.length < template.length := by
      rw [length_of_cutAt h, show (ascii "$").length = 1 by decide]
      omega
    pushReplacePart text none ++
      if rest.head? = some 123 then
        match h' : cutAt [125] rest.tail with
        | none => [⟨ascii "$" ++ rest, none⟩]
        | some (idx, rest') =>
          have hrest' : rest'.length ≤ rest.length := by
            have htail := length_of_cutAt h'
            rw [List.length_tail] at htail
            omega
          ⟨ascii "$" ++ 123 :: idx ++ [125], Protoparser.strParseU64 idx⟩ ::
            splitReplaceTemplate rest'
      else
        let idx := rest.takeWhile isAsciiDigit
        have hrest' : (rest.dropWhile isAsciiDigit).length ≤ rest.length :=
          (List.dropWhile_suffix _).length_le
        ⟨ascii "$" ++ idx, Protoparser.strParseU64 idx⟩ ::
          splitReplaceTemplate (rest.dropWhile isAsciiDigit)
termination_by template.length

/-- Fills the captures into a replacement; a reference to none of them stays as it is. -/
def expandGraphiteTemplate (template : Bytes) (captures : List Bytes) : Bytes :=
  (splitReplaceTemplate template).flatMap fun part =>
    ((part.idx.bind fun idx => captures[idx]?).getD part.text)

/-- The action `graphite`. -/
def applyGraphite (cfg : RelabelConfig) (labels : List Label) : List Label :=
  match cfg.graphiteMatch with
  | none => labels
  | some matchTemplate =>
    match matchGraphiteTemplate matchTemplate (getLabelValue labels (ascii "__name__")) with
    | none => labels
    | some captures =>
      cfg.graphiteLabels.toList.foldl
        (fun labels kv => setLabel labels kv.1 (expandGraphiteTemplate kv.2 captures)) labels

end Esmetrics.Relabel
