import Esmetrics.Lib.CaptureRefs
import Esmetrics.Relabel.Apply
import Esmetrics.Select.QtFloat

/-!
# Label references in replacements

A replacement of a `replace` rule can refer to labels and to captures, `apply_replace` and
`fill_label_references` of `esm-relabel/src/apply.rs`. The labels are filled in first, and the
regexp expands what comes out, so that a dollar sign in the value of a label is read as one of the
replacement.

The regexp is a parameter. On a text that it matches as a whole it replaces the text by the
expansion of the replacement with the groups of the match (`MatchesWhole`). `writesVerbatim_iff`
says which label values come out as they are, whatever the regexp is.
-/

namespace Esmetrics.Relabel

open List

open CaptureRefs

/-- A piece of a replacement. -/
inductive TemplatePart
  | text (s : Bytes)
  | capture (n : ℕ)
  | label (name : Bytes)

namespace TemplatePart

/-- A piece as it is written. -/
def render : TemplatePart → Bytes
  | text s => s
  | capture n => dollar :: openBrace :: (Protoparser.printInteger n ++ [closeBrace])
  | label name => openBrace :: openBrace :: (name ++ [closeBrace, closeBrace])

/-- Literal text has no dollar signs and no opening braces, and the name of a label ends at the
braces that close it. -/
def WellFormed : TemplatePart → Prop
  | text s => dollar ∉ s ∧ openBrace ∉ s
  | capture _ => True
  | label name => ¬ [closeBrace, closeBrace] <:+: name ++ [closeBrace]

instance (part : TemplatePart) : Decidable part.WellFormed :=
  match part with
  | text _ => inferInstanceAs (Decidable (_ ∧ _))
  | capture _ => .isTrue trivial
  | label _ => inferInstanceAs (Decidable (¬ _))

/-- A piece with the labels filled in. -/
def filled (labels : List Label) : TemplatePart → Bytes
  | text s => s
  | capture n => render (capture n)
  | label name => getLabelValue labels name

/-- What a piece stands for. -/
def value (labels : List Label) (group : Bytes → Bytes) : TemplatePart → Bytes
  | text s => s
  | capture n => group (Protoparser.printInteger n)
  | label name => getLabelValue labels name

end TemplatePart

open TemplatePart

/-- The regexp matches the text as a whole, with these groups. -/
def MatchesWhole (regex : AnchoredRegex) (source : Bytes) (group : Bytes → Bytes) : Prop :=
  regex.isMatch source = true ∧ ∀ template, regex.replaceAll source template = expand group template

/-- Every rule with the replacement sets its target label to the text, the captures and the label
values as they are. -/
def WritesVerbatim (labels : List Label) (parts : List TemplatePart) : Prop :=
  ∀ (cfg : RelabelConfig) (group : Bytes → Bytes), cfg.replacement = parts.flatMap render →
    MatchesWhole cfg.regex (sourceOf cfg labels) group →
    applyReplace cfg labels =
      setLabel labels (expand group cfg.targetLabel) (parts.flatMap (value labels group))

/-- No dollar sign in the value of a label that is referred to starts something with the text that
comes after it. -/
def DollarsInert (labels : List Label) : List TemplatePart → Prop
  | [] => True
  | .label name :: parts =>
    (∀ v w, getLabelValue labels name = v ++ dollar :: w →
      ¬ StartsRef (w ++ parts.flatMap (filled labels))) ∧
      DollarsInert labels parts
  | _ :: parts => DollarsInert labels parts

/-! ### Filling in labels -/

section Fill

variable {labels : List Label}

variable {s text name : Bytes}

theorem fillLabelReferences_of_none (h : cutAt [123, 123] s = none) :
    fillLabelReferences labels s = s := by
  rw [fillLabelReferences]
  split
  · rfl
  · next hcut => cases h.symm.trans hcut

theorem fillLabelReferences_of_open {rest : Bytes} (h : cutAt [123, 123] s = some (text, rest))
    (hclose : cutAt [125, 125] rest = none) : fillLabelReferences labels s =
    text ++ [123, 123] ++ rest := by
  rw [fillLabelReferences]
  split
  · next hcut => cases h.symm.trans hcut
  · next hcut =>
    obtain ⟨rfl, rfl⟩ := Prod.mk.inj (Option.some.inj (hcut.symm.trans h))
    split
    · rfl
    · next hcut' => cases hclose.symm.trans hcut'

theorem fillLabelReferences_of_some {rest rest' : Bytes}
    (h : cutAt [123, 123] s = some (text, rest))
    (hclose : cutAt [125, 125] rest = some (name, rest')) :
    fillLabelReferences labels s = text ++ getLabelValue labels name ++
    fillLabelReferences labels rest' := by
  rw [fillLabelReferences]
  split
  · next hcut => cases h.symm.trans hcut
  · next hcut =>
    obtain ⟨rfl, rfl⟩ := Prod.mk.inj (Option.some.inj (hcut.symm.trans h))
    split
    · next hcut' => cases hclose.symm.trans hcut'
    · next hcut' =>
      obtain ⟨rfl, rfl⟩ := Prod.mk.inj (Option.some.inj (hcut'.symm.trans hclose))
      rfl

/-- A byte that does not start a reference. -/
theorem fillLabelReferences_cons {b : UInt8} (h : ¬ [123, 123] <+: b :: s) :
    fillLabelReferences labels (b :: s) = b :: fillLabelReferences labels s := by
  have hcut : cutAt [123, 123] (b :: s) = (cutAt [123, 123] s).map fun cut =>
      (b :: cut.1, cut.2) := by
    rw [cutAt, if_neg h]
  cases hs : cutAt [123, 123] s with
  | none =>
    rw [hs, Option.map_none] at hcut
    rw [fillLabelReferences_of_none hcut, fillLabelReferences_of_none hs]
  | some cut =>
    obtain ⟨text, rest⟩ := cut
    rw [hs, Option.map_some] at hcut
    cases hclose : cutAt [125, 125] rest with
    | none =>
      rw [fillLabelReferences_of_open hcut hclose, fillLabelReferences_of_open hs hclose]
      rfl
    | some cut' =>
      obtain ⟨name, rest'⟩ := cut'
      rw [fillLabelReferences_of_some hcut hclose, fillLabelReferences_of_some hs hclose]
      rfl

theorem fillLabelReferences_cons_of_ne {b : UInt8} (h : b ≠ openBrace) (s : Bytes) :
    fillLabelReferences labels (b :: s) = b :: fillLabelReferences labels s :=
  fillLabelReferences_cons fun hprefix => h (cons_prefix_cons.mp hprefix).1.symm

theorem fillLabelReferences_append (h : openBrace ∉ text) (s : Bytes) :
    fillLabelReferences labels (text ++ s) = text ++ fillLabelReferences labels s := by
  induction text with
  | nil => rfl
  | cons b text ih =>
    rw [mem_cons, not_or] at h
    rw [cons_append, fillLabelReferences_cons_of_ne (Ne.symm h.1), ih h.2, cons_append]

theorem cutAt_close (h : ¬ [125, 125] <:+: name ++ [125]) (s : Bytes) :
    cutAt [125, 125] (name ++ [125, 125] ++ s) = some (name, s) := by
  induction name with
  | nil => rw [nil_append, cons_append, cutAt, if_pos (by simp)]; rfl
  | cons b name ih =>
    have hprefix : ¬ [125, 125] <+: b :: (name ++ [125, 125] ++ s) := by
      intro hprefix
      obtain ⟨hb, htail⟩ := cons_prefix_cons.mp hprefix
      refine h (IsPrefix.isInfix (cons_prefix_cons.mpr ⟨hb, ?_⟩))
      cases name with
      | nil => exact prefix_refl _
      | cons c name => exact cons_prefix_cons.mpr ⟨(cons_prefix_cons.mp htail).1, nil_prefix⟩
    rw [cons_append, cons_append, cutAt, if_neg hprefix,
      ih fun hoccurs => h (hoccurs.trans (suffix_cons b _).isInfix), Option.map_some]

theorem fillLabelReferences_label (h : (label name).WellFormed) (s : Bytes) :
    fillLabelReferences labels ((label name).render ++ s) =
      getLabelValue labels name ++ fillLabelReferences labels s := by
  have hopen : cutAt [123, 123] ((label name).render ++ s) =
      some ([], name ++ [125, 125] ++ s) := by
    change cutAt [123, 123] (123 :: 123 :: (name ++ [125, 125] ++ s)) = _
    rw [cutAt, if_pos (by simp)]
    rfl
  rw [fillLabelReferences_of_some hopen (cutAt_close h s), nil_append]

/-- A printed number has no braces. -/
theorem isAsciiDigit_of_mem_printInteger {n : ℕ} {b : UInt8} (h : b ∈ Protoparser.printInteger n) :
    isAsciiDigit b = true := by
  rw [Select.printInteger_natCast] at h
  exact (Select.toDigits_digits n).1 b h

theorem fillLabelReferences_capture (n : ℕ) (s : Bytes) :
    fillLabelReferences labels ((capture n).render ++ s) =
    (capture n).render ++ fillLabelReferences labels s := by
  have hbrace : openBrace ∉ Protoparser.printInteger n :=
    fun hmem => absurd (isAsciiDigit_of_mem_printInteger hmem) (by decide)
  have hname : openBrace ∉ Protoparser.printInteger n ++ [closeBrace] := by
    rw [mem_append, mem_singleton]
    exact fun hmem => hmem.elim hbrace (by decide)
  have hone : ¬ [123, 123] <+: openBrace :: (Protoparser.printInteger n ++ [closeBrace] ++ s) := by
    intro hprefix
    have hhead := (cons_prefix_cons.mp hprefix).2
    cases hdigits : Protoparser.printInteger n with
    | nil =>
      rw [Select.printInteger_natCast] at hdigits
      exact absurd hdigits (by simp)
    | cons b digits =>
      rw [hdigits] at hhead hbrace
      exact hbrace ((cons_prefix_cons.mp hhead).1 ▸ mem_cons_self)
  change fillLabelReferences labels (dollar :: openBrace ::
    (Protoparser.printInteger n ++ [closeBrace] ++ s)) = _
  rw [fillLabelReferences_cons_of_ne (by decide), fillLabelReferences_cons hone,
    fillLabelReferences_append hname]
  rfl

theorem fillLabelReferences_render {parts : List TemplatePart}
    (h : ∀ part ∈ parts, part.WellFormed) :
    fillLabelReferences labels (parts.flatMap render) = parts.flatMap (filled labels) := by
  induction parts with
  | nil => exact fillLabelReferences_of_none (by decide)
  | cons part parts ih =>
    obtain ⟨hpart, hparts⟩ := forall_mem_cons.mp h
    rw [flatMap_cons, flatMap_cons, ← ih hparts]
    cases part with
    | text s => exact fillLabelReferences_append hpart.2 _
    | capture n => exact fillLabelReferences_capture n _
    | label name => exact fillLabelReferences_label hpart _

/-- There is nothing to fill in where there are no two braces. -/
theorem fillLabelReferences_of_no_reference (h : ¬ [123, 123] <:+: s) :
    fillLabelReferences labels s = s := by
  induction s with
  | nil => exact fillLabelReferences_of_none (by decide)
  | cons b s ih =>
    rw [fillLabelReferences_cons fun hprefix => h hprefix.isInfix,
      ih fun hoccurs => h (hoccurs.trans (suffix_cons b s).isInfix)]

end Fill

/-! ### Expanding captures -/

/-- A piece with the labels filled in, as the expansion takes it. -/
def refs (labels : List Label) : TemplatePart → List Ref
  | .text s => s.map .byte
  | .capture n => [.group (Protoparser.printInteger n)]
  | .label name => (getLabelValue labels name).map .byte

section Refs

variable {labels : List Label} {parts : List TemplatePart}

theorem flatMap_byte (f : Ref → Bytes) (hf : ∀ b, f (.byte b) = [b]) (s : Bytes) :
    (s.map Ref.byte).flatMap f = s := by
  induction s with
  | nil => rfl
  | cons b s ih => rw [map_cons, flatMap_cons, hf, ih, singleton_append]

theorem flatMap_refs_text (labels : List Label) (parts : List TemplatePart) :
    (parts.flatMap (refs labels)).flatMap Ref.text = parts.flatMap (filled labels) := by
  rw [flatMap_assoc]
  refine congrArg (List.flatMap · parts) (funext fun part => ?_)
  cases part with
  | text s => exact flatMap_byte _ (fun _ => rfl) s
  | capture n => exact append_nil _
  | label name => exact flatMap_byte _ (fun _ => rfl) _

theorem flatMap_refs_value (labels : List Label) (group : Bytes → Bytes)
    (parts : List TemplatePart) :
    (parts.flatMap (refs labels)).flatMap (Ref.value group) =
    parts.flatMap (value labels group) := by
  rw [flatMap_assoc]
  refine congrArg (List.flatMap · parts) (funext fun part => ?_)
  cases part with
  | text s => exact flatMap_byte _ (fun _ => rfl) s
  | capture n => exact append_nil _
  | label name => exact flatMap_byte _ (fun _ => rfl) _

theorem wellFormed_refs : ∀ ref ∈ parts.flatMap (refs labels), ref.WellFormed := by
  intro ref href
  obtain ⟨part, -, href⟩ := mem_flatMap.mp href
  cases part with
  | text s =>
    obtain ⟨b, -, rfl⟩ := mem_map.mp href
    trivial
  | capture n =>
    rw [mem_singleton.mp href]
    exact fun hmem => absurd (isAsciiDigit_of_mem_printInteger hmem) (by decide)
  | label name =>
    obtain ⟨b, -, rfl⟩ := mem_map.mp href
    trivial

theorem inert_append_byte (s : Bytes) (tail : List Ref) :
    Inert (s.map .byte ++ tail) ↔
      (∀ v w, s = v ++ dollar :: w → ¬ StartsRef (w ++ tail.flatMap Ref.text)) ∧ Inert tail := by
  induction s with
  | nil => exact ⟨fun h => ⟨fun v w hs => absurd hs.symm (by simp), h⟩, And.right⟩
  | cons b s ih =>
    have htext : (s.map Ref.byte ++ tail).flatMap Ref.text = s ++ tail.flatMap Ref.text := by
      rw [flatMap_append, flatMap_byte _ fun _ => rfl]
    rw [map_cons, cons_append, Inert, htext, ih, ← and_assoc]
    refine and_congr_left fun _ =>
      ⟨fun ⟨hb, hs⟩ v w heq => ?_, fun h => ⟨fun hb => ?_, fun v w hs => ?_⟩⟩
    · cases v with
      | nil =>
        obtain ⟨rfl, rfl⟩ := List.cons.inj heq
        exact hb rfl
      | cons c v => exact hs v w (List.cons.inj heq).2
    · exact h [] s (by rw [hb, nil_append])
    · exact h (b :: v) w (by rw [hs, cons_append])

theorem inert_refs_iff (h : ∀ part ∈ parts, part.WellFormed) :
    Inert (parts.flatMap (refs labels)) ↔ DollarsInert labels parts := by
  induction parts with
  | nil => exact Iff.rfl
  | cons part parts ih =>
    obtain ⟨hpart, hparts⟩ := forall_mem_cons.mp h
    rw [flatMap_cons]
    cases part with
    | text s =>
      change _ ↔ DollarsInert labels parts
      rw [← ih hparts]
      refine (inert_append_byte s _).trans (and_iff_right fun v w hs => ?_)
      exact absurd (hs ▸ mem_append_right v mem_cons_self) hpart.1
    | capture n => exact ih hparts
    | label name =>
      rw [DollarsInert, ← ih hparts, ← flatMap_refs_text]
      exact inert_append_byte _ _

end Refs

/-! ### Replace rules -/

section Replace

variable {labels : List Label} {parts : List TemplatePart}

/-- What a rule sets, whatever its replacement is. -/
theorem applyReplace_of_matchesWhole {cfg : RelabelConfig} {group : Bytes → Bytes}
    (h : MatchesWhole cfg.regex (sourceOf cfg labels) group) :
    applyReplace cfg labels = setLabel labels (expand group cfg.targetLabel)
      (expand group (fillLabelReferences labels cfg.replacement)) := by
  have hfill : (if [123, 123] <:+: cfg.replacement then fillLabelReferences labels cfg.replacement
      else cfg.replacement) = fillLabelReferences labels cfg.replacement := by
    split_ifs with hoccurs
    · rfl
    · exact (fillLabelReferences_of_no_reference hoccurs).symm
  rw [applyReplace]
  dsimp only
  rw [if_pos h.1, hfill, h.2, h.2]

theorem setLabel_inj {name v w : Bytes} (h : setLabel labels name v = setLabel labels name w) :
    v = w := by
  have hget := congrArg (fun labels => getLabelValue labels name) h
  simpa only [getLabelValue_setLabel, Function.update_self] using hget

/-- A rule with a replacement whose regexp matches every text with the same groups. -/
def replaceRule (replacement : Bytes) (group : Bytes → Bytes) : RelabelConfig where
  sourceLabels := []
  separator := ascii ";"
  targetLabel := ascii "target"
  regex := ⟨⟨fun _ => true, fun _ template => expand group template⟩, []⟩
  modulus := 0
  replacement := replacement
  action := .replace
  ifExpr := none
  graphiteMatch := none
  graphiteLabels := ∅

/-- **Label references are literal** for every regexp exactly when no dollar sign of a label value
starts something with the text after it. -/
theorem writesVerbatim_iff (h : ∀ part ∈ parts, part.WellFormed) :
    WritesVerbatim labels parts ↔ DollarsInert labels parts := by
  rw [← inert_refs_iff h, ← expand_text_iff wellFormed_refs, flatMap_refs_text]
  constructor
  · intro hwrites group
    have hmatches : MatchesWhole (replaceRule (parts.flatMap render) group).regex
        (sourceOf (replaceRule (parts.flatMap render) group) labels) group := ⟨rfl, fun _ => rfl⟩
    have hset := hwrites _ group rfl hmatches
    rw [applyReplace_of_matchesWhole hmatches] at hset
    rw [← fillLabelReferences_render h, flatMap_refs_value]
    exact setLabel_inj hset
  · intro hexpand cfg group hreplacement hmatches
    rw [applyReplace_of_matchesWhole hmatches, hreplacement, fillLabelReferences_render h,
      hexpand group, flatMap_refs_value]

/-- The groups of the regexp `(.*)`. -/
def defaultGroups (source name : Bytes) : Bytes :=
  if name = ascii "0" ∨ name = ascii "1" then source else []

/-- That regexp, for texts on one line. -/
def defaultRegex : AnchoredRegex := ⟨⟨fun _ => true, fun s => expand (defaultGroups s)⟩,
  ascii "(.*)"⟩

/-- A rule that sets the label `abc`. -/
def abcRule (replacement : Bytes) : RelabelConfig where
  sourceLabels := [ascii "baz"]
  separator := ascii ";"
  targetLabel := ascii "abc"
  regex := defaultRegex
  modulus := 0
  replacement := replacement
  action := .replace
  ifExpr := none
  graphiteMatch := none
  graphiteLabels := ∅

/-- Two label references and a capture. -/
theorem writesVerbatim_iff_abc :
    applyReplace (abcRule (ascii "\x7b\x7b__name__\x7d\x7d.\x7b\x7bfoo\x7d\x7d.$\x7b1\x7d"))
        [⟨ascii "__name__", ascii "qwe"⟩, ⟨ascii "foo", ascii "5$"⟩, ⟨ascii "baz", ascii "aaa"⟩] =
      [⟨ascii "__name__", ascii "qwe"⟩, ⟨ascii "foo", ascii "5$"⟩, ⟨ascii "baz", ascii "aaa"⟩,
        ⟨ascii "abc", ascii "qwe.5$.aaa"⟩] := by
  have hwf : ∀ part ∈ [label (ascii "__name__"), text (ascii "."), label (ascii "foo"),
      text (ascii "."), capture 1], part.WellFormed := by decide
  have hinert : DollarsInert [⟨ascii "__name__", ascii "qwe"⟩, ⟨ascii "foo", ascii "5$"⟩,
      ⟨ascii "baz", ascii "aaa"⟩]
      [label (ascii "__name__"), text (ascii "."), label (ascii "foo"), text (ascii "."),
        capture 1] :=
    (inert_refs_iff hwf).mp (by decide)
  have habc := (writesVerbatim_iff hwf).mpr hinert
    (abcRule (ascii "\x7b\x7b__name__\x7d\x7d.\x7b\x7bfoo\x7d\x7d.$\x7b1\x7d"))
    (defaultGroups (ascii "aaa")) (by decide) ⟨rfl, fun _ => rfl⟩
  rw [habc, expand_of_notMem _ (by decide)]
  decide

/-- A label whose value has a dollar sign before a name. -/
def dollarLabels : List Label := [⟨ascii "foo", ascii "a$1b"⟩, ⟨ascii "baz", ascii "x"⟩]

/-- The rule loses the dollar sign and what follows it. -/
theorem labelReference_expanded :
    applyReplace (abcRule (ascii "\x7b\x7bfoo\x7d\x7d")) dollarLabels =
        dollarLabels ++ [⟨ascii "abc", ascii "a"⟩] ∧
      ¬ WritesVerbatim dollarLabels [label (ascii "foo")] := by
  have hmatches : MatchesWhole (abcRule (ascii "\x7b\x7bfoo\x7d\x7d")).regex
      (sourceOf (abcRule (ascii "\x7b\x7bfoo\x7d\x7d")) dollarLabels) (defaultGroups (ascii "x")) :=
    ⟨rfl, fun _ => rfl⟩
  have hwf : ∀ part ∈ [label (ascii "foo")], part.WellFormed := by decide
  have hfill : fillLabelReferences dollarLabels (ascii "\x7b\x7bfoo\x7d\x7d") = ascii "a$1b" :=
    fillLabelReferences_render hwf
  have hexpand : expand (defaultGroups (ascii "x")) (ascii "a$1b") = ascii "a" := by
    change expand _ (97 :: dollar :: ascii "1b") = _
    have href : findCapRef (ascii "1b") = some (ascii "1b", []) := by decide
    rw [expand_cons_of_ne _ (by decide), expand_ref _ href, expand_nil]
    decide
  have htarget : expand (defaultGroups (ascii "x")) (ascii "abc") = ascii "abc" :=
    expand_of_notMem _ (by decide)
  have hrule : applyReplace (abcRule (ascii "\x7b\x7bfoo\x7d\x7d")) dollarLabels =
      setLabel dollarLabels (ascii "abc") (ascii "a") := by
    rw [applyReplace_of_matchesWhole hmatches]
    change setLabel dollarLabels (expand _ (ascii "abc"))
      (expand _ (fillLabelReferences dollarLabels (ascii "\x7b\x7bfoo\x7d\x7d"))) = _
    rw [hfill, hexpand, htarget]
  refine ⟨hrule.trans (by decide), fun hwrites => ?_⟩
  have hverbatim := hwrites _ _ (by decide) hmatches
  rw [hrule] at hverbatim
  change _ = setLabel dollarLabels (expand _ (ascii "abc")) _ at hverbatim
  rw [htarget] at hverbatim
  exact absurd (setLabel_inj hverbatim) (by decide)

end Replace

end Esmetrics.Relabel
