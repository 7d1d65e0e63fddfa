import Esmetrics.Lib.Lines
import Esmetrics.Relabel.Graphite
import Esmetrics.Select.QtFloat

/-!
# What a Graphite template stands for

A match template stands for the texts that its stars can be filled in to give (`Fills`): a star
stands for a run without dots, every other byte for itself. The matcher of
`esm-relabel/src/graphite.rs` never goes back: it cuts at the first occurrence of the literal after
a star. Where that literal starts with a dot no run without dots reaches past it, so that the first
occurrence is the only one to cut at (`cutAt_append`), and the matcher decides `Fills`
(`matchParts_splitMatchTemplate`).

A replacement made of literals and references is expanded piece by piece
(`expandGraphiteTemplate_render`).
-/

namespace Esmetrics.Relabel

open List

/-! ### The texts of a match template -/

/-- The text of a match template with its stars filled in: each run has no dots. -/
inductive Fills : Bytes → List Bytes → Bytes → Prop
  | nil : Fills [] [] []
  | literal {b : UInt8} {pattern s : Bytes} {runs : List Bytes} (hb : b ≠ '*'.toUInt8)
      (h : Fills pattern runs s) : Fills (b :: pattern) runs (b :: s)
  | star {run pattern s : Bytes} {runs : List Bytes} (hrun : '.'.toUInt8 ∉ run)
      (h : Fills pattern runs s) : Fills ('*'.toUInt8 :: pattern) (run :: runs) (run ++ s)

/-- Each star is followed by a dot, or ends the template. -/
def StarsAtDots (pattern : Bytes) : Prop :=
  ∀ i < pattern.length, pattern[i]? = some '*'.toUInt8 →
    pattern[i + 1]? = none ∨ pattern[i + 1]? = some '.'.toUInt8

instance (pattern : Bytes) : Decidable (StarsAtDots pattern) :=
  inferInstanceAs (Decidable (∀ i < pattern.length, _))

theorem StarsAtDots.of_append {before pattern : Bytes} (h : StarsAtDots (before ++ pattern)) :
    StarsAtDots pattern := by
  intro i hi hstar
  have hlater := h (before.length + i) (by rw [length_append]; omega)
  rw [Nat.add_assoc, getElem?_append_right (by omega), getElem?_append_right (by omega),
    Nat.add_sub_cancel_left, Nat.add_sub_cancel_left] at hlater
  exact hlater hstar

theorem StarsAtDots.head {before after : Bytes} (h : StarsAtDots (before ++ '*'.toUInt8 :: after)) :
    after = [] ∨ after.head? = some '.'.toUInt8 := by
  have hnext := h.of_append 0 (by rw [length_cons]; omega) rfl
  rw [getElem?_cons_succ, ← head?_eq_getElem?] at hnext
  exact hnext.imp_left head?_eq_none_iff.mp

variable {pattern s literal : Bytes} {runs captures captures' : List Bytes}

theorem fills_star :
    Fills ('*'.toUInt8 :: pattern) runs s ↔
      ∃ run s' runs', '.'.toUInt8 ∉ run ∧ Fills pattern runs' s' ∧ runs = run :: runs' ∧
      s = run ++ s' := by
  constructor
  · intro h
    cases h with
    | literal hb => exact absurd rfl hb
    | star hrun h => exact ⟨_, _, _, hrun, h, rfl, rfl⟩
  · rintro ⟨run, s', runs', hrun, h, rfl, rfl⟩
    exact .star hrun h

theorem fills_append (hliteral : '*'.toUInt8 ∉ literal) :
    Fills (literal ++ pattern) runs s ↔ ∃ s', s = literal ++ s' ∧ Fills pattern runs s' := by
  induction literal generalizing s with
  | nil =>
    constructor
    · exact fun h => ⟨s, rfl, h⟩
    · rintro ⟨s', rfl, h⟩
      exact h
  | cons b literal ih =>
    rw [mem_cons, not_or] at hliteral
    obtain ⟨hb, hliteral⟩ := hliteral
    constructor
    · intro h
      cases h with
      | literal _ h =>
        obtain ⟨s', rfl, h'⟩ := (ih hliteral).mp h
        exact ⟨s', rfl, h'⟩
      | star => exact absurd rfl hb
    · rintro ⟨s', rfl, h⟩
      exact .literal (Ne.symm hb) ((ih hliteral).mpr ⟨s', rfl, h⟩)

theorem fills_nil : Fills [] runs s ↔ runs = [] ∧ s = [] := by
  constructor
  · intro h
    cases h with
    | nil => exact ⟨rfl, rfl⟩
  · rintro ⟨rfl, rfl⟩
    exact .nil

theorem fills_literal (hliteral : '*'.toUInt8 ∉ literal) : Fills literal runs s ↔
    runs = [] ∧ s = literal := by
  have happend : Fills (literal ++ []) runs s ↔ ∃ s', s = literal ++ s' ∧ Fills [] runs s' :=
    fills_append hliteral
  rw [append_nil] at happend
  rw [happend]
  constructor
  · rintro ⟨s', rfl, h⟩
    obtain ⟨hruns, rfl⟩ := fills_nil.mp h
    exact ⟨hruns, append_nil literal⟩
  · rintro ⟨hruns, rfl⟩
    exact ⟨[], (append_nil s).symm, fills_nil.mpr ⟨hruns, rfl⟩⟩

/-! ### The parts of a match template -/

theorem splitMatchTemplate_literal (hliteral : '*'.toUInt8 ∉ literal) :
    splitMatchTemplate literal = [literal].filter (· ≠ []) := by
  rw [splitMatchTemplate, splitOn_eq_singleton hliteral]
  rfl

theorem splitMatchTemplate_append (hliteral : '*'.toUInt8 ∉ literal) (pattern : Bytes) :
    splitMatchTemplate (literal ++ '*'.toUInt8 :: pattern) =
      [literal].filter (· ≠ []) ++ star :: splitMatchTemplate pattern := by
  obtain ⟨part, parts, hparts⟩ := exists_cons_of_ne_nil (splitOn_ne_nil '*'.toUInt8 pattern)
  have hstar : star ≠ [] := by decide
  rw [splitMatchTemplate, splitMatchTemplate, splitOn_append_cons_self_of_not_mem hliteral, hparts,
    intersperse_cons_cons, ← singleton_append, filter_append,
    filter_cons_of_pos (a := star) (by simpa using hstar)]

theorem ne_star_of_notMem (hliteral : '*'.toUInt8 ∉ literal) : literal ≠ star := by
  rintro rfl
  exact hliteral (by decide)

/-- After a star comes nothing, or a literal that starts with a dot. -/
theorem splitMatchTemplate_of_head (h : pattern = [] ∨ pattern.head? = some '.'.toUInt8) :
    splitMatchTemplate pattern = [] ∨
      ∃ next parts, splitMatchTemplate pattern = next :: parts ∧ next.head? = some '.'.toUInt8 := by
  obtain rfl | hhead := h
  · exact .inl (by decide)
  refine .inr ?_
  obtain ⟨pattern, rfl⟩ : ∃ rest, pattern = '.'.toUInt8 :: rest := head?_eq_some_iff.mp hhead
  by_cases hmem : '*'.toUInt8 ∈ '.'.toUInt8 :: pattern
  · obtain ⟨text, rest, heq, htext⟩ := eq_append_cons_of_mem hmem
    cases text with
    | nil => exact absurd (List.cons.inj heq).1 (by decide)
    | cons b text =>
      obtain rfl := (List.cons.inj heq).1
      rw [heq, splitMatchTemplate_append htext]
      exact ⟨_, _, rfl, rfl⟩
  · rw [splitMatchTemplate_literal hmem]
    exact ⟨_, _, rfl, rfl⟩

/-! ### The matcher -/

theorem matchParts_cons {part : Bytes} (hpart : part ≠ star) (parts : List Bytes) (s : Bytes)
    (captures : List Bytes) :
    matchParts (part :: parts) s captures =
      if part <+: s then matchParts parts (s.drop part.length) captures else none := by
  cases parts with
  | nil => conv_lhs => rw [matchParts, if_pos hpart]
  | cons next parts => rw [matchParts, if_pos hpart]

theorem matchParts_literal (hliteral : '*'.toUInt8 ∉ literal) (parts : List Bytes) (s : Bytes)
    (captures : List Bytes) :
    matchParts ([literal].filter (· ≠ []) ++ parts) s captures =
      if literal <+: s then matchParts parts (s.drop literal.length) captures else none := by
  by_cases hnil : literal = []
  · subst hnil
    rw [if_pos nil_prefix]
    rfl
  · rw [filter_cons_of_pos (by simpa using hnil), filter_nil, singleton_append,
      matchParts_cons (ne_star_of_notMem hliteral)]

theorem matchParts_literal_eq_some (hliteral : '*'.toUInt8 ∉ literal) (parts : List Bytes) :
    matchParts ([literal].filter (· ≠ []) ++ parts) s captures = some captures' ↔
      ∃ s', s = literal ++ s' ∧ matchParts parts s' captures = some captures' := by
  rw [matchParts_literal hliteral]
  constructor
  · intro h
    split_ifs at h with hprefix
    exact ⟨_, (prefix_append_drop hprefix), h⟩
  · rintro ⟨s', rfl, h⟩
    rw [if_pos (prefix_append _ _), drop_left, h]

theorem matchParts_nil_eq_some : matchParts [] s captures = some captures' ↔
    s = [] ∧ captures' = captures := by
  rw [matchParts]
  split_ifs with hs
  · rw [Option.some_inj, eq_comm, and_iff_right hs]
  · exact iff_of_false (by simp) fun h => hs h.1

/-- No text without a byte reaches past a separator that starts with it. -/
theorem cutAt_append {b : UInt8} {run sep : Bytes} (hrun : b ∉ run) (hsep : sep.head? = some b)
    (s : Bytes) : cutAt sep (run ++ sep ++ s) = some (run, s) := by
  obtain ⟨sep, rfl⟩ := head?_eq_some_iff.mp hsep
  induction run with
  | nil =>
    have hprefix : b :: sep <+: b :: (sep ++ s) := prefix_append _ s
    rw [nil_append, cons_append, cutAt, if_pos hprefix, ← cons_append, drop_left]
  | cons b' run ih =>
    rw [mem_cons, not_or] at hrun
    have hprefix : ¬ b :: sep <+: b' :: (run ++ b :: sep ++ s) := fun h =>
      hrun.1 (cons_prefix_cons.mp h).1
    rw [cons_append, cons_append, cutAt, if_neg hprefix, ih hrun.2]
    rfl

/-- A star takes a run without dots from what the rest of the template matches. -/
theorem matchParts_star (h : pattern = [] ∨ pattern.head? = some '.'.toUInt8) :
    matchParts (star :: splitMatchTemplate pattern) s captures = some captures' ↔
      ∃ run s', '.'.toUInt8 ∉ run ∧ s = run ++ s' ∧
        matchParts (splitMatchTemplate pattern) s' (captures ++ [run]) = some captures' := by
  obtain hparts | ⟨next, parts, hparts, hnext⟩ := splitMatchTemplate_of_head h
  · rw [hparts, matchParts, if_neg (not_not_intro rfl)]
    constructor
    · intro h
      split_ifs at h with hdot
      exact ⟨s, [], hdot, (append_nil s).symm, matchParts_nil_eq_some.mpr ⟨rfl,
        (Option.some.inj h).symm⟩⟩
    · rintro ⟨run, s', hrun, rfl, h⟩
      obtain ⟨rfl, rfl⟩ := matchParts_nil_eq_some.mp h
      rw [append_nil, if_neg hrun]
  · have hne : next ≠ star := by
      rintro rfl
      exact absurd hnext (by decide)
    rw [hparts, matchParts, if_neg (not_not_intro rfl)]
    constructor
    · intro h
      split at h
      · exact absurd h (by simp)
      · rename_i run rest hcut
        split_ifs at h with hdot
        refine ⟨run, next ++ rest, hdot, by rw [append_of_cutAt hcut, append_assoc], ?_⟩
        rw [matchParts_cons hne, if_pos (prefix_append _ _), drop_left, h]
    · rintro ⟨run, s', hrun, rfl, h⟩
      rw [matchParts_cons hne] at h
      split_ifs at h with hprefix
      obtain ⟨rest, rfl⟩ := hprefix
      rw [drop_left] at h
      rw [← append_assoc, cutAt_append hrun hnext]
      exact (if_neg hrun).trans h

/-- The parts of a template match the texts that it stands for. -/
theorem matchParts_splitMatchTemplate (h : StarsAtDots pattern) :
    matchParts (splitMatchTemplate pattern) s captures = some captures' ↔
      ∃ runs, captures' = captures ++ runs ∧ Fills pattern runs s := by
  induction pattern using line_induction '*'.toUInt8 generalizing s captures with
  | last literal hliteral =>
    rw [splitMatchTemplate_literal hliteral, ← append_nil (List.filter _ _),
      matchParts_literal_eq_some hliteral]
    constructor
    · rintro ⟨s', rfl, h⟩
      obtain ⟨rfl, rfl⟩ := matchParts_nil_eq_some.mp h
      exact ⟨[], (append_nil _).symm, (fills_literal hliteral).mpr ⟨rfl, append_nil literal⟩⟩
    · rintro ⟨runs, rfl, h⟩
      obtain ⟨rfl, rfl⟩ := (fills_literal hliteral).mp h
      exact ⟨[], (append_nil _).symm, matchParts_nil_eq_some.mpr ⟨rfl, append_nil captures⟩⟩
  | line literal pattern hliteral ih =>
    have hpattern : StarsAtDots pattern := by
      have hsplit : StarsAtDots ((literal ++ ['*'.toUInt8]) ++ pattern) := by
        rwa [append_assoc, singleton_append]
      exact hsplit.of_append
    rw [splitMatchTemplate_append hliteral, matchParts_literal_eq_some hliteral]
    constructor
    · rintro ⟨s', rfl, hmatch⟩
      obtain ⟨run, s'', hrun, rfl, hrest⟩ := (matchParts_star h.head).mp hmatch
      obtain ⟨runs, rfl, hfills⟩ := (ih hpattern).mp hrest
      exact ⟨run :: runs, append_assoc _ _ _,
        (fills_append hliteral).mpr ⟨_, rfl, .star hrun hfills⟩⟩
    · rintro ⟨runs, rfl, hfills⟩
      obtain ⟨s', rfl, hstar⟩ := (fills_append hliteral).mp hfills
      obtain ⟨run, s'', runs', hrun, hrest, rfl, rfl⟩ := fills_star.mp hstar
      refine ⟨_, rfl, (matchParts_star h.head).mpr ⟨run, s'', hrun, rfl, ?_⟩⟩
      exact (ih hpattern).mpr ⟨runs', (append_assoc captures [run] runs').symm, hrest⟩

/-- The check of the last literal rejects no text that the template stands for. -/
theorem suffix_of_fills {last : Bytes} (h : Fills pattern runs s)
    (hlast : (splitMatchTemplate pattern).getLast? = some last) (hne : last ≠ star) :
    last <:+ s := by
  induction pattern using line_induction '*'.toUInt8 generalizing s runs with
  | last literal hliteral =>
    rw [splitMatchTemplate_literal hliteral] at hlast
    obtain ⟨-, rfl⟩ := (fills_literal hliteral).mp h
    have hmem := mem_of_mem_filter (mem_of_getLast? hlast)
    rw [mem_singleton.mp hmem]
  | line literal pattern hliteral ih =>
    obtain ⟨s', rfl, hstar⟩ := (fills_append hliteral).mp h
    obtain ⟨run, s'', runs', -, hrest, rfl, rfl⟩ := fills_star.mp hstar
    rw [splitMatchTemplate_append hliteral, getLast?_append_cons, getLast?_cons] at hlast
    cases hparts : (splitMatchTemplate pattern).getLast? with
    | none =>
      rw [hparts] at hlast
      exact absurd (Option.some.inj hlast).symm hne
    | some part =>
      rw [hparts] at hlast
      obtain rfl : part = last := Option.some.inj hlast
      exact (ih hrest hparts).trans ((suffix_append _ _).trans (suffix_append _ _))

/-- **A template matches the texts that it stands for.** -/
theorem matchGraphiteTemplate_eq_some (h : StarsAtDots pattern) :
    matchGraphiteTemplate pattern s = some captures ↔ ∃ runs,
    captures = s :: runs ∧ Fills pattern runs s := by
  rw [matchGraphiteTemplate]
  split_ifs with hlast
  · refine iff_of_false (by simp) ?_
    rintro ⟨runs, -, hfills⟩
    obtain ⟨last, hlast, hcheck⟩ := (Option.any_eq_true _ _).mp hlast
    obtain ⟨hne, hsuffix⟩ := of_decide_eq_true hcheck
    exact hsuffix (suffix_of_fills hfills hlast hne)
  · exact matchParts_splitMatchTemplate h

/-- A template stands for a text in one way. -/
theorem Fills.runs_eq {runs' : List Bytes} (hpattern : StarsAtDots pattern)
    (h : Fills pattern runs s)
    (h' : Fills pattern runs' s) : runs = runs' := by
  have hmatch := (matchGraphiteTemplate_eq_some hpattern).mpr ⟨runs, rfl, h⟩
  rw [(matchGraphiteTemplate_eq_some hpattern).mpr ⟨runs', rfl, h'⟩] at hmatch
  exact (List.cons.inj (Option.some.inj hmatch)).2.symm

/-! ### The pieces of a replacement -/

/-- A piece of a replacement: a text without dollar signs, or a reference to a capture. -/
inductive ReplacePiece where
  | literal (text : Bytes) (htext : '$'.toUInt8 ∉ text)
  | capture (i : UInt64)

/-- A piece as it is written in a template. -/
def ReplacePiece.render : ReplacePiece → Bytes
  | .literal text _ => text
  | .capture i => ascii "$" ++ 123 :: Protoparser.printInteger i.toNat ++ [125]

/-- A piece as it is filled in. -/
def ReplacePiece.fill (captures : List Bytes) : ReplacePiece → Bytes
  | .literal text _ => text
  | .capture i => captures.getD i.toNat []

/-- A piece refers to no capture, or to one that there is. -/
def ReplacePiece.InRange (captures : List Bytes) : ReplacePiece → Prop
  | .literal _ _ => True
  | .capture i => i.toNat < captures.length

/-! ### Expansion -/

theorem flatMap_pushReplacePart (text : Bytes) (captures : List Bytes) :
    ((pushReplacePart text none).flatMap fun part =>
      (part.idx.bind fun idx => captures[idx]?).getD part.text) = text := by
  rw [pushReplacePart]
  split_ifs with htext
  · exact htext.symm
  · exact append_nil text

theorem splitReplaceTemplate_of_none {template : Bytes} (h : cutAt (ascii "$") template = none) :
    splitReplaceTemplate template = pushReplacePart template none := by
  rw [splitReplaceTemplate]
  split
  · rfl
  · rename_i hcut
    rw [h] at hcut
    exact absurd hcut (by simp)

/-- The pieces of what follows a dollar sign. -/
def splitAfterDollar (rest : Bytes) : List ReplacePart :=
  if rest.head? = some 123 then
    match cutAt [125] rest.tail with
    | none => [⟨ascii "$" ++ rest, none⟩]
    | some (idx, rest') =>
      ⟨ascii "$" ++ 123 :: idx ++ [125], Protoparser.strParseU64 idx⟩ :: splitReplaceTemplate rest'
  else
    let idx := rest.takeWhile isAsciiDigit
    ⟨ascii "$" ++ idx, Protoparser.strParseU64 idx⟩ ::
      splitReplaceTemplate (rest.dropWhile isAsciiDigit)

theorem splitReplaceTemplate_of_some {template text rest : Bytes}
    (h : cutAt (ascii "$") template = some (text, rest)) :
    splitReplaceTemplate template = pushReplacePart text none ++ splitAfterDollar rest := by
  rw [splitReplaceTemplate]
  split
  · rename_i hnone
    rw [h] at hnone
    exact absurd hnone (by simp)
  · rename_i hsome
    rw [h] at hsome
    obtain ⟨rfl, rfl⟩ := Prod.mk.inj (Option.some.inj hsome)
    rw [splitAfterDollar]
    split_ifs
    · split
      · rename_i hbrace
        rw [hbrace]
      · rename_i hbrace
        simp only [hbrace]
    · rfl

theorem cutAt_literal_append {text : Bytes} (htext : '$'.toUInt8 ∉ text) (template : Bytes) :
    cutAt (ascii "$") (text ++ template) =
      (cutAt (ascii "$") template).map fun cut => (text ++ cut.1, cut.2) := by
  induction text with
  | nil => simp
  | cons b text ih =>
    rw [mem_cons, not_or] at htext
    have hprefix : ¬ ascii "$" <+: b :: (text ++ template) := fun h =>
      htext.1 (cons_prefix_cons.mp h).1
    rw [cons_append, cutAt, if_neg hprefix, ih htext.2, Option.map_map]
    rfl

theorem expandGraphiteTemplate_literal {text : Bytes} (htext : '$'.toUInt8 ∉ text)
    (template : Bytes) (captures : List Bytes) :
    expandGraphiteTemplate (text ++ template) captures = text ++
    expandGraphiteTemplate template captures := by
  have hcut := cutAt_literal_append htext template
  rw [expandGraphiteTemplate, expandGraphiteTemplate]
  cases h : cutAt (ascii "$") template with
  | none =>
    rw [h] at hcut
    rw [splitReplaceTemplate_of_none h, splitReplaceTemplate_of_none hcut, flatMap_pushReplacePart,
      flatMap_pushReplacePart]
  | some cut =>
    rw [h] at hcut
    rw [splitReplaceTemplate_of_some h, splitReplaceTemplate_of_some hcut, flatMap_append,
      flatMap_append, flatMap_pushReplacePart, flatMap_pushReplacePart, append_assoc]

/-- A reference with braces is one piece. -/
theorem splitReplaceTemplate_reference {idx : Bytes} (hidx : (125 : UInt8) ∉ idx)
    (template : Bytes) : splitReplaceTemplate (ascii "$" ++ 123 :: idx ++ [125] ++ template) =
      ⟨ascii "$" ++ 123 :: idx ++ [125], Protoparser.strParseU64 idx⟩ ::
      splitReplaceTemplate template := by
  have hdollar : cutAt (ascii "$") (ascii "$" ++ 123 :: idx ++ [125] ++ template) =
      some ([], 123 :: idx ++ [125] ++ template) :=
    cutAt_append List.not_mem_nil rfl _
  have hbrace : cutAt [125] (123 :: idx ++ [125] ++ template).tail = some (idx, template) :=
    cutAt_append hidx rfl template
  have hhead : (123 :: idx ++ [125] ++ template).head? = some (123 : UInt8) := rfl
  rw [splitReplaceTemplate_of_some hdollar, splitAfterDollar, if_pos hhead, hbrace]
  rfl

theorem expandGraphiteTemplate_capture {i : UInt64} {captures : List Bytes}
    (hi : i.toNat < captures.length)
    (template : Bytes) :
    expandGraphiteTemplate ((ReplacePiece.capture i).render ++ template) captures =
      captures.getD i.toNat [] ++ expandGraphiteTemplate template captures := by
  have hdigits : (125 : UInt8) ∉ Protoparser.printInteger i.toNat := by
    rw [Select.printInteger_natCast]
    exact fun h => absurd ((Select.toDigits_digits i.toNat).1 _ h) (by decide)
  rw [expandGraphiteTemplate, ReplacePiece.render, splitReplaceTemplate_reference hdigits,
    flatMap_cons,
    Select.strParseU64_printInteger i.toNat_lt, ← expandGraphiteTemplate, getD_eq_getElem?_getD,
    Option.bind_some, getElem?_eq_getElem hi]
  rfl

/-- **A replacement is expanded piece by piece.** -/
theorem expandGraphiteTemplate_render {pieces : List ReplacePiece} {captures : List Bytes}
    (h : ∀ piece ∈ pieces, piece.InRange captures) :
    expandGraphiteTemplate (pieces.flatMap ReplacePiece.render) captures =
      pieces.flatMap (ReplacePiece.fill captures) := by
  induction pieces with
  | nil =>
    have hcut : cutAt (ascii "$") [] = none := by decide
    rw [flatMap_nil, flatMap_nil, expandGraphiteTemplate, splitReplaceTemplate_of_none hcut]
    rfl
  | cons piece pieces ih =>
    obtain ⟨hpiece, hpieces⟩ := forall_mem_cons.mp h
    rw [flatMap_cons, flatMap_cons, ← ih hpieces]
    cases piece with
    | literal text htext => exact expandGraphiteTemplate_literal htext _ captures
    | capture i => exact expandGraphiteTemplate_capture hpiece _

/-- **Graphite templates match exactly**: a template whose stars are each followed by a dot or at
its end matches the texts that it stands for, its captures are the text and the runs of its stars,
which are unique, and a replacement is expanded to its literals and the captures that it refers
to. -/
theorem graphiteTemplates_exact (pattern : Bytes) (h : StarsAtDots pattern) :
    (∀ s captures, matchGraphiteTemplate pattern s = some captures ↔
      ∃ runs, captures = s :: runs ∧ Fills pattern runs s) ∧
    (∀ s runs runs', Fills pattern runs s → Fills pattern runs' s → runs = runs') ∧
    ∀ (pieces : List ReplacePiece) (captures : List Bytes),
      (∀ piece ∈ pieces, piece.InRange captures) →
      expandGraphiteTemplate (pieces.flatMap ReplacePiece.render) captures =
        pieces.flatMap (ReplacePiece.fill captures) :=
  ⟨fun _ _ => matchGraphiteTemplate_eq_some h, fun _ _ _ hruns hruns' => hruns.runs_eq h hruns',
    fun _ _ => expandGraphiteTemplate_render⟩

theorem graphiteTemplates_exact_counter :
    (∀ captures, matchGraphiteTemplate (ascii "test.*.*.counter") (ascii "test.foo.bar.counter") =
      some captures ↔
      ∃ runs, captures = ascii "test.foo.bar.counter" :: runs ∧
        Fills (ascii "test.*.*.counter") runs (ascii "test.foo.bar.counter")) ∧
    expandGraphiteTemplate (ascii "${2}_total") [ascii "test.foo.bar.counter", ascii "foo",
      ascii "bar"] = ascii "bar_total" :=
  have h := graphiteTemplates_exact (ascii "test.*.*.counter") (by decide)
  ⟨h.1 (ascii "test.foo.bar.counter"),
    h.2.2 [.capture 2, .literal (ascii "_total") (by decide)]
      [ascii "test.foo.bar.counter", ascii "foo", ascii "bar"] (by simp [ReplacePiece.InRange])⟩

end Esmetrics.Relabel
