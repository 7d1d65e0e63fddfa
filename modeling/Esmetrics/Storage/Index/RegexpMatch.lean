import Esmetrics.Storage.Index.TagFilters

/-!
# Optimized matchers and the regexps they replace

What a regexp of literals and repeated dots matches in the syntax of the regexp crate, where a dot
is any character but a newline and `\xNN` is the character with the code point `NN`, in comparison
with the matcher that `get_optimized_re_match_func` (`esm-storage/src/index/tag_filters.rs`) returns
for it. The matcher takes any bytes for `.*`, and the byte `NN` for `\xNN`.

The matcher is the full match of the regexp that is read byte by byte, with a dot for any byte; it
agrees with the regexp of the crate on all byte strings exactly for a literal whose hexadecimal
escapes are below 80 (`optimized_iff`). The suffixes that filters hand to the function have their
dots in a group `(?s:…)`, which it leaves to the compiled regexp.
-/

namespace Esmetrics

open List

/-! ### Regexps of literals and dots -/

/-- A part of a regexp. -/
inductive RegexpPiece where
  /-- A byte of a literal. -/
  | byte (c : UInt8)
  /-- A code point in hexadecimal digits. -/
  | codePoint (v : UInt8)
  /-- A repeated dot. -/
  | dots (d : Dot)
  deriving DecidableEq

/-- The UTF-8 form of a code point below 256. -/
def utf8OfCodePoint (v : UInt8) : Bytes :=
  if v < 0x80 then [v] else [(0xc0 : UInt8) ||| (v >>> 6), (0x80 : UInt8) ||| (v &&& 0x3f)]

/-- What a part matches. -/
def RegexpPiece.Matches : RegexpPiece → Bytes → Prop
  | .byte c, u => u = [c]
  | .codePoint v, u => u = utf8OfCodePoint v
  | .dots d, u => isText u = true ∧ d.Matches u

/-- What a whole regexp matches between the anchors. -/
def FullMatch : List RegexpPiece → Bytes → Prop
  | [], b => b = []
  | p :: ps, b => ∃ u v, b = u ++ v ∧ p.Matches u ∧ FullMatch ps v

/-- What a part matches where a regexp is read byte by byte: a dot is any byte, a newline included,
and `\xNN` is the byte `NN`. -/
def RegexpPiece.MatchesBytes : RegexpPiece → Bytes → Prop
  | .byte c, u => u = [c]
  | .codePoint v, u => u = [v]
  | .dots d, u => d.Matches u

/-- What a whole regexp that is read byte by byte matches between the anchors. -/
def FullMatchBytes (ps : List RegexpPiece) (b : Bytes) : Prop :=
  ∃ us, Forall₂ RegexpPiece.MatchesBytes ps us ∧ b = us.flatten

/-- Reads a regexp that has only literals and repeated dots. -/
def parsePieces : Bytes → Option (List RegexpPiece)
  | [] => some []
  | c :: src =>
    if c = ch '.' then
      match src with
      | [] => none
      | q :: src =>
        if q = ch '*' then (parsePieces src).map (.dots .star :: ·)
        else if q = ch '+' then (parsePieces src).map (.dots .plus :: ·)
        else none
    else if c = ch '\\' then
      match src with
      | [] => none
      | e :: src =>
        if e = ch 'x' then
          match src with
          | a :: b :: src =>
            match hexVal a, hexVal b with
            | some a, some b => (parsePieces src).map (.codePoint (16 * a + b) :: ·)
            | _, _ => none
          | _ => none
        else if e ∈ regexpMetaChars ∨ e = ch '\\' ∨ e = ch '-' ∨ e = ch '/' then
          (parsePieces src).map (.byte e :: ·)
        else none
    else if c ∈ regexpMetaChars then none
    else (parsePieces src).map (.byte c :: ·)

/-- The byte that the code takes for a part of a literal. -/
def RegexpPiece.raw : RegexpPiece → Option UInt8
  | .byte c => some c
  | .codePoint v => some v
  | .dots _ => none

/-- The parts that the optimized matchers take as they are. -/
def RegexpPiece.Exact : RegexpPiece → Prop
  | .byte _ => True
  | .codePoint v => v < 0x80
  | .dots _ => False

theorem parsePieces_dot (q : UInt8) (src : Bytes) :
    parsePieces (ch '.' :: q :: src) =
      if q = ch '*' then (parsePieces src).map (.dots .star :: ·)
      else if q = ch '+' then (parsePieces src).map (.dots .plus :: ·)
      else none := by
  rw [parsePieces.eq_def]
  exact if_pos rfl

theorem parsePieces_hex {a b x y : UInt8} (ha : hexVal a = some x) (hb : hexVal b = some y)
    (src : Bytes) :
    parsePieces (ch '\\' :: ch 'x' :: a :: b :: src) =
      (parsePieces src).map (.codePoint (16 * x + y) :: ·) := by
  rw [parsePieces.eq_def]
  simp only [if_neg (show ch '\\' ≠ ch '.' by decide), if_true, ha, hb]

theorem parsePieces_escape {e : UInt8} (hx : e ≠ ch 'x')
    (he : e ∈ regexpMetaChars ∨ e = ch '\\' ∨ e = ch '-' ∨ e = ch '/') (src : Bytes) :
    parsePieces (ch '\\' :: e :: src) = (parsePieces src).map (.byte e :: ·) := by
  rw [parsePieces.eq_def]
  simp only [if_neg (show ch '\\' ≠ ch '.' by decide), if_true, if_neg hx, if_pos he]

theorem parsePieces_plain {c : UInt8} (hslash : c ≠ ch '\\') (hmeta : c ∉ regexpMetaChars)
    (src : Bytes) : parsePieces (c :: src) = (parsePieces src).map (.byte c :: ·) := by
  have hdot : c ≠ ch '.' := by
    rintro rfl
    exact hmeta (by decide)
  rw [parsePieces.eq_def]
  simp only [if_neg hdot, if_neg hslash, if_neg hmeta]

/-- The parts before `t` are those of a literal. -/
def ReadsLiteral (t lit : Bytes) (ps : List RegexpPiece) : Prop :=
  ∃ qs ts, ps = qs ++ ts ∧ parsePieces t = some ts ∧ qs.map RegexpPiece.raw = lit.map some

/-- One more part and one more byte. -/
theorem ReadsLiteral.cons {t m n lit : Bytes} {ps : List RegexpPiece} {p : RegexpPiece} {c : UInt8}
    (hraw : p.raw = some c) (hm : (parseRegexpLiteral m).map (c :: ·) = some lit)
    (hps : (parsePieces n).map (p :: ·) = some ps)
    (ih : ∀ lit ps, parseRegexpLiteral m = some lit → parsePieces n = some ps →
      ReadsLiteral t lit ps) : ReadsLiteral t lit ps := by
  obtain ⟨lit', hlit, rfl⟩ := Option.map_eq_some_iff.mp hm
  obtain ⟨ps', hps', rfl⟩ := Option.map_eq_some_iff.mp hps
  obtain ⟨qs, ts, rfl, hts, hqs⟩ := ih lit' ps' hlit hps'
  exact ⟨p :: qs, ts, rfl, hts, by rw [map_cons, hraw, hqs, map_cons]⟩

variable {ps qs : List RegexpPiece}

/-- A literal that the code reads is a literal of the regexp. -/
theorem parsePieces_append {m t lit : Bytes} (hm : parseRegexpLiteral m = some lit)
    (hps : parsePieces (m ++ t) = some ps) :
    ReadsLiteral t lit ps := by
  fun_induction parseRegexpLiteral m generalizing lit ps with
  | case1 =>
    cases hm
    exact ⟨[], ps, rfl, hps, rfl⟩
  | case2 => cases hm
  | case3 a b src v hv ih =>
    -- The code accepts a sign before one digit, which is no regexp.
    cases ha : hexVal a with
    | none =>
      exfalso
      rw [cons_append, parsePieces.eq_def] at hps
      simp only [cons_append, if_neg (show ch '\\' ≠ ch '.' by decide), if_true, ha] at hps
      cases hps
    | some x =>
      have hplus : a ≠ ch '+' := by
        rintro rfl
        cases (show hexVal (ch '+') = none by decide).symm.trans ha
      rw [hexByte, if_neg hplus, ha] at hv
      cases hb : hexVal b with
      | none =>
        rw [hb] at hv
        cases hv
      | some y =>
        rw [hb] at hv
        obtain rfl : 16 * x + y = v := Option.some.inj hv
        rw [cons_append, cons_append, cons_append, cons_append,
          parsePieces_hex ha hb] at hps
        exact .cons rfl hm hps fun lit ps => ih
  | case4 => cases hm
  | case5 => cases hm
  | case6 d src hx hd ih =>
    rw [cons_append, cons_append, parsePieces_escape hx hd] at hps
    exact .cons rfl hm hps fun lit ps => ih
  | case7 => cases hm
  | case8 => cases hm
  | case9 c src hc hmeta ih =>
    rw [cons_append, parsePieces_plain hc hmeta] at hps
    exact .cons rfl hm hps fun lit ps => ih

/-! ### The shape of an optimized regexp -/

/-- The parts of `.*` and `.+`. -/
def Dot.pieces : Dot → List RegexpPiece
  | .none => []
  | d => [.dots d]

theorem parsePieces_head {d : Dot} {t : Bytes} (h : parsePieces (d.text ++ t) = some ps) :
    ∃ ts, ps = d.pieces ++ ts ∧ parsePieces t = some ts := by
  cases d with
  | none => exact ⟨ps, rfl, h⟩
  | star =>
    have hread : parsePieces (Dot.star.text ++ t) = (parsePieces t).map (.dots .star :: ·) :=
      (parsePieces_dot (ch '*') t).trans (if_pos rfl)
    rw [hread] at h
    obtain ⟨ts, hts, rfl⟩ := Option.map_eq_some_iff.mp h
    exact ⟨ts, rfl, hts⟩
  | plus =>
    have hread : parsePieces (Dot.plus.text ++ t) = (parsePieces t).map (.dots .plus :: ·) :=
      (parsePieces_dot (ch '+') t).trans ((if_neg (by decide)).trans (if_pos rfl))
    rw [hread] at h
    obtain ⟨ts, hts, rfl⟩ := Option.map_eq_some_iff.mp h
    exact ⟨ts, rfl, hts⟩

theorem parsePieces_tail {d : Dot} (h : parsePieces d.text = some ps) :
    ps = d.pieces := by
  rw [← append_nil d.text] at h
  obtain ⟨ts, rfl, hts⟩ := parsePieces_head h
  cases hts
  exact append_nil _

/-- An optimized regexp is a literal between dots, and its matcher looks for the bytes of the
literal with any bytes for the dots. -/
theorem optimized_cases {re : Bytes → Bool} {expr : Bytes}
    (hopt : (getOptimizedReMatchFunc re expr).2 ≠ reMatchCost) (hps : parsePieces expr = some ps) :
    ∃ (head tail : Dot) (qs : List RegexpPiece) (lit : Bytes),
      ps = head.pieces ++ (qs ++ tail.pieces) ∧ qs.map RegexpPiece.raw = lit.map some ∧
      (lit = [] → tail = .none) ∧ ∀ b, (getOptimizedReMatchFunc re expr).1 b = true ↔
        ∃ u w, b = u ++ lit ++ w ∧ head.Matches u ∧ tail.Matches w := by
  have hexpr : (stripHead expr).1.text ++ ((stripTail (stripHead expr).2).2 ++
      (stripTail (stripHead expr).2).1.text) = expr := by
    rw [stripTail_spec, stripHead_spec]
  unfold getOptimizedReMatchFunc at hopt ⊢
  generalize (stripHead expr).1 = head at *
  generalize (stripTail (stripHead expr).2).1 = tail at *
  generalize (stripTail (stripHead expr).2).2 = middle at *
  rw [← hexpr] at hps
  obtain ⟨ps, rfl, hrest⟩ := parsePieces_head hps
  simp only at hopt ⊢
  by_cases hstar : middle = [] ∧ tail = .none ∧ head = .star
  · obtain ⟨rfl, rfl, rfl⟩ := hstar
    obtain rfl := parsePieces_tail (d := .none) hrest
    refine ⟨.star, .none, [], [], rfl, rfl, fun _ => rfl, fun b => ?_⟩
    simp [Dot.Matches]
  · rw [if_neg hstar] at hopt ⊢
    by_cases hplus : middle = [] ∧ tail = .none ∧ head = .plus
    · obtain ⟨rfl, rfl, rfl⟩ := hplus
      obtain rfl := parsePieces_tail (d := .none) hrest
      refine ⟨.plus, .none, [], [], rfl, rfl, fun _ => rfl, fun b => ?_⟩
      simp [Dot.Matches]
    · rw [if_neg hplus] at hopt ⊢
      cases hlit : parseRegexpLiteral middle with
      | none =>
        rw [hlit] at hopt
        exact absurd rfl hopt
      | some lit =>
        rw [hlit] at hopt
        cases lit with
        | nil => exact absurd rfl hopt
        | cons c lit =>
          obtain ⟨qs, ts, rfl, hts, hqs⟩ := parsePieces_append hlit hrest
          obtain rfl := parsePieces_tail hts
          exact ⟨head, tail, qs, c :: lit, rfl, hqs, fun hnil => absurd hnil (cons_ne_nil c lit),
            literalMatchFunc_iff (c :: lit) head tail⟩

/-! ### Full matches -/

theorem fullMatch_append {b : Bytes} :
    FullMatch (ps ++ qs) b ↔ ∃ u v, b = u ++ v ∧ FullMatch ps u ∧ FullMatch qs v := by
  induction ps generalizing b with
  | nil =>
    constructor
    · exact fun h => ⟨[], b, rfl, rfl, h⟩
    · rintro ⟨u, v, rfl, rfl, h⟩
      exact h
  | cons p ps ih =>
    constructor
    · rintro ⟨u, v, rfl, hp, h⟩
      obtain ⟨v, w, rfl, hps, hqs⟩ := ih.mp h
      exact ⟨u ++ v, w, (append_assoc u v w).symm, ⟨u, v, rfl, hp, hps⟩, hqs⟩
    · rintro ⟨x, w, rfl, ⟨u, v, rfl, hp, hps⟩, hqs⟩
      exact ⟨u, v ++ w, append_assoc u v w, hp, ih.mpr ⟨v, w, rfl, hps, hqs⟩⟩

theorem fullMatch_dots {d : Dot} {b : Bytes} :
    FullMatch d.pieces b ↔ isText b = true ∧ d.Matches b := by
  cases d with
  | none =>
    constructor
    · rintro rfl
      exact ⟨rfl, rfl⟩
    · exact fun h => h.2
  | star | plus =>
    constructor
    · rintro ⟨u, v, rfl, hu, rfl⟩
      rw [append_nil]
      exact hu
    · exact fun h => ⟨b, [], (append_nil b).symm, h, rfl⟩

/-- The bytes that a part of a literal matches. -/
def RegexpPiece.encode : RegexpPiece → Bytes
  | .byte c => [c]
  | .codePoint v => utf8OfCodePoint v
  | .dots _ => []

theorem fullMatch_literal {lit b : Bytes} (hqs : qs.map RegexpPiece.raw = lit.map some) :
    FullMatch qs b ↔ b = qs.flatMap RegexpPiece.encode := by
  induction qs generalizing lit b with
  | nil => rfl
  | cons q qs ih =>
    cases lit with
    | nil => cases hqs
    | cons c lit =>
      obtain ⟨hq, hqs⟩ := List.cons.inj hqs
      have hmatch : ∀ u, q.Matches u ↔ u = q.encode := by
        cases q with
        | byte | codePoint => exact fun u => Iff.rfl
        | dots => cases hq
      rw [FullMatch, flatMap_cons]
      constructor
      · rintro ⟨u, v, rfl, hu, hv⟩
        rw [(hmatch u).mp hu, (ih hqs).mp hv]
      · rintro rfl
        exact ⟨q.encode, _, rfl, (hmatch _).mpr rfl, (ih hqs).mpr rfl⟩

/-- A literal between dots. -/
theorem fullMatch_iff {head tail : Dot} {lit b : Bytes}
    (hqs : qs.map RegexpPiece.raw = lit.map some) :
    FullMatch (head.pieces ++ (qs ++ tail.pieces)) b ↔
      ∃ u w, b = u ++ qs.flatMap RegexpPiece.encode ++ w ∧
        (isText u = true ∧ head.Matches u) ∧ isText w = true ∧ tail.Matches w := by
  rw [fullMatch_append]
  constructor
  · rintro ⟨u, v, rfl, hu, hv⟩
    obtain ⟨v, w, rfl, hv, hw⟩ := fullMatch_append.mp hv
    rw [(fullMatch_literal hqs).mp hv, ← append_assoc]
    exact ⟨u, w, rfl, fullMatch_dots.mp hu, fullMatch_dots.mp hw⟩
  · rintro ⟨u, w, rfl, hu, hw⟩
    refine ⟨u, _, append_assoc _ _ _, fullMatch_dots.mpr hu, ?_⟩
    exact fullMatch_append.mpr ⟨_, w, rfl, (fullMatch_literal hqs).mpr rfl, fullMatch_dots.mpr hw⟩

theorem encode_of_exact {lit : Bytes} (hqs : qs.map RegexpPiece.raw = lit.map some)
    (h : ∀ q ∈ qs, q.Exact) : qs.flatMap RegexpPiece.encode = lit := by
  induction qs generalizing lit with
  | nil => exact (map_eq_nil_iff.mp hqs.symm).symm
  | cons q qs ih =>
    cases lit with
    | nil => cases hqs
    | cons c lit =>
      obtain ⟨hq, hqs⟩ := List.cons.inj hqs
      have hencode : q.encode = [c] := by
        have hexact := h q mem_cons_self
        cases q with
        | byte b =>
          cases hq
          rfl
        | codePoint v =>
          cases hq
          exact if_pos hexact
        | dots d => cases hq
      rw [flatMap_cons, hencode, ih hqs fun q hq => h q (mem_cons_of_mem _ hq)]
      rfl

/-- An escape from 80 on takes two bytes. -/
theorem length_lt_of_not_exact {lit : Bytes} (hqs : qs.map RegexpPiece.raw = lit.map some)
    (h : ∃ q ∈ qs, ¬ q.Exact) :
    lit.length < (qs.flatMap RegexpPiece.encode).length := by
  have hle : ∀ {qs : List RegexpPiece} {lit : Bytes}, qs.map RegexpPiece.raw = lit.map some →
      lit.length ≤ (qs.flatMap RegexpPiece.encode).length := by
    intro qs
    induction qs with
    | nil =>
      intro lit hqs
      rw [map_eq_nil_iff.mp hqs.symm]
      exact le_rfl
    | cons q qs ih =>
      intro lit hqs
      cases lit with
      | nil => cases hqs
      | cons c lit =>
        obtain ⟨hq, hqs⟩ := List.cons.inj hqs
        have hpos : 1 ≤ q.encode.length := by
          cases q with
          | byte b => exact le_rfl
          | codePoint v =>
            rw [RegexpPiece.encode, utf8OfCodePoint]
            split <;> simp
          | dots d => cases hq
        rw [flatMap_cons, length_append, length_cons]
        have := ih hqs
        omega
  obtain ⟨q, hq, hexact⟩ := h
  obtain ⟨qs₁, qs₂, rfl⟩ := append_of_mem hq
  rw [map_append, map_cons] at hqs
  obtain ⟨lit₁, lit', rfl, h₁, h'⟩ := map_eq_append_iff.mp hqs.symm
  obtain ⟨c, lit₂, rfl, hc, h₂⟩ := map_eq_cons_iff.mp h'
  have htwo : q.encode.length = 2 := by
    cases q with
    | byte b => exact absurd trivial hexact
    | codePoint v => exact congrArg List.length (if_neg hexact)
    | dots d => cases hc
  have hle₁ := hle h₁.symm
  have hle₂ := hle h₂.symm
  rw [flatMap_append, flatMap_cons, length_append, length_append,
    length_append, length_cons, htwo]
  omega

/-! ### Full matches byte by byte -/

theorem fullMatchBytes_append {b : Bytes} :
    FullMatchBytes (ps ++ qs) b ↔
      ∃ u v, b = u ++ v ∧ FullMatchBytes ps u ∧ FullMatchBytes qs v := by
  constructor
  · rintro ⟨us, hus, rfl⟩
    refine ⟨(us.take ps.length).flatten, (us.drop ps.length).flatten, ?_,
      ⟨_, (forall₂_take_append us ps qs hus.flip).flip, rfl⟩,
      _, (forall₂_drop_append us ps qs hus.flip).flip, rfl⟩
    rw [← flatten_append, take_append_drop]
  · rintro ⟨u, v, rfl, ⟨us, hus, rfl⟩, vs, hvs, rfl⟩
    exact ⟨us ++ vs, rel_append hus hvs, flatten_append.symm⟩

theorem fullMatchBytes_dots {d : Dot} {b : Bytes} : FullMatchBytes d.pieces b ↔ d.Matches b := by
  cases d with
  | none =>
    constructor
    · rintro ⟨us, hus, rfl⟩
      rw [forall₂_nil_left_iff.mp hus]
      rfl
    · rintro rfl
      exact ⟨[], .nil, rfl⟩
  | star | plus =>
    constructor
    · rintro ⟨us, hus, rfl⟩
      obtain ⟨u, us, hu, hnil, rfl⟩ := forall₂_cons_left_iff.mp hus
      rw [forall₂_nil_left_iff.mp hnil, flatten_cons, flatten_nil, append_nil]
      exact hu
    · exact fun h => ⟨[b], .cons h .nil, by rw [flatten_cons, flatten_nil, append_nil]⟩

theorem fullMatchBytes_literal {lit b : Bytes} (hqs : qs.map RegexpPiece.raw = lit.map some) :
    FullMatchBytes qs b ↔ b = lit := by
  induction qs generalizing lit b with
  | nil =>
    obtain rfl := map_eq_nil_iff.mp hqs.symm
    exact fullMatchBytes_dots (d := .none)
  | cons q qs ih =>
    cases lit with
    | nil => cases hqs
    | cons c lit =>
      obtain ⟨hq, hqs⟩ := List.cons.inj hqs
      have hmatch : ∀ u, q.MatchesBytes u ↔ u = [c] := by
        cases q with
        | byte | codePoint =>
          cases hq
          exact fun u => Iff.rfl
        | dots => cases hq
      constructor
      · rintro ⟨us, hus, rfl⟩
        obtain ⟨u, us, hu, hrest, rfl⟩ := forall₂_cons_left_iff.mp hus
        rw [flatten_cons, (hmatch u).mp hu, (ih hqs).mp ⟨us, hrest, rfl⟩]
        rfl
      · rintro rfl
        obtain ⟨us, hus, hlit⟩ := (ih hqs).mpr rfl
        exact ⟨[c] :: us, .cons ((hmatch _).mpr rfl) hus, congrArg (c :: ·) hlit⟩

/-! ### Where matcher and regexp agree -/

theorem not_isText {u : Bytes} (h : ch '\n' ∈ u) : ¬ isText u = true := by
  simp [isText, h]

/-- The matcher of an optimized regexp is the full match of the regexp byte by byte. -/
theorem optimized_bytes {re : Bytes → Bool} {expr : Bytes}
    (hopt : (getOptimizedReMatchFunc re expr).2 ≠ reMatchCost) (hps : parsePieces expr = some ps)
    (b : Bytes) : (getOptimizedReMatchFunc re expr).1 b = true ↔ FullMatchBytes ps b := by
  obtain ⟨head, tail, qs, lit, rfl, hqs, -, hmatch⟩ := optimized_cases hopt hps
  rw [hmatch, fullMatchBytes_append]
  constructor
  · rintro ⟨u, w, rfl, hu, hw⟩
    refine ⟨u, _, append_assoc _ _ _, fullMatchBytes_dots.mpr hu, ?_⟩
    exact fullMatchBytes_append.mpr
      ⟨lit, w, rfl, (fullMatchBytes_literal hqs).mpr rfl, fullMatchBytes_dots.mpr hw⟩
  · rintro ⟨u, v, rfl, hu, hv⟩
    obtain ⟨v, w, rfl, hv, hw⟩ := fullMatchBytes_append.mp hv
    rw [(fullMatchBytes_literal hqs).mp hv, ← append_assoc]
    exact ⟨u, w, rfl, fullMatchBytes_dots.mp hu, fullMatchBytes_dots.mp hw⟩

/-- The matcher of an optimized regexp agrees with the regexp on all byte strings if and only if the
regexp is a literal with no escape from 80 on. -/
theorem optimized_agrees_iff {re : Bytes → Bool} {expr : Bytes} {ps : List RegexpPiece}
    (hopt : (getOptimizedReMatchFunc re expr).2 ≠ reMatchCost)
    (hps : parsePieces expr = some ps) :
    (∀ b, (getOptimizedReMatchFunc re expr).1 b = true ↔ FullMatch ps b) ↔ ∀ p ∈ ps, p.Exact := by
  obtain ⟨head, tail, qs, lit, rfl, hqs, -, hmatch⟩ := optimized_cases hopt hps
  have hpieces : ∀ d : Dot, (∀ p ∈ d.pieces, p.Exact) ↔ d = .none := by
    intro d
    cases d <;> simp [Dot.pieces, RegexpPiece.Exact]
  have hexact : (∀ p ∈ head.pieces ++ (qs ++ tail.pieces), p.Exact) ↔
      (∀ q ∈ qs, q.Exact) ∧ head = .none ∧ tail = .none := by
    simp only [mem_append, or_imp, forall_and, hpieces]
    tauto
  rw [hexact]
  constructor
  · intro h
    have hall : ∀ q ∈ qs, q.Exact := by
      by_contra hne
      push Not at hne
      have hlen := length_lt_of_not_exact hqs hne
      -- The shortest string with the bytes of the literal is too short for the characters.
      let fill : Dot → Bytes := fun d => if d = .plus then [ch 'x'] else []
      have hfill : ∀ d : Dot, d.Matches (fill d) := by
        intro d
        cases d <;> simp [fill, Dot.Matches]
      have hmin : ∀ (d : Dot) (u : Bytes), d.Matches u → (fill d).length ≤ u.length := by
        intro d u hu
        cases d with
        | none | star => exact Nat.zero_le _
        | plus => exact length_pos_iff.mpr hu
      obtain ⟨u, w, heq, ⟨-, hu⟩, -, hw⟩ := (fullMatch_iff hqs).mp
        ((h (fill head ++ lit ++ fill tail)).mp
          ((hmatch _).mpr ⟨_, _, rfl, hfill head, hfill tail⟩))
      have heq := congrArg List.length heq
      have hminu := hmin head u hu
      have hminw := hmin tail w hw
      simp only [length_append] at heq
      omega
    refine ⟨hall, ?_⟩
    -- Newlines where the dots are.
    let newline : Dot → Bytes := fun d => if d = .none then [] else [ch '\n']
    have hnewline : ∀ d : Dot, d.Matches (newline d) := by
      intro d
      cases d <;> simp [newline, Dot.Matches]
    obtain ⟨u, w, heq, ⟨hutext, hu⟩, hwtext, hw⟩ := (fullMatch_iff hqs).mp
      ((h (newline head ++ lit ++ newline tail)).mp
        ((hmatch _).mpr ⟨_, _, rfl, hnewline head, hnewline tail⟩))
    rw [encode_of_exact hqs hall] at heq
    have hu : u = [] := by
      by_cases hhead : head = .none
      · rw [hhead] at hu
        exact hu
      · cases u with
        | nil => rfl
        | cons c u =>
          simp only [newline, if_neg hhead, cons_append, List.cons.injEq] at heq
          exact absurd hutext (not_isText (heq.1 ▸ mem_cons_self))
    have hw : w = [] := by
      by_cases htail : tail = .none
      · rw [htail] at hw
        exact hw
      · obtain rfl | ⟨w, c, rfl⟩ := w.eq_nil_or_concat
        · rfl
        · simp only [newline, if_neg htail, concat_eq_append, ← append_assoc] at heq
          obtain ⟨-, hlast⟩ := append_inj' heq rfl
          exact absurd hwtext (not_isText (by simp [(List.cons.inj hlast).1]))
    have hlen := congrArg List.length heq
    simp only [hu, hw, length_append, length_nil] at hlen
    have hnone : ∀ d : Dot, (newline d).length = 0 → d = .none := by
      intro d
      cases d <;> simp [newline]
    exact ⟨hnone head (by omega), hnone tail (by omega)⟩
  · rintro ⟨hall, rfl, rfl⟩ b
    rw [hmatch, fullMatch_iff hqs, encode_of_exact hqs hall]
    constructor
    · rintro ⟨u, w, rfl, rfl, rfl⟩
      exact ⟨[], [], rfl, ⟨rfl, rfl⟩, rfl, rfl⟩
    · rintro ⟨u, w, rfl, ⟨-, hu⟩, -, hw⟩
      exact ⟨u, w, rfl, hu, hw⟩

/-- **What an optimized matcher is.** On every byte string it is the full match of the regexp byte
by byte; it is the full match of the regexp as the crate reads it on all of them if and only if the
regexp is a literal with no escape from 80 on. -/
theorem optimized_iff {re : Bytes → Bool} {expr : Bytes} {ps : List RegexpPiece}
    (hopt : (getOptimizedReMatchFunc re expr).2 ≠ reMatchCost)
    (hps : parsePieces expr = some ps) :
    (∀ b, (getOptimizedReMatchFunc re expr).1 b = true ↔ FullMatchBytes ps b) ∧
      ((∀ b, (getOptimizedReMatchFunc re expr).1 b = true ↔ FullMatch ps b) ↔
        ∀ p ∈ ps, p.Exact) :=
  ⟨optimized_bytes hopt hps, optimized_agrees_iff hopt hps⟩

/-- A literal with a dot, which is escaped. -/
theorem optimized_iff_literal :
    let f := (getOptimizedReMatchFunc (fun b => b == ascii "a.b") (ascii "a\\.b")).1
    let ps := [RegexpPiece.byte (ch 'a'), .byte (ch '.'), .byte (ch 'b')]
    (∀ b, f b = true ↔ FullMatchBytes ps b) ∧
      ((∀ b, f b = true ↔ FullMatch ps b) ↔ ∀ p ∈ ps, p.Exact) :=
  optimized_iff (by decide +kernel) (by decide +kernel)

/-! ### A newline -/

/-- What the regexp crate makes of `.*foo`. -/
def dotStarFoo (b : Bytes) : Bool := isText b && decide (ascii "foo" <:+ b)

/-- The regexp `.*foo` does not match a newline before `foo`, and its matcher does. -/
theorem optimized_newline :
    ∃ ps, parsePieces (ascii ".*foo") = some ps ∧
      (getOptimizedReMatchFunc dotStarFoo (ascii ".*foo")).2 ≠ reMatchCost ∧
      (getOptimizedReMatchFunc dotStarFoo (ascii ".*foo")).1 (ascii "\nfoo") = true ∧
      ¬ FullMatch ps (ascii "\nfoo") := by
  have hfoo : [RegexpPiece.byte (ch 'f'), .byte (ch 'o'), .byte (ch 'o')].map RegexpPiece.raw =
      (ascii "foo").map some := by decide +kernel
  refine ⟨Dot.star.pieces ++ ([.byte (ch 'f'), .byte (ch 'o'), .byte (ch 'o')] ++ Dot.none.pieces),
    by decide +kernel, by decide +kernel, by decide +kernel, fun h => ?_⟩
  obtain ⟨u, w, heq, ⟨hu, -⟩, -, rfl⟩ := (fullMatch_iff hfoo).mp h
  have hnewline : ascii "\nfoo" = [ch '\n'] ++ ascii "foo" := by decide +kernel
  have hencode := encode_of_exact hfoo (by simp [RegexpPiece.Exact])
  rw [hencode, append_nil, hnewline] at heq
  obtain rfl := append_cancel_right heq
  exact not_isText (mem_singleton_self _) hu

end Esmetrics
