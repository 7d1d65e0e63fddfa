import Esmetrics.Lib.FixedWidth

/-!
# References to captures

The replacement strings of the regex crate: `$name` and `${name}` stand for the capture group
`name`, which is the longest possible name without braces, a group that does not exist is empty,
`$$` is a dollar sign, and any other dollar sign is itself. `expand` is this for a match whose
groups are `group`.

A replacement that was put together from plain bytes and references in braces (`Ref`) expands to
these bytes and the groups for all groups, exactly when none of the dollar signs among the bytes
starts something (`expand_text_iff`).
-/

namespace Esmetrics

open List

namespace CaptureRefs

/-- `b'$'`. -/
def dollar : UInt8 := '$'.toUInt8

def openBrace : UInt8 := '{'.toUInt8

def closeBrace : UInt8 := '}'.toUInt8

/-- The bytes of a name without braces. -/
def isCapLetter (b : UInt8) : Bool :=
  '0'.toUInt8 ≤ b && b ≤ '9'.toUInt8 || 'a'.toUInt8 ≤ b && b ≤ 'z'.toUInt8 ||
    'A'.toUInt8 ≤ b && b ≤ 'Z'.toUInt8 || b = '_'.toUInt8

/-- The name of the reference that a dollar sign before the text starts, and what is after it. -/
def findCapRef : Bytes → Option (Bytes × Bytes)
  | [] => none
  | c :: s =>
    if c = openBrace then
      match s.dropWhile (· ≠ closeBrace) with
      | [] => none
      | _ :: rest => some (s.takeWhile (· ≠ closeBrace), rest)
    else if isCapLetter c then some (c :: s.takeWhile isCapLetter, s.dropWhile isCapLetter)
    else none

theorem length_of_findCapRef {s name rest : Bytes} (h : findCapRef s = some (name, rest)) :
    rest.length < s.length := by
  cases s with
  | nil => exact nomatch h
  | cons c s =>
    rw [findCapRef] at h
    rw [length_cons]
    split_ifs at h with hbrace hletter
    · split at h
      · exact nomatch h
      · next b rest' hdrop =>
        obtain ⟨-, rfl⟩ := Prod.mk.inj (Option.some.inj h)
        have hle := (dropWhile_suffix (fun b : UInt8 => decide (b ≠ closeBrace)) (l := s)).length_le
        rw [hdrop, length_cons] at hle
        omega
    · obtain ⟨-, rfl⟩ := Prod.mk.inj (Option.some.inj h)
      have hle := (dropWhile_suffix isCapLetter (l := s)).length_le
      omega

/-- Expands the references. -/
def expand (group : Bytes → Bytes) : Bytes → Bytes
  | [] => []
  | b :: s =>
    if b ≠ dollar then b :: expand group s
    else if s.head? = some dollar then b :: expand group s.tail
    else
      match _href : findCapRef s with
      | some (name, rest) => group name ++ expand group rest
      | none => b :: expand group s
termination_by s => s.length
decreasing_by
  · simp
  · simp
  · have hlt := length_of_findCapRef _href
    simp only [length_cons]
    omega
  · simp

/-- A dollar sign before the text is not itself alone. -/
def StartsRef (s : Bytes) : Prop := s.head? = some dollar ∨ (findCapRef s).isSome

instance (s : Bytes) : Decidable (StartsRef s) := inferInstanceAs (Decidable (_ ∨ _))

section Expand

variable (group : Bytes → Bytes)

@[simp]
theorem expand_nil : expand group [] = [] := by rw [expand]

theorem expand_cons_of_ne {b : UInt8} (h : b ≠ dollar) (s : Bytes) :
    expand group (b :: s) = b :: expand group s := by
  rw [expand, if_pos h]

theorem expand_dollar_dollar (s : Bytes) : expand group (dollar :: dollar :: s) =
    dollar :: expand group s := by
  rw [expand, if_neg (not_not.mpr rfl), head?_cons, if_pos rfl, tail_cons]

theorem expand_dollar_of_not_startsRef {s : Bytes} (h : ¬ StartsRef s) :
    expand group (dollar :: s) = dollar :: expand group s := by
  rw [StartsRef, not_or] at h
  rw [expand, if_neg (not_not.mpr rfl), if_neg h.1]
  split
  · next name rest href => exact absurd (by rw [href]; rfl) h.2
  · rfl

theorem expand_ref {s name rest : Bytes} (h : findCapRef s = some (name, rest)) :
    expand group (dollar :: s) = group name ++ expand group rest := by
  have hhead : s.head? ≠ some dollar := by
    intro hhead
    cases s with
    | nil => exact nomatch h
    | cons c s =>
      obtain rfl := Option.some.inj hhead
      rw [findCapRef, if_neg (by decide), if_neg (by decide)] at h
      cases h
  rw [expand, if_neg (not_not.mpr rfl), if_neg hhead]
  split
  · next name' rest' href =>
    obtain ⟨rfl, rfl⟩ := Prod.mk.inj (Option.some.inj (href.symm.trans h))
    rfl
  · next href => exact nomatch href.symm.trans h

theorem expand_of_notMem {s : Bytes} (h : dollar ∉ s) : expand group s = s := by
  induction s with
  | nil => exact expand_nil group
  | cons b s ih =>
    rw [mem_cons, not_or] at h
    rw [expand_cons_of_ne group (Ne.symm h.1), ih h.2]

theorem findCapRef_braced {name : Bytes} (h : closeBrace ∉ name) (s : Bytes) :
    findCapRef (openBrace :: (name ++ closeBrace :: s)) = some (name, s) := by
  have hname : ∀ b ∈ name, decide (b ≠ closeBrace) = true :=
    fun b hb => decide_eq_true (ne_of_mem_of_not_mem hb h)
  rw [findCapRef, if_pos rfl, dropWhile_append_of_pos hname, takeWhile_append_of_pos hname]
  simp

end Expand

/-! ### Replacements from pieces -/

/-- A byte of a replacement, or a reference in braces. -/
inductive Ref
  | byte (b : UInt8)
  | group (name : Bytes)

namespace Ref

def text : Ref → Bytes
  | byte b => [b]
  | group name => dollar :: openBrace :: (name ++ [closeBrace])

/-- What the piece stands for. -/
def value (groups : Bytes → Bytes) : Ref → Bytes
  | byte b => [b]
  | group name => groups name

/-- The name of a reference ends at its closing brace. -/
def WellFormed : Ref → Prop
  | byte _ => True
  | group name => closeBrace ∉ name

end Ref

/-- No dollar sign among the bytes starts something. -/
def Inert : List Ref → Prop
  | [] => True
  | .byte b :: refs => (b = dollar → ¬ StartsRef (refs.flatMap Ref.text)) ∧ Inert refs
  | .group _ :: refs => Inert refs

instance decidableInert : (refs : List Ref) → Decidable (Inert refs)
  | [] => .isTrue trivial
  | .byte _ :: refs =>
    have := decidableInert refs
    inferInstanceAs (Decidable (_ ∧ _))
  | .group _ :: refs => decidableInert refs

variable {refs : List Ref}

theorem text_group_cons (name : Bytes) (refs : List Ref) :
    (Ref.group name :: refs).flatMap Ref.text =
      dollar :: openBrace :: (name ++ closeBrace :: refs.flatMap Ref.text) := by
  simp [Ref.text]

theorem expand_group_cons (group : Bytes → Bytes) {name : Bytes} (h : (Ref.group name).WellFormed)
    (refs : List Ref) : expand group ((Ref.group name :: refs).flatMap Ref.text) =
      group name ++ expand group (refs.flatMap Ref.text) := by
  rw [text_group_cons, expand_ref group (findCapRef_braced h _)]

theorem expand_text_of_inert (group : Bytes → Bytes) (hwf : ∀ ref ∈ refs, ref.WellFormed)
    (h : Inert refs) : expand group (refs.flatMap Ref.text) = refs.flatMap (Ref.value group) := by
  induction refs with
  | nil => exact expand_nil group
  | cons ref refs ih =>
    obtain ⟨href, hrefs⟩ := forall_mem_cons.mp hwf
    cases ref with
    | byte b =>
      rw [flatMap_cons, flatMap_cons, ← ih hrefs h.2]
      by_cases hb : b = dollar
      · subst hb
        exact expand_dollar_of_not_startsRef group (h.1 rfl)
      · exact expand_cons_of_ne group hb _
    | group name =>
      rw [expand_group_cons group href, flatMap_cons, ih hrefs h]
      rfl

/-! ### A dollar sign that starts something -/

/-- A group that is told from a dollar sign and from a brace. -/
def mark (_ : Bytes) : Bytes := [0]

theorem expand_startsRef (h : StartsRef (refs.flatMap Ref.text)) :
    (∃ t, expand mark (dollar :: refs.flatMap Ref.text) = 0 :: t) ∨
      (∃ refs', refs = .byte dollar :: refs' ∧
        expand mark (dollar :: refs.flatMap Ref.text) = dollar ::
        expand mark (refs'.flatMap Ref.text)) ∨
      ∃ name refs' t, refs = .group name :: refs' ∧
        expand mark (dollar :: refs.flatMap Ref.text) = dollar :: openBrace :: t := by
  obtain hhead | href := h
  · right
    cases refs with
    | nil => exact nomatch hhead
    | cons ref refs =>
      cases ref with
      | byte b =>
        obtain rfl := Option.some.inj hhead
        exact .inl ⟨refs, rfl, expand_dollar_dollar mark _⟩
      | group name =>
        rw [text_group_cons, expand_dollar_dollar, expand_cons_of_ne mark (by decide)]
        exact .inr ⟨name, refs, _, rfl, rfl⟩
  · left
    obtain ⟨⟨name, rest⟩, href⟩ := Option.isSome_iff_exists.mp href
    rw [expand_ref mark href]
    exact ⟨_, rfl⟩

/-- Once a dollar sign too few has come out, the expansion stays behind. -/
theorem expand_mark_ne (hwf : ∀ ref ∈ refs, ref.WellFormed) (k : ℕ) :
    expand mark (refs.flatMap Ref.text) ≠ List.replicate (k + 1) dollar ++
    refs.flatMap (Ref.value mark) := by
  induction hn : refs.length using Nat.strongRecOn generalizing refs k with
  | ind n ih =>
    have hcomm (k : ℕ) (v : Bytes) :
        List.replicate (k + 1) dollar ++ dollar :: v = dollar ::
        (List.replicate (k + 1) dollar ++ v) := by
      rw [append_cons, ← replicate_succ', replicate_succ, cons_append]
    cases refs with
    | nil => simp [replicate_succ]
    | cons ref refs =>
      obtain ⟨href, hrefs⟩ := forall_mem_cons.mp hwf
      rw [length_cons] at hn
      cases ref with
      | group name =>
        rw [expand_group_cons mark href, replicate_succ]
        exact fun heq => absurd (List.cons.inj heq).1 (by decide)
      | byte b =>
        by_cases hb : b = dollar
        · subst hb
          change expand mark (dollar :: refs.flatMap Ref.text) ≠
            List.replicate (k + 1) dollar ++ dollar :: refs.flatMap (Ref.value mark)
          rw [hcomm]
          by_cases hstarts : StartsRef (refs.flatMap Ref.text)
          · obtain ⟨t, heq⟩ | ⟨refs', rfl, heq⟩ | ⟨name, refs', t, rfl, heq⟩ :=
              expand_startsRef hstarts
            · rw [heq]
              exact fun h => absurd (List.cons.inj h).1 (by decide)
            · rw [heq]
              intro h
              have htail := (List.cons.inj h).2
              rw [length_cons] at hn
              refine ih refs'.length (by omega) (forall_mem_cons.mp hrefs).2
                (k + 1) rfl (htail.trans ?_)
              change List.replicate (k + 1) dollar ++ dollar :: refs'.flatMap (Ref.value mark) = _
              rw [hcomm, replicate_succ (n := k + 1), cons_append]
            · rw [heq, replicate_succ]
              exact fun h => absurd (List.cons.inj (List.cons.inj h).2).1 (by decide)
          · rw [expand_dollar_of_not_startsRef mark hstarts]
            exact fun h => ih refs.length (by omega) hrefs k rfl (List.cons.inj h).2
        · rw [flatMap_cons, replicate_succ]
          change expand mark (b :: refs.flatMap Ref.text) ≠ _
          rw [expand_cons_of_ne mark hb]
          exact fun h => hb (List.cons.inj h).1

theorem inert_of_expand_mark (hwf : ∀ ref ∈ refs, ref.WellFormed)
    (h : expand mark (refs.flatMap Ref.text) = refs.flatMap (Ref.value mark)) : Inert refs := by
  induction refs with
  | nil => trivial
  | cons ref refs ih =>
    obtain ⟨href, hrefs⟩ := forall_mem_cons.mp hwf
    cases ref with
    | group name =>
      rw [expand_group_cons mark href] at h
      exact ih hrefs (List.cons.inj h).2
    | byte b =>
      change expand mark (b :: refs.flatMap Ref.text) = b :: refs.flatMap (Ref.value mark) at h
      by_cases hb : b = dollar
      · subst hb
        by_cases hstarts : StartsRef (refs.flatMap Ref.text)
        · exfalso
          obtain ⟨t, heq⟩ | ⟨refs', rfl, heq⟩ | ⟨name, refs', t, rfl, heq⟩ :=
            expand_startsRef hstarts
          · rw [heq] at h
            exact absurd (List.cons.inj h).1 (by decide)
          · rw [heq] at h
            exact expand_mark_ne (forall_mem_cons.mp hrefs).2 0 (List.cons.inj h).2
          · rw [heq] at h
            exact absurd (List.cons.inj (List.cons.inj h).2).1 (by decide)
        · rw [expand_dollar_of_not_startsRef mark hstarts] at h
          exact ⟨fun _ => hstarts, ih hrefs (List.cons.inj h).2⟩
      · rw [expand_cons_of_ne mark hb] at h
        exact ⟨fun hb' => absurd hb' hb, ih hrefs (List.cons.inj h).2⟩

/-- The pieces are taken for what they are, whatever the groups are, when no dollar sign starts
something else. -/
theorem expand_text_iff (hwf : ∀ ref ∈ refs, ref.WellFormed) :
    (∀ group, expand group (refs.flatMap Ref.text) = refs.flatMap (Ref.value group)) ↔ Inert refs :=
  ⟨fun h => inert_of_expand_mark hwf (h mark), fun h group => expand_text_of_inert group hwf h⟩

end CaptureRefs

end Esmetrics
