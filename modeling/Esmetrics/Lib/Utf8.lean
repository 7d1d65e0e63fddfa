import Esmetrics.Lib.FixedWidth
import Esmetrics.Lib.Lines

/-!
# UTF-8

Valid UTF-8, and the lossy conversion that puts U+FFFD in the place of every maximal invalid
sequence. Both read byte by byte and keep the bytes of the character they are in.

The lossy conversion gives valid UTF-8 (`isValidUtf8_fromUtf8Lossy`) and changes nothing in a text
that is valid (`fromUtf8Lossy_of_isValidUtf8`); a text is valid when its parts at an ASCII character
are (`isValidUtf8_append_cons`).
-/

namespace Esmetrics

open List

/-- A continuation byte. -/
def isContinuation (c : UInt8) : Bool := 0x80 ≤ c && c ≤ 0xBF

/-- The number of bytes of the characters that start with a byte, or zero. -/
def utf8Width (b : UInt8) : ℕ :=
  if b < 0x80 then 1
  else if 0xC2 ≤ b ∧ b ≤ 0xDF then 2
  else if 0xE0 ≤ b ∧ b ≤ 0xEF then 3
  else if 0xF0 ≤ b ∧ b ≤ 0xF4 then 4
  else 0

/-- The byte can follow the first byte of a character. -/
def followsFirst (b c : UInt8) : Bool :=
  isContinuation c &&
    if b = 0xE0 then 0xA0 ≤ c else if b = 0xED then c ≤ 0x9F
    else if b = 0xF0 then 0x90 ≤ c else if b = 0xF4 then c ≤ 0x8F else true

/-- The byte can follow the bytes read of a character. -/
def utf8Follows (pending : Bytes) (c : UInt8) : Bool :=
  match pending with
  | [] => false
  | [b] => followsFirst b c
  | _ => isContinuation c

/-- With this byte the bytes read of a character are all of it. -/
def utf8Completes (pending : Bytes) : Bool := pending.length + 1 = utf8Width (pending.headD 0)

/-- The bytes read of a character after one more byte, or `none` when the byte is invalid there. -/
def utf8Step (pending : Bytes) (c : UInt8) : Option Bytes :=
  if pending = [] then
    if utf8Width c = 1 then some [] else if utf8Width c = 0 then none else some [c]
  else if utf8Follows pending c then some (if utf8Completes pending then [] else pending ++ [c])
  else none

/-- The text is valid UTF-8. -/
def isValidUtf8 (s : Bytes) : Bool := s.foldlM utf8Step [] = some []

/-- The character U+FFFD. -/
def replacementChar : Bytes := [0xEF, 0xBF, 0xBD]

/-- The lossy conversion, where some bytes of a character are read. -/
def lossyFrom (pending : Bytes) : Bytes → Bytes
  | [] => if pending = [] then [] else replacementChar
  | c :: s =>
    match utf8Step pending c with
    | some next => (if next = [] then pending ++ [c] else []) ++ lossyFrom next s
    | none =>
      if pending = [] then replacementChar ++ lossyFrom [] s
      else
        replacementChar ++
          match utf8Step [] c with
          | some next => (if next = [] then [c] else []) ++ lossyFrom next s
          | none => replacementChar ++ lossyFrom [] s

/-- The conversion `String::from_utf8_lossy`. -/
def fromUtf8Lossy (s : Bytes) : Bytes := lossyFrom [] s

example : fromUtf8Lossy [0x61, 0xE2, 0x82, 0x62, 0xFF, 0xC3, 0xA4] =
    [0x61, 0xEF, 0xBF, 0xBD, 0x62, 0xEF, 0xBF, 0xBD, 0xC3, 0xA4] := by decide

/-! ### Texts cut at an ASCII character -/

variable {pending s next : Bytes} {c : UInt8}

theorem utf8Step_ascii (hc : c < 0x80) :
    utf8Step pending c = if pending = [] then some [] else none := by
  rw [utf8Step]
  split_ifs with hpending hwidth hzero hfollows
  · rfl
  · rw [utf8Width, if_pos hc] at hzero
    cases hzero
  · rw [utf8Width, if_pos hc] at hwidth
    exact absurd rfl hwidth
  · have hcont : isContinuation c = true := by
      obtain ⟨b, rest, rfl⟩ := exists_cons_of_ne_nil hpending
      cases rest with
      | nil => exact (Bool.and_eq_true_iff.mp hfollows).1
      | cons b' rest => exact hfollows
    rw [isContinuation, Bool.and_eq_true, decide_eq_true_iff] at hcont
    exact absurd hc (not_lt.mpr hcont.1)
  · rfl

/-- A text is valid exactly when its parts before and after an ASCII character are. -/
theorem isValidUtf8_append_cons {t : Bytes} (hc : c < 0x80) :
    isValidUtf8 (s ++ c :: t) = true ↔ isValidUtf8 s = true ∧ isValidUtf8 t = true := by
  rw [isValidUtf8, isValidUtf8, isValidUtf8, decide_eq_true_iff, decide_eq_true_iff,
    decide_eq_true_iff, foldlM_append]
  cases hs : s.foldlM utf8Step [] with
  | none => simp
  | some pending =>
    simp only [Option.bind_eq_bind, Option.bind_some, foldlM_cons, utf8Step_ascii hc,
      Option.some.injEq]
    by_cases hpending : pending = []
    · simp [hpending]
    · simp [hpending]

theorem isValidUtf8_of_ascii (h : ∀ c ∈ s, c < 0x80) : isValidUtf8 s = true := by
  induction s with
  | nil => rfl
  | cons c s ih =>
    exact (isValidUtf8_append_cons (s := []) (h c (mem_cons_self ..))).mpr
      ⟨rfl, ih fun d hd => h d (mem_cons_of_mem _ hd)⟩

theorem foldlM_utf8Step_ascii (hne : s ≠ []) (h : ∀ c ∈ s, c < 0x80) (pending : Bytes) :
    s.foldlM utf8Step pending = if pending = [] then some [] else none := by
  obtain ⟨c, s, rfl⟩ := exists_cons_of_ne_nil hne
  rw [foldlM_cons, utf8Step_ascii (h c mem_cons_self)]
  split_ifs with hpending
  · exact of_decide_eq_true (isValidUtf8_of_ascii fun d hd => h d (mem_cons_of_mem c hd))
  · rfl

/-- Writing ASCII characters as ASCII texts does not change whether a text is valid. -/
theorem isValidUtf8_flatMap {code : UInt8 → Bytes}
    (hascii : ∀ c, c < 0x80 → code c ≠ [] ∧ ∀ d ∈ code c, d < 0x80)
    (hother : ∀ c, ¬ c < 0x80 → code c = [c])
    (s : Bytes) : isValidUtf8 (s.flatMap code) = isValidUtf8 s := by
  have hgen : ∀ pending, (s.flatMap code).foldlM utf8Step pending = s.foldlM utf8Step pending := by
    induction s with
    | nil => exact fun _ => rfl
    | cons c s ih =>
      intro pending
      rw [flatMap_cons, foldlM_append, foldlM_cons]
      by_cases hc : c < 0x80
      · rw [foldlM_utf8Step_ascii (hascii c hc).1 (hascii c hc).2, utf8Step_ascii hc]
        exact congrArg (_ >>= ·) (funext ih)
      · have hone : [c].foldlM utf8Step pending = utf8Step pending c := by
          rw [foldlM_cons]
          exact bind_pure _
        rw [hother c hc, hone]
        exact congrArg (_ >>= ·) (funext ih)
  rw [isValidUtf8, isValidUtf8, hgen]

/-- Texts are all valid exactly when they are with an ASCII character between them. -/
theorem isValidUtf8_intercalate (hc : c < 0x80) (blocks : List Bytes) :
    isValidUtf8 ([c].intercalate blocks) = blocks.all isValidUtf8 := by
  induction blocks with
  | nil => rfl
  | cons b bs ih =>
    cases bs with
    | nil => rw [intercalate_singleton, all_cons, all_nil, Bool.and_true]
    | cons b' bs =>
      rw [intercalate_cons_cons, append_assoc, singleton_append, all_cons, ← ih, Bool.eq_iff_iff,
        Bool.and_eq_true, isValidUtf8_append_cons hc]

/-- The pieces of a valid text that is cut at an ASCII character are valid. -/
theorem isValidUtf8_of_mem_splitOn {piece : Bytes} (hc : c < 0x80) (hs : isValidUtf8 s = true)
    (hpiece : piece ∈ s.splitOn c) : isValidUtf8 piece = true := by
  induction s using line_induction c with
  | last l hl =>
    rw [splitOn_eq_singleton hl, mem_singleton] at hpiece
    exact hpiece ▸ hs
  | line l s hl ih =>
    rw [splitOn_append_cons_self_of_not_mem hl, mem_cons] at hpiece
    obtain ⟨hl, hs⟩ := (isValidUtf8_append_cons hc).mp hs
    obtain rfl | hpiece := hpiece
    · exact hl
    · exact ih hs hpiece

theorem utf8Step_ff (pending : Bytes) : utf8Step pending 0xFF = none := by
  rw [utf8Step]
  by_cases hpending : pending = []
  · rw [if_pos hpending]
    decide
  · have hfollows : utf8Follows pending 0xFF = false := by
      obtain ⟨b, rest, rfl⟩ := exists_cons_of_ne_nil hpending
      cases rest with
      | nil =>
        rw [utf8Follows, followsFirst, (by decide : isContinuation 0xFF = false), Bool.false_and]
      | cons b' rest => exact (by decide : isContinuation 0xFF = false)
    rw [if_neg hpending, hfollows, if_neg Bool.false_ne_true]

/-- The byte 255 is not in a valid text. -/
theorem not_mem_of_isValidUtf8 (h : isValidUtf8 s = true) : (0xFF : UInt8) ∉ s := by
  intro hmem
  obtain ⟨t, r, rfl, -⟩ := eq_append_cons_of_mem hmem
  rw [isValidUtf8, decide_eq_true_iff, foldlM_append] at h
  obtain ⟨pending, -, hrest⟩ := Option.bind_eq_some_iff.mp h
  rw [foldlM_cons, utf8Step_ff] at hrest
  cases hrest

/-! ### The lossy conversion -/

/-- The bytes are the start of a character. -/
def IsPending (pending : Bytes) : Prop := pending.foldlM utf8Step [] = some pending

theorem isPending_nil : IsPending [] := rfl

/-- After one more byte a character is read, or the bytes are the start of one. -/
theorem utf8Step_cases (hstep : utf8Step pending c = some next) :
    next = [] ∨ next = pending ++ [c] := by
  rw [utf8Step] at hstep
  split_ifs at hstep with hpending hwidth hzero hfollows hcompletes
  · exact .inl (Option.some.inj hstep).symm
  · rw [hpending]
    exact .inr (Option.some.inj hstep).symm
  · exact .inl (Option.some.inj hstep).symm
  · exact .inr (Option.some.inj hstep).symm

theorem IsPending.foldlM_append (h : IsPending pending) (hstep : utf8Step pending c = some next) :
    (pending ++ [c]).foldlM utf8Step [] = some next := by
  rw [List.foldlM_append, h]
  simpa using hstep

theorem IsPending.step (h : IsPending pending) (hstep : utf8Step pending c = some next) :
    IsPending next := by
  obtain rfl | rfl := utf8Step_cases hstep
  · exact isPending_nil
  · exact h.foldlM_append hstep

theorem isValidUtf8_append {t : Bytes} (hs : isValidUtf8 s = true) :
    isValidUtf8 (s ++ t) = isValidUtf8 t := by
  rw [isValidUtf8, decide_eq_true_iff] at hs
  rw [isValidUtf8, isValidUtf8, foldlM_append, hs]
  rfl

theorem isValidUtf8_replacementChar_append (s : Bytes) :
    isValidUtf8 (replacementChar ++ s) = isValidUtf8 s :=
  isValidUtf8_append (by decide)

/-- What is written for a valid byte: a character when it is read, and nothing before. -/
theorem isValidUtf8_step_append (h : IsPending pending) (hstep : utf8Step pending c = some next) :
    isValidUtf8 ((if next = [] then pending ++ [c] else []) ++ s) = isValidUtf8 s := by
  split_ifs with hnext
  · refine isValidUtf8_append ?_
    rw [isValidUtf8, decide_eq_true_iff, h.foldlM_append hstep, hnext]
  · rfl

theorem isValidUtf8_lossyFrom (h : IsPending pending) (s : Bytes) :
    isValidUtf8 (lossyFrom pending s) = true := by
  induction s generalizing pending with
  | nil =>
    rw [lossyFrom]
    split_ifs <;> decide
  | cons c s ih =>
    rw [lossyFrom]
    split
    · rename_i next hstep
      rw [isValidUtf8_step_append h hstep]
      exact ih (h.step hstep)
    · split_ifs
      · rw [isValidUtf8_replacementChar_append]
        exact ih isPending_nil
      · rw [isValidUtf8_replacementChar_append]
        split
        · rename_i next hstep
          have hwritten := isValidUtf8_step_append (s := lossyFrom next s) isPending_nil hstep
          rw [nil_append] at hwritten
          rw [hwritten]
          exact ih (isPending_nil.step hstep)
        · rw [isValidUtf8_replacementChar_append]
          exact ih isPending_nil

/-- The lossy conversion gives valid UTF-8. -/
theorem isValidUtf8_fromUtf8Lossy (s : Bytes) : isValidUtf8 (fromUtf8Lossy s) = true :=
  isValidUtf8_lossyFrom isPending_nil s

theorem lossyFrom_append_cons (hc : c < 0x80) (pending s t : Bytes) :
    lossyFrom pending (s ++ c :: t) = lossyFrom pending s ++ c :: lossyFrom [] t := by
  induction s generalizing pending with
  | nil =>
    have hfirst : utf8Step [] c = some [] := utf8Step_ascii hc
    rw [nil_append, lossyFrom, lossyFrom, utf8Step_ascii hc]
    split_ifs with hpending
    · rw [hpending]
      rfl
    · rw [hfirst]
      rfl
  | cons d s ih =>
    rw [cons_append, lossyFrom, lossyFrom]
    cases utf8Step pending d with
    | some next => simp only [ih, append_assoc]
    | none =>
      dsimp only
      split_ifs
      · rw [ih, append_assoc]
      · cases utf8Step [] d with
        | some next => simp only [ih, append_assoc]
        | none => simp only [ih, append_assoc]

/-- The lossy conversion of the parts of a text at an ASCII character. -/
theorem fromUtf8Lossy_append_cons (hc : c < 0x80) (s t : Bytes) :
    fromUtf8Lossy (s ++ c :: t) = fromUtf8Lossy s ++ c :: fromUtf8Lossy t :=
  lossyFrom_append_cons hc [] s t

theorem lossyFrom_of_valid (h : s.foldlM utf8Step pending = some []) :
    lossyFrom pending s = pending ++ s := by
  induction s generalizing pending with
  | nil =>
    obtain rfl : pending = [] := Option.some.inj h
    rfl
  | cons c s ih =>
    rw [foldlM_cons, Option.bind_eq_bind, Option.bind_eq_some_iff] at h
    obtain ⟨next, hstep, hnext⟩ := h
    rw [lossyFrom, hstep]
    simp only [ih hnext]
    obtain rfl | rfl := utf8Step_cases hstep
    · simp
    · simp

/-- The lossy conversion does not change a valid text. -/
theorem fromUtf8Lossy_of_isValidUtf8 (h : isValidUtf8 s = true) : fromUtf8Lossy s = s :=
  lossyFrom_of_valid (of_decide_eq_true h)

end Esmetrics
