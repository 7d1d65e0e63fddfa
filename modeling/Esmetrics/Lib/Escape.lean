import Mathlib.Data.List.Induction
import Mathlib.Tactic.Common

/-!
# Escaped text

A character is escaped when the run of escape characters before it has odd length. `findUnescaped`
is the usual search for one that is not: it finds the next occurrence and counts back.
`firstUnescaped` is the same search with the parity of the run as its state (`findUnescaped_eq`),
and composes: a word is `Closed` for a separator when it has no unescaped one and does not escape
what follows, so that the search stops right after it.

`unescape` inverts an encoding that writes some characters as an escape sequence
(`unescape_flatMap`).
-/

namespace Esmetrics

open List Option

variable {α : Type} [DecidableEq α]

/-! ### Searching -/

/-- The length of the run of `e` at the end. -/
def trailingCount (e : α) (w : List α) : ℕ := (w.reverse.takeWhile (· = e)).length

/-- The first `c` with an even number of `e` before it. -/
def findUnescaped (e c : α) (w : List α) : Option ℕ :=
  match h : w.idxOf? c with
  | none => none
  | some n =>
    if trailingCount e (w.take n) % 2 = 0 then some n
    else (findUnescaped e c (w.drop (n + 1))).map (· + (n + 1))
termination_by w.length
decreasing_by
  have hpos : w ≠ [] := by
    rintro rfl
    exact nomatch h
  have hlen := length_pos_iff.mpr hpos
  rw [length_drop]
  omega

variable {e c : α}

variable {w : List α} {n : ℕ}

theorem findUnescaped_of_none (h : w.idxOf? c = none) : findUnescaped e c w = none := by
  rw [findUnescaped]
  split
  · rfl
  · next hsome => exact nomatch h.symm.trans hsome

theorem findUnescaped_of_some (h : w.idxOf? c = some n) :
    findUnescaped e c w =
      if trailingCount e (w.take n) % 2 = 0 then some n
      else (findUnescaped e c (w.drop (n + 1))).map (· + (n + 1)) := by
  rw [findUnescaped]
  split
  · next hnone => exact nomatch h.symm.trans hnone
  · next m hsome =>
    obtain rfl := Option.some.inj (h.symm.trans hsome)
    rfl

/-- Whether a character after the word is escaped, when one before it is if `p`. -/
def escapedAfter (e : α) (p : Bool) : List α → Bool
  | [] => p
  | x :: xs => escapedAfter e (if x = e then !p else false) xs

def firstUnescaped (e c : α) (p : Bool) : List α → Option ℕ
  | [] => none
  | x :: xs =>
    if x = c ∧ p = false then some 0
    else (firstUnescaped e c (if x = e then !p else false) xs).map (· + 1)

/-- The first occurrence splits the word. -/
theorem exists_append_of_idxOf? (h : w.idxOf? c = some n) :
    ∃ p r, w = p ++ c :: r ∧ c ∉ p ∧ p.length = n := by
  induction w generalizing n with
  | nil => exact nomatch h
  | cons x w ih =>
    rw [idxOf?_cons] at h
    split at h
    · next hx =>
      obtain rfl := Option.some.inj h
      exact ⟨[], w, by rw [beq_iff_eq.mp hx]; rfl, not_mem_nil, rfl⟩
    · next hx =>
      obtain ⟨m, hm, rfl⟩ := map_eq_some_iff.mp h
      obtain ⟨p, r, rfl, hp, rfl⟩ := ih hm
      refine ⟨x :: p, r, rfl, fun hmem => ?_, rfl⟩
      rcases mem_cons.mp hmem with rfl | hmem
      · exact hx (beq_self_eq_true _)
      · exact hp hmem

theorem lt_length_of_idxOf? (h : w.idxOf? c = some n) : n < w.length := by
  obtain ⟨p, r, rfl, -, rfl⟩ := exists_append_of_idxOf? h
  rw [length_append, length_cons]
  omega

theorem lt_length_of_findUnescaped (h : findUnescaped e c w = some n) :
    n < w.length := by
  induction w using findUnescaped.induct e c generalizing n with
  | case1 w hidx =>
    rw [findUnescaped_of_none hidx] at h
    exact nomatch h
  | case2 w m hidx heven =>
    rw [findUnescaped_of_some hidx, if_pos heven] at h
    obtain rfl := Option.some.inj h
    exact lt_length_of_idxOf? hidx
  | case3 w m hidx hodd ih =>
    rw [findUnescaped_of_some hidx, if_neg hodd] at h
    obtain ⟨k, hk, rfl⟩ := map_eq_some_iff.mp h
    have hlt := ih hk
    rw [length_drop] at hlt
    omega

theorem idxOf?_append_cons {p : List α} (h : c ∉ p) (r : List α) :
    (p ++ c :: r).idxOf? c = some p.length := by
  induction p with
  | nil => rw [nil_append, idxOf?_cons, if_pos (beq_self_eq_true c)]; rfl
  | cons x p ih =>
    have hx : (x == c) ≠ true := fun hx => h (beq_iff_eq.mp hx ▸ mem_cons_self)
    rw [cons_append, idxOf?_cons, if_neg hx, ih fun hmem => h (mem_cons_of_mem x hmem)]
    rfl

theorem escapedAfter_append (p : Bool) (w w' : List α) :
    escapedAfter e p (w ++ w') = escapedAfter e (escapedAfter e p w) w' := by
  induction w generalizing p with
  | nil => rfl
  | cons x w ih => exact ih _

theorem firstUnescaped_append_of_not_mem (p : Bool) (h : c ∉ w) (w' : List α) :
    firstUnescaped e c p (w ++ w') =
      (firstUnescaped e c (escapedAfter e p w) w').map (· + w.length) := by
  induction w generalizing p with
  | nil => simp [escapedAfter]
  | cons x w ih =>
    have hx : ¬ (x = c ∧ p = false) := fun hx => h (hx.1 ▸ mem_cons_self)
    rw [cons_append, firstUnescaped, if_neg hx, ih _ fun hmem => h (mem_cons_of_mem x hmem),
      Option.map_map, escapedAfter]
    rfl

theorem firstUnescaped_eq_none_of_not_mem (p : Bool) (h : c ∉ w) :
    firstUnescaped e c p w = none := by
  have happend := firstUnescaped_append_of_not_mem (e := e) p h []
  rwa [append_nil] at happend

/-- The parity is that of the run at the end. -/
theorem escapedAfter_false (w : List α) :
    escapedAfter e false w = decide (trailingCount e w % 2 = 1) := by
  induction w using List.reverseRecOn with
  | nil => rfl
  | append_singleton w x ih =>
    rw [escapedAfter_append, ih, escapedAfter, escapedAfter, trailingCount, trailingCount,
      reverse_append, reverse_singleton, singleton_append, takeWhile_cons]
    by_cases hx : x = e
    · rw [if_pos hx, if_pos (decide_eq_true hx), length_cons]
      generalize (w.reverse.takeWhile _).length = n
      rcases Nat.mod_two_eq_zero_or_one n with h | h
      · simp [h, Nat.add_mod]
      · simp [h, Nat.add_mod]
    · rw [if_neg hx, if_neg (by simpa using hx)]
      rfl

theorem trailingCount_of_not_mem (h : e ∉ w) : trailingCount e w = 0 := by
  rw [trailingCount]
  cases hrev : w.reverse with
  | nil => rfl
  | cons x xs =>
    have hx : x ≠ e := by
      rintro rfl
      exact h (mem_reverse.mp (hrev ▸ mem_cons_self))
    rw [takeWhile_cons_of_neg (by simpa using hx)]
    rfl

theorem trailingCount_append_singleton {x : α} (h : x ≠ e) (w : List α) :
    trailingCount e (w ++ [x]) = 0 := by
  rw [trailingCount, reverse_append, reverse_singleton, singleton_append,
    takeWhile_cons_of_neg (by simpa using h)]
  rfl

theorem findUnescaped_eq (hne : c ≠ e) (w : List α) :
    findUnescaped e c w = firstUnescaped e c false w := by
  induction w using findUnescaped.induct e c with
  | case1 w h =>
    rw [findUnescaped_of_none h, firstUnescaped_eq_none_of_not_mem false (idxOf?_eq_none_iff.mp h)]
  | case2 w n h heven =>
    rw [findUnescaped_of_some h, if_pos heven]
    obtain ⟨p, r, rfl, hp, rfl⟩ := exists_append_of_idxOf? h
    rw [take_left] at heven
    rw [firstUnescaped_append_of_not_mem false hp, escapedAfter_false, heven, firstUnescaped,
      if_pos ⟨rfl, rfl⟩, map_some, Nat.zero_add]
  | case3 w n h hodd ih =>
    rw [findUnescaped_of_some h, if_neg hodd, ih]
    obtain ⟨p, r, rfl, hp, rfl⟩ := exists_append_of_idxOf? h
    have hdrop : (p ++ c :: r).drop (p.length + 1) = r := by
      rw [← drop_drop, drop_left]
      rfl
    rw [take_left] at hodd
    have hparity : trailingCount e p % 2 = 1 := by omega
    rw [hdrop, firstUnescaped_append_of_not_mem false hp, escapedAfter_false,
      decide_eq_true hparity, firstUnescaped, if_neg (by simp), if_neg hne, Option.map_map]
    congr 1
    funext k
    exact (Nat.add_right_comm k 1 p.length).symm

/-- What is found stays found in a longer word. -/
theorem idxOf?_append_of_some (h : w.idxOf? c = some n) (w' : List α) :
    (w ++ w').idxOf? c = some n := by
  obtain ⟨p, r, rfl, hp, rfl⟩ := exists_append_of_idxOf? h
  rw [append_assoc, cons_append, idxOf?_append_cons hp]

theorem firstUnescaped_append_of_some {p : Bool} (h : firstUnescaped e c p w = some n)
    (w' : List α) : firstUnescaped e c p (w ++ w') = some n := by
  induction w generalizing p n with
  | nil => exact nomatch h
  | cons x w ih =>
    rw [firstUnescaped] at h
    rw [cons_append, firstUnescaped]
    split at h
    · next hx => rw [if_pos hx, h]
    · next hx =>
      obtain ⟨m, hm, rfl⟩ := map_eq_some_iff.mp h
      rw [if_neg hx, ih hm, map_some]

theorem findUnescaped_append_of_some (hne : c ≠ e) (h : findUnescaped e c w = some n)
    (w' : List α) : findUnescaped e c (w ++ w') = some n := by
  rw [findUnescaped_eq hne] at h ⊢
  exact firstUnescaped_append_of_some h w'

theorem firstUnescaped_lt {p : Bool} (h : firstUnescaped e c p w = some n) :
    n < w.length := by
  induction w generalizing p n with
  | nil => exact nomatch h
  | cons x w ih =>
    rw [firstUnescaped] at h
    rw [length_cons]
    split at h
    · rw [← Option.some.inj h]
      omega
    · obtain ⟨m, hm, rfl⟩ := map_eq_some_iff.mp h
      exact Nat.succ_lt_succ (ih hm)

theorem findUnescaped_lt (hne : c ≠ e) (h : findUnescaped e c w = some n) :
    n < w.length := by
  rw [findUnescaped_eq hne] at h
  exact firstUnescaped_lt h

/-! ### Closed words -/

omit [DecidableEq α] in
theorem intercalate_induction {motive : List α → Prop} {sep : List α} {ws : List (List α)}
    (nil : motive []) (append : ∀ u v, motive u → motive v → motive (u ++ v)) (hsep : motive sep)
    (h : ∀ w ∈ ws, motive w) : motive (sep.intercalate ws) := by
  induction ws with
  | nil => exact nil
  | cons w ws ih =>
    have ih := ih fun w' hw' => h w' (mem_cons_of_mem w hw')
    cases ws with
    | nil =>
      rw [intercalate_singleton]
      exact h w mem_cons_self
    | cons w' ws =>
      rw [intercalate_cons_cons]
      exact append _ _ (append _ _ (h w mem_cons_self) hsep) ih

/-- No separator of the word is unescaped, and what follows it is not escaped. -/
structure Closed (e c : α) (w : List α) : Prop where
  first_eq_none : firstUnescaped e c false w = none
  not_escaped : escapedAfter e false w = false

namespace Closed

theorem nil : Closed e c [] := ⟨rfl, rfl⟩

variable {w : List α}

theorem firstUnescaped_append (h : Closed e c w) (w' : List α) :
    firstUnescaped e c false (w ++ w') = (firstUnescaped e c false w').map (· + w.length) := by
  have hgen : ∀ (p : Bool) (w : List α), firstUnescaped e c p w = none →
      firstUnescaped e c p (w ++ w') =
        (firstUnescaped e c (escapedAfter e p w) w').map (· + w.length) := by
    intro p w
    induction w generalizing p with
    | nil => intro _; simp [escapedAfter]
    | cons x w ih =>
      intro hnone
      rw [firstUnescaped] at hnone
      split at hnone
      · exact nomatch hnone
      · next hx =>
        rw [cons_append, firstUnescaped, if_neg hx, ih _ (map_eq_none_iff.mp hnone),
          Option.map_map, escapedAfter]
        rfl
  rw [hgen false w h.first_eq_none, h.not_escaped]

theorem append {w' : List α} (h : Closed e c w) (h' : Closed e c w') : Closed e c (w ++ w') := by
  refine ⟨?_, ?_⟩
  · rw [h.firstUnescaped_append, h'.first_eq_none]
    rfl
  · rw [escapedAfter_append, h.not_escaped, h'.not_escaped]

theorem of_not_mem (hc : c ∉ w) (he : e ∉ w) : Closed e c w := by
  refine ⟨firstUnescaped_eq_none_of_not_mem false hc, ?_⟩
  rw [escapedAfter_false, trailingCount_of_not_mem he]
  rfl

theorem singleton {x : α} (hc : x ≠ c) (he : x ≠ e) : Closed e c [x] :=
  of_not_mem (by simpa using hc.symm) (by simpa using he.symm)

/-- An escape sequence. -/
theorem pair (hne : c ≠ e) (x : α) : Closed e c [e, x] := by
  refine ⟨?_, ?_⟩
  · rw [firstUnescaped, if_neg fun h => hne h.1.symm, if_pos rfl, firstUnescaped, if_neg (by simp)]
    rfl
  · rw [escapedAfter, if_pos rfl, escapedAfter]
    split <;> rfl

theorem flatMap {β : Type} {code : β → List α} {s : List β} (h : ∀ x ∈ s, Closed e c (code x)) :
    Closed e c (s.flatMap code) := by
  induction s with
  | nil => exact nil
  | cons x s ih =>
    rw [flatMap_cons]
    exact (h x mem_cons_self).append (ih fun y hy => h y (mem_cons_of_mem x hy))

theorem intercalate {sep : List α} {ws : List (List α)} (hsep : Closed e c sep)
    (h : ∀ w ∈ ws, Closed e c w) : Closed e c (sep.intercalate ws) :=
  intercalate_induction nil (fun _ _ => append) hsep h

theorem findUnescaped_eq_none (hne : c ≠ e) (h : Closed e c w) :
    findUnescaped e c w = none :=
  (findUnescaped_eq hne w).trans h.first_eq_none

/-- The search stops at the separator after the word. -/
theorem findUnescaped_append (hne : c ≠ e) (h : Closed e c w) (r : List α) :
    findUnescaped e c (w ++ c :: r) = some w.length := by
  rw [findUnescaped_eq hne, h.firstUnescaped_append, firstUnescaped, if_pos ⟨rfl, rfl⟩,
    map_some, Nat.zero_add]

end Closed

/-- Without escape characters it is the plain search. -/
theorem findUnescaped_of_not_mem (h : e ∉ w) : findUnescaped e c w = w.idxOf? c := by
  cases hn : w.idxOf? c with
  | none => exact findUnescaped_of_none hn
  | some n =>
    have hzero : trailingCount e (w.take n) = 0 :=
      trailingCount_of_not_mem fun hmem => h (mem_of_mem_take hmem)
    rw [findUnescaped_of_some hn, hzero, if_pos rfl]

/-! ### Unescaping -/

/-- Replaces every escape sequence; an escape character at the end stays. -/
def unescape (e : α) (decode : α → List α) : List α → List α
  | [] => []
  | [x] => [x]
  | x :: y :: s => if x = e then decode y ++ unescape e decode s
    else x :: unescape e decode (y :: s)

theorem unescape_of_not_mem {decode : α → List α} {s : List α} (h : e ∉ s) :
    unescape e decode s = s := by
  induction s with
  | nil => rfl
  | cons x s ih =>
    cases s with
    | nil => rfl
    | cons y s =>
      have hx : ¬ x = e := fun hx => h (hx ▸ mem_cons_self)
      rw [unescape, if_neg hx, ih fun hmem => h (mem_cons_of_mem x hmem)]

/-- Characters are written as they are, or as escape sequences that are decoded to them. -/
theorem unescape_flatMap {decode code : α → List α} {s : List α}
    (h : ∀ x ∈ s, (code x = [x] ∧ x ≠ e) ∨ ∃ y, code x = [e, y] ∧ decode y = [x]) :
    unescape e decode (s.flatMap code) = s := by
  induction s with
  | nil => rfl
  | cons x s ih =>
    have ih := ih fun y hy => h y (mem_cons_of_mem x hy)
    rw [flatMap_cons]
    obtain ⟨hcode, hx⟩ | ⟨y, hcode, hdecode⟩ := h x mem_cons_self
    · rw [hcode, singleton_append]
      cases hrest : s.flatMap code with
      | nil =>
        rw [hrest] at ih
        rw [← ih]
        rfl
      | cons z r => rw [unescape, if_neg hx, ← hrest, ih]
    · rw [hcode, cons_append, singleton_append, unescape, if_pos rfl, hdecode, ih]
      rfl

end Esmetrics
