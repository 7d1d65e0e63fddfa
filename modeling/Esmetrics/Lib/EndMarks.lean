import Mathlib.Data.List.Basic
import Mathlib.Tactic.Common

/-!
# Marks at the end of a presence

A key is seen in some rounds and not in others, and a mark is to be put in the round in which it is
not seen any more. `ExactMarks` says that the marks of a key do this and nothing else. It is a
statement about pairs of rounds; `exactMarks_cons` takes it apart along the list of the rounds, with
`MarksFollow` for what a mark asks of the later ones.
-/

namespace Esmetrics

/-- What one round shows of a key. -/
structure Sighting where
  live : Bool
  marks : ℕ
deriving DecidableEq

/-- The marks of a key are exact: the end of a presence is marked once, in the round in which the
key is gone, no round both shows and marks the key, and the key is seen between two marks. -/
structure ExactMarks (l : List Sighting) : Prop where
  ends : ∀ (i : ℕ) (a b : Sighting), l[i]? = some a → l[i + 1]? = some b → a.live →
    ¬ b.live → b.marks = 1
  apart : ∀ a ∈ l, a.live → a.marks = 0
  once : ∀ a ∈ l, a.marks ≤ 1
  between : ∀ (i j : ℕ) (a b : Sighting), i < j → l[i]? = some a → l[j]? = some b → 0 < a.marks →
    0 < b.marks →
    ∃ (k : ℕ) (c : Sighting), i < k ∧ k < j ∧ l[k]? = some c ∧ c.live

/-- The key is seen before every mark. -/
def MarksFollow (l : List Sighting) : Prop :=
  ∀ (j : ℕ) (b : Sighting), l[j]? = some b → 0 < b.marks →
    ∃ (k : ℕ) (c : Sighting), k < j ∧ l[k]? = some c ∧ c.live

/-- A key that was just seen is seen again, or gets its mark. -/
def HeadMarked (l : List Sighting) : Prop := ∀ b ∈ l.head?, ¬ b.live → b.marks = 1

variable {a : Sighting} {l : List Sighting}

theorem marksFollow_cons : MarksFollow (a :: l) ↔ a.marks = 0 ∧ (a.live ∨ MarksFollow l) := by
  constructor
  · intro h
    have hzero : a.marks = 0 := by
      by_contra hne
      obtain ⟨k, c, hk, -⟩ := h 0 a rfl (Nat.pos_of_ne_zero hne)
      exact absurd hk (Nat.not_lt_zero k)
    refine ⟨hzero, or_iff_not_imp_left.mpr fun hlive j b hj hb => ?_⟩
    obtain ⟨k, c, hk, hc, hclive⟩ := h (j + 1) b hj hb
    match k with
    | 0 => exact absurd (Option.some.inj hc ▸ hclive) hlive
    | k + 1 => exact ⟨k, c, Nat.lt_of_succ_lt_succ hk, hc, hclive⟩
  · rintro ⟨hzero, h⟩ j b hj hb
    match j with
    | 0 =>
      obtain rfl := Option.some.inj hj
      omega
    | j + 1 =>
      obtain hlive | hfollow := h
      · exact ⟨0, a, Nat.succ_pos j, rfl, hlive⟩
      · obtain ⟨k, c, hk, hc, hclive⟩ := hfollow j b hj hb
        exact ⟨k + 1, c, Nat.succ_lt_succ hk, hc, hclive⟩

/-- The first round of a list that is exact. -/
theorem ExactMarks.head (h : ExactMarks (a :: l)) :
    a.marks ≤ 1 ∧ (a.live → a.marks = 0 ∧ HeadMarked l) ∧ (0 < a.marks → MarksFollow l) := by
  refine ⟨h.once a (List.mem_cons_self ..), fun hlive => ⟨?_, fun b hb hnot => ?_⟩,
    fun hmarks j b hj hb => ?_⟩
  · exact h.apart a (List.mem_cons_self ..) hlive
  · rw [List.head?_eq_getElem?] at hb
    exact h.ends 0 a b rfl hb hlive hnot
  · obtain ⟨k, c, hk, hkj, hc, hlive⟩ := h.between 0 (j + 1) a b (Nat.succ_pos j) rfl hj hmarks hb
    match k with
    | 0 => exact absurd hk (Nat.lt_irrefl 0)
    | k + 1 => exact ⟨k, c, Nat.lt_of_succ_lt_succ hkj, hc, hlive⟩

/-- What follows the first round is exact too. -/
theorem ExactMarks.tail (h : ExactMarks (a :: l)) : ExactMarks l := by
  refine ⟨fun i => h.ends (i + 1), fun b hb => h.apart b (List.mem_cons_of_mem _ hb),
    fun b hb => h.once b (List.mem_cons_of_mem _ hb), fun i j b c hij hi hj hb hc => ?_⟩
  obtain ⟨k, d, hik, hkj, hd, hlive⟩ :=
    h.between (i + 1) (j + 1) b c (Nat.succ_lt_succ hij) hi hj hb hc
  match k with
  | 0 => exact absurd hik (Nat.not_lt_zero _)
  | k + 1 => exact ⟨k, d, Nat.lt_of_succ_lt_succ hik, Nat.lt_of_succ_lt_succ hkj, hd, hlive⟩

/-- **Exactness along the list**: what the first round asks of itself and of the later ones. -/
theorem exactMarks_cons : ExactMarks (a :: l) ↔
    (a.marks ≤ 1 ∧ (a.live → a.marks = 0 ∧ HeadMarked l) ∧ (0 < a.marks → MarksFollow l)) ∧
      ExactMarks l := by
  refine ⟨fun h => ⟨h.head, h.tail⟩, ?_⟩
  rintro ⟨⟨honce, hlive, hmarks⟩, h⟩
  refine ⟨fun i b c hi hc hb hnot => ?_, ?_, ?_, fun i j b c hij hi hj hb hc => ?_⟩
  · match i with
    | 0 =>
      obtain rfl := Option.some.inj hi
      have hhead : l.head? = some c := by rw [List.head?_eq_getElem?]; exact hc
      exact (hlive hb).2 c hhead hnot
    | i + 1 => exact h.ends i b c hi hc hb hnot
  · rintro b (_ | ⟨_, hb⟩) hblive
    · exact (hlive hblive).1
    · exact h.apart b hb hblive
  · rintro b (_ | ⟨_, hb⟩)
    · exact honce
    · exact h.once b hb
  · match j, hij with
    | j + 1, hij =>
      match i with
      | 0 =>
        obtain rfl := Option.some.inj hi
        obtain ⟨k, d, hk, hd, hdlive⟩ := hmarks hb j c hj hc
        exact ⟨k + 1, d, Nat.succ_pos k, Nat.succ_lt_succ hk, hd, hdlive⟩
      | i + 1 =>
        obtain ⟨k, d, hik, hkj, hd, hdlive⟩ :=
          h.between i j b c (Nat.lt_of_succ_lt_succ hij) hi hj hb hc
        exact ⟨k + 1, d, Nat.succ_lt_succ hik, Nat.succ_lt_succ hkj, hd, hdlive⟩

/-- A single round. -/
theorem exactMarks_singleton : ExactMarks [a] ↔ a.marks ≤ 1 ∧ (a.live → a.marks = 0) := by
  have hnil : ExactMarks [] := ⟨by simp, by simp, by simp, by simp⟩
  rw [exactMarks_cons]
  simp [hnil, HeadMarked, MarksFollow]

theorem marksFollow_singleton : MarksFollow [a] ↔ a.marks = 0 := by
  rw [marksFollow_cons, and_iff_left]
  exact .inr fun j b hj => by simp at hj

end Esmetrics
