import Mathlib.Data.List.Lex
import Mathlib.Data.List.Infix
import Mathlib.Order.Lattice

/-!
# Common prefixes in the lexicographic order

Strings with a common prefix compare as what is left of them behind it (`append_le_append_iff`), and
the strings between two strings that start with a prefix start with it too (`isPrefix_of_between`).
So a common prefix of the first and the last string of a sorted list is one of all of them.
-/

namespace Esmetrics

open List

section CommonPrefix

variable {α : Type*} [DecidableEq α]

/-- The length of the common prefix of two lists. -/
def commonPrefixLen : List α → List α → ℕ
  | a :: as, b :: bs => if a = b then commonPrefixLen as bs + 1 else 0
  | _, _ => 0

theorem commonPrefixLen_le_left (as bs : List α) : commonPrefixLen as bs ≤ as.length := by
  induction as generalizing bs with
  | nil => simp [commonPrefixLen]
  | cons a as ih =>
    cases bs with
    | nil => simp [commonPrefixLen]
    | cons b bs =>
      rw [commonPrefixLen]
      split_ifs
      · simpa using ih bs
      · exact Nat.zero_le _

theorem take_commonPrefixLen (as bs : List α) :
    bs.take (commonPrefixLen as bs) = as.take (commonPrefixLen as bs) := by
  induction as generalizing bs with
  | nil => simp [commonPrefixLen]
  | cons a as ih =>
    cases bs with
    | nil => simp [commonPrefixLen]
    | cons b bs =>
      rw [commonPrefixLen]
      split_ifs with h
      · rw [take_succ_cons, take_succ_cons, ih, h]
      · rfl

theorem commonPrefixLen_le_right (as bs : List α) : commonPrefixLen as bs ≤ bs.length := by
  have h := congrArg List.length (take_commonPrefixLen as bs)
  have := commonPrefixLen_le_left as bs
  rw [length_take, length_take] at h
  omega

/-- What the two lists have in common. -/
theorem take_append_drop_commonPrefixLen (as bs : List α) :
    as.take (commonPrefixLen as bs) ++ bs.drop (commonPrefixLen as bs) = bs := by
  rw [← take_commonPrefixLen, take_append_drop]

theorem le_commonPrefixLen {p as bs : List α} (ha : p <+: as) (hb : p <+: bs) :
    p.length ≤ commonPrefixLen as bs := by
  induction p generalizing as bs with
  | nil => exact Nat.zero_le _
  | cons c p ih =>
    obtain ⟨as, rfl⟩ := ha
    obtain ⟨bs, rfl⟩ := hb
    rw [cons_append, cons_append, commonPrefixLen, if_pos rfl, length_cons]
    exact Nat.succ_le_succ (ih (prefix_append _ _) (prefix_append _ _))

theorem isPrefix_take_commonPrefixLen {p as bs : List α} (ha : p <+: as) (hb : p <+: bs) :
    p <+: as.take (commonPrefixLen as bs) :=
  prefix_take_iff.mpr ⟨ha, le_commonPrefixLen ha hb⟩

/-- The longest prefix of all the lists of a list. -/
def IsLongestCommonPrefix (p : List α) (ls : List (List α)) : Prop :=
  (∀ l ∈ ls, p <+: l) ∧ ∀ q, (∀ l ∈ ls, q <+: l) → q <+: p

end CommonPrefix

section Order

variable {α : Type*} [LinearOrder α]

variable {as bs : List α}

theorem append_lt_append_iff (p : List α) : p ++ as < p ++ bs ↔ as < bs := by
  induction p with
  | nil => rfl
  | cons c p ih => rw [cons_append, cons_append, cons_lt_cons_iff]; simp [ih]

theorem append_le_append_iff (p : List α) : p ++ as ≤ p ++ bs ↔ as ≤ bs := by
  rw [← not_lt, append_lt_append_iff, not_lt]

theorem cons_le_cons_iff_lex {a b : α} :
    a :: as ≤ b :: bs ↔ a < b ∨ a = b ∧ as ≤ bs := by
  rw [← not_lt, cons_lt_cons_iff, not_or, not_and, not_lt]
  constructor
  · rintro ⟨hab, hlt⟩
    rcases hab.lt_or_eq with h | h
    · exact .inl h
    · exact .inr ⟨h, not_lt.mp (hlt h.symm)⟩
  · rintro (h | ⟨rfl, h⟩)
    · exact ⟨h.le, fun heq => absurd heq h.ne'⟩
    · exact ⟨le_rfl, fun _ => not_lt.mpr h⟩

theorem le_append_right (as bs : List α) : as ≤ as ++ bs := by
  have hnil : [] ≤ bs := by
    cases bs with
    | nil => exact le_rfl
    | cons b bs => exact (nil_lt_cons b bs).le
  have h := (append_le_append_iff as).mpr hnil
  rwa [append_nil] at h

/-- What is between two lists with a prefix has the prefix. -/
theorem isPrefix_of_between {p cs : List α} (ha : p <+: as) (hc : p <+: cs) (hab : as ≤ bs)
    (hbc : bs ≤ cs) : p <+: bs := by
  induction p generalizing as bs cs with
  | nil => exact nil_prefix
  | cons x p ih =>
    obtain ⟨as, rfl⟩ := ha
    obtain ⟨cs, rfl⟩ := hc
    rw [cons_append] at hab hbc
    cases bs with
    | nil => exact absurd hab (not_le.mpr (nil_lt_cons _ _))
    | cons b bs =>
      rw [cons_le_cons_iff_lex] at hab hbc
      obtain rfl : x = b := by
        rcases hab with h | ⟨h, -⟩
        · rcases hbc with h' | ⟨h', -⟩
          · exact absurd (h.trans h') (lt_irrefl _)
          · exact h'.symm
        · exact h
      have hab' := (hab.resolve_left (lt_irrefl _)).2
      have hbc' := (hbc.resolve_left (lt_irrefl _)).2
      exact cons_prefix_cons.mpr
        ⟨rfl, ih (prefix_append _ _) (prefix_append _ _) hab' hbc'⟩

/-- The longest common prefix of a sorted list, from its first and its last element. -/
theorem isLongestCommonPrefix_of_sorted {cs : List α} {ls : List (List α)}
    (hfirst : ls.head? = some as)
    (hlast : ls.getLast? = some cs) (hsorted : ls.Pairwise (· ≤ ·)) :
    IsLongestCommonPrefix (as.take (commonPrefixLen as cs)) ls := by
  have hmemFirst : as ∈ ls := mem_of_head? hfirst
  have hmemLast : cs ∈ ls := mem_of_getLast? hlast
  have hle : ∀ l ∈ ls, as ≤ l ∧ l ≤ cs := by
    intro l hl
    constructor
    · obtain ⟨ls, rfl⟩ := head?_eq_some_iff.mp hfirst
      rcases mem_cons.mp hl with rfl | hl
      · exact le_rfl
      · exact (pairwise_cons.mp hsorted).1 l hl
    · obtain ⟨ls, rfl⟩ := getLast?_eq_some_iff.mp hlast
      rcases mem_append.mp hl with hl | hl
      · exact (pairwise_append.mp hsorted).2.2 l hl cs (mem_singleton_self cs)
      · rw [mem_singleton.mp hl]
  refine ⟨fun l hl => ?_, fun q hq => isPrefix_take_commonPrefixLen (hq as hmemFirst)
    (hq cs hmemLast)⟩
  refine isPrefix_of_between (List.take_prefix _ _) ?_ (hle l hl).1 (hle l hl).2
  rw [← take_commonPrefixLen]
  exact take_prefix _ _

end Order

end Esmetrics
