import Mathlib.Data.List.Pairwise
import Mathlib.Order.Lattice
import Mathlib.Tactic.Common

/-!
# Joins of sorted lists

A list of elements sorted by a key is searched for the elements that have one of the keys of a
second sorted list and meet a condition (`join`). The lemmas say what a cursor over either list may
skip: the elements below all the keys, the keys below all the elements, elements that do not meet
the condition, and a key none of whose elements meets it.

`partitionPoint` is the position where a binary search by a condition ends.
-/

namespace Esmetrics

open List

section PartitionPoint

variable {α : Type} (p : α → Bool)

/-- The position of the first element that does not meet `p`, in a list where all the elements
before it do. -/
def partitionPoint (l : List α) : ℕ := (l.takeWhile p).length

theorem partitionPoint_le_length (l : List α) : partitionPoint p l ≤ l.length :=
  (takeWhile_sublist p).length_le

theorem drop_partitionPoint (l : List α) : l.drop (partitionPoint p l) = l.dropWhile p := by
  rw [partitionPoint]
  induction l with
  | nil => rfl
  | cons a l ih =>
    rw [takeWhile_cons, dropWhile_cons]
    split_ifs
    · simpa using ih
    · rfl

theorem take_partitionPoint (l : List α) : l.take (partitionPoint p l) = l.takeWhile p := by
  rw [partitionPoint]
  induction l with
  | nil => rfl
  | cons a l ih =>
    rw [takeWhile_cons]
    split_ifs
    · simpa using ih
    · rfl

theorem forall_mem_takeWhile {l : List α} : ∀ a ∈ l.takeWhile p, p a = true := by
  rw [← all_eq_true]
  exact all_takeWhile

variable {p} {κ : Type} [LinearOrder κ] {key : α → κ} {k : κ} {l : List α}

/-- The elements before the partition point are below the key. -/
theorem lt_of_mem_take_partitionPoint (hp : ∀ a ∈ l, p a = true ↔ key a < k) {a : α}
    (ha : a ∈ l.take (partitionPoint p l)) : key a < k := by
  rw [take_partitionPoint] at ha
  exact (hp a ((takeWhile_sublist p).subset ha)).mp (forall_mem_takeWhile p a ha)

/-- In a sorted list, the elements from the partition point on are not below the key. -/
theorem le_of_mem_drop_partitionPoint (hsorted : l.Pairwise fun a b => key a ≤ key b)
    (hp : ∀ a ∈ l, p a = true ↔ key a < k) {a : α} (ha : a ∈ l.drop (partitionPoint p l)) :
    k ≤ key a := by
  rw [drop_partitionPoint] at ha
  induction l with
  | nil => cases ha
  | cons b l ih =>
    obtain ⟨hb, hrest⟩ := pairwise_cons.mp hsorted
    rw [dropWhile_cons] at ha
    split_ifs at ha with hpb
    · exact ih hrest (fun a ha => hp a (mem_cons_of_mem _ ha)) ha
    · have hkb : k ≤ key b := not_lt.mp (mt (hp b mem_cons_self).mpr hpb)
      rcases mem_cons.mp ha with rfl | ha
      · exact hkb
      · exact hkb.trans (hb a ha)

end PartitionPoint

section Join

variable {ε κ : Type} [LinearOrder κ] (key : ε → κ) (wanted : ε → Bool)

/-- The elements that have one of the keys and meet the condition. -/
def join (ks : List κ) (es : List ε) : List ε :=
  es.filter fun e => decide (key e ∈ ks) && wanted e

variable {key wanted} {ks : List κ} {es : List ε}

theorem join_append (pre : List ε) :
    join key wanted ks (pre ++ es) = join key wanted ks pre ++ join key wanted ks es :=
  filter_append pre es

theorem join_eq_nil (h : ∀ e ∈ es, key e ∈ ks → wanted e = false) : join key wanted ks es = [] := by
  rw [join, filter_eq_nil_iff]
  intro e he
  by_cases hk : key e ∈ ks
  · simp [h e he hk]
  · simp [hk]

/-- Elements without a key of the list, or that do not meet the condition, may be skipped. -/
theorem join_skip {pre : List ε} (h : ∀ e ∈ pre, key e ∈ ks → wanted e = false) :
    join key wanted ks (pre ++ es) = join key wanted ks es := by
  rw [join_append, join_eq_nil h, nil_append]

theorem join_cons_wanted {e : ε} (hk : key e ∈ ks) (hw : wanted e = true) :
    join key wanted ks (e :: es) = e :: join key wanted ks es :=
  filter_cons_of_pos (by simp [hk, hw])

/-- Lists of keys that have the same keys of the wanted elements. -/
theorem join_congr {ks' : List κ} (h : ∀ e ∈ es, wanted e = true → (key e ∈ ks ↔ key e ∈ ks')) :
    join key wanted ks es = join key wanted ks' es := by
  refine filter_congr fun e he => ?_
  cases hw : wanted e with
  | false => simp
  | true => simp [h e he hw]

/-- The keys below all the elements may be skipped. -/
theorem join_dropWhile_keys {k : κ} (hes : ∀ e ∈ es, k ≤ key e) :
    join key wanted (ks.dropWhile fun k' => decide (k' < k)) es = join key wanted ks es := by
  refine join_congr fun e he _ => ⟨fun h => (dropWhile_sublist _).subset h, fun h => ?_⟩
  rw [← takeWhile_append_dropWhile (p := fun k' => decide (k' < k)) (l := ks),
    mem_append] at h
  rcases h with h | h
  · have hlt := forall_mem_takeWhile _ _ h
    rw [decide_eq_true_eq] at hlt
    exact absurd (hes e he) (not_le.mpr hlt)
  · exact h

/-- A key none of whose elements is wanted may be skipped. -/
theorem join_tail {k : κ} (h : ∀ e ∈ es, key e = k → wanted e = false) :
    join key wanted ks es = join key wanted (k :: ks) es := by
  refine join_congr fun e he hw => ⟨mem_cons_of_mem k, fun hmem => ?_⟩
  rcases mem_cons.mp hmem with heq | hmem
  · rw [h e he heq] at hw
    cases hw
  · exact hmem

end Join

end Esmetrics
