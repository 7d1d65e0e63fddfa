import Mathlib.Order.Lattice
import Mathlib.Data.Finset.Max
import Mathlib.Data.List.Pairwise
import Mathlib.Tactic.Common

/-!
# The best item of every bucket

A list is divided into buckets by a `key`, and a `rank` compares the items of one bucket.
`IsBucketMax key rank l m` says that `m` holds the items of `l` that no other item of their bucket
outranks, in the order of the buckets.

Such an `m` depends on `l` only through its members (`IsBucketMax.unique`), and taking the best
items of parts first does not change the best items of the whole (`IsBucketMax.append`): the
operation may be applied to parts and again to their union, in any grouping.
-/

namespace Esmetrics

open List

variable {α κ ρ : Type} [LinearOrder κ] [LinearOrder ρ] {key : α → κ} {rank : α → ρ}

/-- The items of `l` that are best in their bucket, in the order of the buckets. -/
def IsBucketMax (key : α → κ) (rank : α → ρ) (l m : List α) : Prop :=
  m.Pairwise (fun x y => key x < key y) ∧
    ∀ x, x ∈ m ↔ x ∈ l ∧ ∀ y ∈ l, key y = key x → rank y ≤ rank x

namespace IsBucketMax

variable {l l' m m' a b da db : List α}

theorem nil : IsBucketMax key rank ([] : List α) [] := ⟨.nil, by simp⟩

theorem subset (h : IsBucketMax key rank l m) {x : α} (hx : x ∈ m) : x ∈ l := ((h.2 x).mp hx).1

/-- The best items are determined by the members of the list. -/
theorem unique (h : IsBucketMax key rank l m) (h' : IsBucketMax key rank l' m')
    (hmem : ∀ x, x ∈ l ↔ x ∈ l') : m = m' := by
  have hnodup : ∀ {m : List α}, m.Pairwise (fun x y => key x < key y) → m.Nodup := fun hm =>
    hm.imp fun hxy heq => absurd (heq ▸ hxy) (lt_irrefl _)
  have hperm : m.Perm m' := by
    refine (perm_ext_iff_of_nodup (hnodup h.1) (hnodup h'.1)).mpr fun x => ?_
    rw [h.2, h'.2]
    simp only [hmem]
  refine hperm.eq_of_pairwise (fun x y _ _ hxy hyx => ?_) h.1 h'.1
  exact absurd hxy (lt_asymm hyx)

/-- A best item is the only one of its bucket. -/
theorem filter_key (h : IsBucketMax key rank l m) {x : α} (hx : x ∈ m) :
    (m.filter fun y => key y = key x) = [x] := by
  obtain ⟨a, b, rfl⟩ := append_of_mem hx
  obtain ⟨-, hxb, hcross⟩ := pairwise_append.mp h.1
  have ha : (a.filter fun y => key y = key x) = [] := by
    rw [filter_eq_nil_iff]
    intro y hy
    simpa using (hcross y hy x mem_cons_self).ne
  have hb : (b.filter fun y => key y = key x) = [] := by
    rw [filter_eq_nil_iff]
    intro y hy
    simpa using ((pairwise_cons.mp hxb).1 y hy).ne'
  rw [filter_append, filter_cons_of_pos (by simp), ha, hb, nil_append]

/-- Every item is outranked by a best item of its bucket. -/
theorem exists_le (h : IsBucketMax key rank l m) {y : α} (hy : y ∈ l) :
    ∃ x ∈ m, key x = key y ∧ rank y ≤ rank x := by
  classical
  have hne : (l.filter fun x => key x = key y).toFinset.Nonempty := ⟨y, by simp [hy]⟩
  obtain ⟨x, hx, hmax⟩ := Finset.exists_max_image _ rank hne
  simp only [mem_toFinset, mem_filter, decide_eq_true_eq] at hx hmax
  refine ⟨x, (h.2 x).mpr ⟨hx.1, fun z hz hkey => ?_⟩, hx.2, hmax y ⟨hy, rfl⟩⟩
  exact hmax z ⟨hz, hkey.trans hx.2⟩

/-- The best items among the best items of two parts are the best items of the whole. -/
theorem append (ha : IsBucketMax key rank a da) (hb : IsBucketMax key rank b db)
    (hl : ∀ x, x ∈ l ↔ x ∈ da ∨ x ∈ db) (h : IsBucketMax key rank l m) :
    IsBucketMax key rank (a ++ b) m := by
  have hle : ∀ y ∈ a ++ b, ∃ x ∈ l, key x = key y ∧ rank y ≤ rank x := fun y hy => by
    rcases mem_append.mp hy with hy | hy
    · obtain ⟨x, hx, hxy⟩ := ha.exists_le hy
      exact ⟨x, (hl x).mpr (.inl hx), hxy⟩
    · obtain ⟨x, hx, hxy⟩ := hb.exists_le hy
      exact ⟨x, (hl x).mpr (.inr hx), hxy⟩
  have hsub : ∀ x ∈ l, x ∈ a ++ b := fun x hx => by
    rcases (hl x).mp hx with hx | hx
    · exact mem_append_left _ (ha.subset hx)
    · exact mem_append_right _ (hb.subset hx)
  refine ⟨h.1, fun x => ⟨fun hx => ?_, fun ⟨hx, hmax⟩ => ?_⟩⟩
  · obtain ⟨hxl, hmax⟩ := (h.2 x).mp hx
    refine ⟨hsub x hxl, fun y hy hkey => ?_⟩
    obtain ⟨y', hy', hkey', hrank⟩ := hle y hy
    exact hrank.trans (hmax y' hy' (hkey'.trans hkey))
  · have hxl : x ∈ l := by
      rw [hl]
      rcases mem_append.mp hx with hxa | hxb
      · exact .inl ((ha.2 x).mpr ⟨hxa, fun y hy => hmax y (mem_append_left _ hy)⟩)
      · exact .inr ((hb.2 x).mpr ⟨hxb, fun y hy => hmax y (mem_append_right _ hy)⟩)
    exact (h.2 x).mpr ⟨hxl, fun y hy => hmax y (hsub y hy)⟩

/-- The best items of a whole are the best among the best items of its parts. -/
theorem append_of_parts (ha : IsBucketMax key rank a da) (hb : IsBucketMax key rank b db)
    (hl : ∀ x, x ∈ l ↔ x ∈ a ∨ x ∈ b) (h : IsBucketMax key rank l m) :
    IsBucketMax key rank (da ++ db) m := by
  refine ⟨h.1, fun x => ⟨fun hx => ?_, fun ⟨hx, hmax⟩ => ?_⟩⟩
  · obtain ⟨hxl, hmax⟩ := (h.2 x).mp hx
    have hmem : x ∈ da ++ db := by
      rcases (hl x).mp hxl with hxa | hxb
      · exact mem_append_left _ ((ha.2 x).mpr ⟨hxa, fun y hy => hmax y ((hl y).mpr (.inl hy))⟩)
      · exact mem_append_right _ ((hb.2 x).mpr ⟨hxb, fun y hy => hmax y ((hl y).mpr (.inr hy))⟩)
    refine ⟨hmem, fun y hy => hmax y ((hl y).mpr ?_)⟩
    exact (mem_append.mp hy).imp ha.subset hb.subset
  · have hsub : x ∈ l := (hl x).mpr ((mem_append.mp hx).imp ha.subset hb.subset)
    refine (h.2 x).mpr ⟨hsub, fun y hy hkey => ?_⟩
    rcases (hl y).mp hy with hya | hyb
    · obtain ⟨y', hy', hkey', hrank⟩ := ha.exists_le hya
      exact hrank.trans (hmax y' (mem_append_left _ hy') (hkey'.trans hkey))
    · obtain ⟨y', hy', hkey', hrank⟩ := hb.exists_le hyb
      exact hrank.trans (hmax y' (mem_append_right _ hy') (hkey'.trans hkey))

/-- Adds a last bucket `c` with its only best item. -/
theorem concat (hrank : Function.Injective rank) (h : IsBucketMax key rank l m) {c : List α}
    {k : κ} {w : α} (hl : ∀ x ∈ l, key x < k) (hc : ∀ x ∈ c, key x = k) (hw : w ∈ c)
    (hmax : ∀ x ∈ c, rank x ≤ rank w) : IsBucketMax key rank (l ++ c) (m ++ [w]) := by
  refine ⟨?_, fun x => ?_⟩
  · refine pairwise_append.mpr ⟨h.1, pairwise_singleton _ _, fun x hx y hy => ?_⟩
    rw [mem_singleton.mp hy, hc w hw]
    exact hl x (h.subset hx)
  · simp only [mem_append, mem_singleton, h.2]
    refine ⟨fun hx => ?_, fun ⟨hx, hbest⟩ => ?_⟩
    · rcases hx with ⟨hx, hbest⟩ | rfl
      · refine ⟨.inl hx, fun y hy hkey => ?_⟩
        rcases hy with hy | hy
        · exact hbest y hy hkey
        · exact absurd (hl x hx) (by rw [← hkey, hc y hy]; exact lt_irrefl _)
      · refine ⟨.inr hw, fun y hy hkey => ?_⟩
        rcases hy with hy | hy
        · exact absurd (hl y hy) (by rw [hkey, hc x hw]; exact lt_irrefl _)
        · exact hmax y hy
    · rcases hx with hx | hx
      · exact .inl ⟨hx, fun y hy => hbest y (.inl hy)⟩
      · refine .inr (hrank (le_antisymm (hmax x hx) (hbest w (.inr hw) ?_)))
        rw [hc w hw, hc x hx]

/-- A list with one item in each bucket, in the order of the buckets. -/
theorem self (h : l.Pairwise fun x y => key x < key y) : IsBucketMax key rank l l := by
  refine ⟨h, fun x => ⟨fun hx => ⟨hx, fun y hy hkey => ?_⟩, fun hx => hx.1⟩⟩
  have hyx : y = x := by
    by_contra hne
    rcases pairwise_iff_getElem.mp h with hget
    obtain ⟨i, hi, rfl⟩ := getElem_of_mem hx
    obtain ⟨j, hj, rfl⟩ := getElem_of_mem hy
    rcases lt_trichotomy i j with hij | hij | hij
    · exact absurd (hget i j hi hj hij) (by rw [hkey]; exact lt_irrefl _)
    · exact hne (by simp [hij])
    · exact absurd (hget j i hj hi hij) (by rw [hkey]; exact lt_irrefl _)
  rw [hyx]

end IsBucketMax

end Esmetrics
