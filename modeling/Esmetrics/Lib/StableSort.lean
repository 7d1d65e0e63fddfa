import Mathlib

/-!
# Stable sorting by a key

`sortByKey key` is a stable sort: it orders a list by `key` and keeps the relative order of
the elements that share a key. A stable sort is determined by this — two lists sorted by the
same key that agree on every key class are equal (`eq_of_filter_key_eq`) — so any stable
sorting routine computes the same list.

`lastOfRuns key` keeps the last element of every maximal run of neighbours with equal keys.
It removes all duplicates of a key exactly when the elements of that key stand next to each
other (`keepsLast_lastOfRuns_iff`).
-/

namespace Esmetrics

open List

section SortByKey

variable {α κ : Type*} [LinearOrder κ] (key : α → κ)

/-- Stable sort by a key. -/
def sortByKey (l : List α) : List α := l.insertionSort fun a b => key a ≤ key b

instance sortByKey_isTrans : IsTrans α fun a b => key a ≤ key b :=
  ⟨fun _ _ _ hab hbc => le_trans hab hbc⟩

instance sortByKey_total : Std.Total fun a b : α => key a ≤ key b :=
  ⟨fun a b => le_total (key a) (key b)⟩

theorem sortByKey_perm (l : List α) : (sortByKey key l).Perm l :=
  perm_insertionSort _ l

theorem pairwise_sortByKey (l : List α) :
    (sortByKey key l).Pairwise fun a b => key a ≤ key b :=
  pairwise_insertionSort _ l

/-- A list already ordered by the key is left as it is. -/
theorem sortByKey_eq_self {l : List α} (h : l.Pairwise fun a b => key a ≤ key b) :
    sortByKey key l = l :=
  Pairwise.insertionSort_eq h

/-- **Stability**: the elements of one key keep their order. -/
theorem filter_sortByKey [DecidableEq κ] (l : List α) (k : κ) :
    (sortByKey key l).filter (fun a => key a = k) = l.filter fun a => key a = k := by
  have hclass : (l.filter fun a => key a = k).Pairwise fun a b => key a ≤ key b := by
    refine pairwise_of_forall_mem_list fun a ha b hb => ?_
    simp only [mem_filter, decide_eq_true_eq] at ha hb
    rw [ha.2, hb.2]
  have hsub : (l.filter fun a => key a = k) <+ sortByKey key l :=
    sublist_insertionSort hclass filter_sublist
  have hsub' := hsub.filter fun a => key a = k
  rw [filter_filter] at hsub'
  simp only [Bool.and_self] at hsub'
  refine (hsub'.eq_of_length ?_).symm
  exact ((sortByKey_perm key l).filter _).length_eq.symm

/-- Two lists sorted by the same key are equal when they agree on every key class. -/
theorem eq_of_filter_key_eq [DecidableEq κ] : ∀ {l₁ l₂ : List α},
    l₁.Pairwise (fun a b => key a ≤ key b) → l₂.Pairwise (fun a b => key a ≤ key b) →
    (∀ k, (l₁.filter fun a => key a = k) = l₂.filter fun a => key a = k) → l₁ = l₂
  | [], l₂, _, _, h => by
    refine (eq_nil_iff_forall_not_mem.mpr fun b hb => ?_).symm
    have hmem : b ∈ l₂.filter fun a => key a = key b := by simp [hb]
    rw [← h (key b)] at hmem
    simp at hmem
  | a :: l₁, l₂, h₁, h₂, h => by
    have mem_iff : ∀ c, c ∈ a :: l₁ ↔ c ∈ l₂ := fun c => by
      have hc : c ∈ ((a :: l₁).filter fun x => key x = key c) ↔
          c ∈ l₂.filter fun x => key x = key c := by rw [h (key c)]
      simpa [mem_filter] using hc
    obtain _ | ⟨b, l₂⟩ := l₂
    · exact absurd ((mem_iff a).mp mem_cons_self) (by simp)
    -- the heads are the least elements of the same collection, so their keys agree
    have hkey : key a = key b := by
      refine le_antisymm ?_ ?_
      · rcases mem_cons.mp ((mem_iff b).mpr mem_cons_self) with rfl | hb
        · exact le_rfl
        · exact rel_of_pairwise_cons h₁ hb
      · rcases mem_cons.mp ((mem_iff a).mp mem_cons_self) with rfl | ha
        · exact le_rfl
        · exact rel_of_pairwise_cons h₂ ha
    have hhead := h (key a)
    simp only [filter_cons, decide_true, if_true, hkey, List.cons.injEq] at hhead
    obtain ⟨rfl, -⟩ := hhead
    congr 1
    refine eq_of_filter_key_eq h₁.tail h₂.tail fun k => ?_
    have hk := h k
    simp only [filter_cons] at hk
    split at hk
    · exact (List.cons.inj hk).2
    · exact hk

/-- Sorting two lists by the same key gives the same result exactly when the lists agree on
every key class. -/
theorem sortByKey_eq_iff [DecidableEq κ] {l₁ l₂ : List α} :
    sortByKey key l₁ = sortByKey key l₂ ↔
      ∀ k, (l₁.filter fun a => key a = k) = l₂.filter fun a => key a = k := by
  constructor
  · intro h k
    rw [← filter_sortByKey key l₁ k, h, filter_sortByKey]
  · intro h
    refine eq_of_filter_key_eq key (pairwise_sortByKey key l₁) (pairwise_sortByKey key l₂) ?_
    intro k
    rw [filter_sortByKey, filter_sortByKey, h k]

/-- What is below the elements before it, and not above those after it, is sorted to the front. -/
theorem sortByKey_take_middle {pre run rest post : List α}
    (hsorted : (run ++ rest).Pairwise fun a b => key a ≤ key b)
    (hpre : ∀ r ∈ run, ∀ q ∈ pre, key r < key q) (hpost : ∀ r ∈ run, ∀ q ∈ post, key r ≤ key q) :
    sortByKey key (pre ++ (run ++ (rest ++ post))) = run ++
    sortByKey key (pre ++ (rest ++ post)) := by
  obtain ⟨hrun, -, hrest⟩ := pairwise_append.mp hsorted
  refine eq_of_filter_key_eq key (pairwise_sortByKey key _)
    (pairwise_append.mpr ⟨hrun, pairwise_sortByKey key _, fun r hr q hq => ?_⟩) fun k => ?_
  · rw [(sortByKey_perm key _).mem_iff, mem_append, mem_append] at hq
    rcases hq with hq | hq | hq
    · exact (hpre r hr q hq).le
    · exact hrest r hr q hq
    · exact hpost r hr q hq
  · rw [filter_sortByKey]
    simp only [filter_append]
    rw [← filter_append, ← filter_append, filter_sortByKey]
    simp only [filter_append]
    -- no key is both in `pre` and in `run`
    by_cases hk : (run.filter fun a => key a = k) = []
    · rw [hk, nil_append, nil_append]
    · obtain ⟨r, hr⟩ := exists_mem_of_ne_nil _ hk
      obtain ⟨hr, hrk⟩ := mem_filter.mp hr
      have hnil : (pre.filter fun a => key a = k) = [] :=
        filter_eq_nil_iff.mpr fun q hq hqk =>
          (hpre r hr q hq).ne ((of_decide_eq_true hrk).trans (of_decide_eq_true hqk).symm)
      rw [hnil, nil_append, nil_append]

end SortByKey

section LastOfRuns

variable {α κ : Type*} [DecidableEq κ] (key : α → κ)

/-- The last element of every maximal run of neighbours with equal keys. -/
def lastOfRuns : List α → List α
  | [] => []
  | [a] => [a]
  | a :: b :: l => if key a = key b then lastOfRuns (b :: l) else a :: lastOfRuns (b :: l)

/-- Elements of one key stand next to each other: nothing of another key lies between two of
them. -/
def Contiguous (l : List α) : Prop :=
  ∀ a b c, [a, b, c] <+ l → key a = key c → key b = key a

/-- `r` keeps, for every key of `l`, its last element, and nothing else. -/
def KeepsLast (l r : List α) : Prop :=
  ∀ k, (r.filter fun a => key a = k) = ((l.filter fun a => key a = k).getLast?).toList

theorem lastOfRuns_sublist : ∀ l : List α, lastOfRuns key l <+ l
  | [] => Sublist.refl _
  | [_] => Sublist.refl _
  | a :: b :: l => by
    rw [lastOfRuns]
    split
    · exact (lastOfRuns_sublist (b :: l)).cons a
    · exact (lastOfRuns_sublist (b :: l)).cons_cons a

/-- No key disappears. -/
theorem exists_mem_lastOfRuns : ∀ {l : List α} {x : α}, x ∈ l →
    ∃ y ∈ lastOfRuns key l, key y = key x
  | [_], x, hx => ⟨x, by simpa [lastOfRuns] using hx, rfl⟩
  | a :: b :: l, x, hx => by
    rw [lastOfRuns]
    rcases mem_cons.mp hx with rfl | hx
    · split
      · next hab =>
        obtain ⟨y, hy, hyb⟩ := exists_mem_lastOfRuns (x := b) (l := b :: l) mem_cons_self
        exact ⟨y, hy, hyb.trans hab.symm⟩
      · exact ⟨x, mem_cons_self, rfl⟩
    · obtain ⟨y, hy, hyx⟩ := exists_mem_lastOfRuns hx
      split
      · exact ⟨y, hy, hyx⟩
      · exact ⟨y, mem_cons_of_mem _ hy, hyx⟩

omit [DecidableEq κ] in
private theorem contiguous_cons_same {a b : α} {l : List α} (hab : key a = key b) :
    Contiguous key (a :: b :: l) ↔ Contiguous key (b :: l) := by
  refine ⟨fun h x y z hxyz => h x y z (hxyz.cons a), fun h x y z hxyz hxz => ?_⟩
  rcases sublist_cons_iff.mp hxyz with hsub | ⟨_, heq, hsub⟩
  · exact h x y z hsub hxz
  · obtain ⟨rfl, rfl⟩ := List.cons.inj heq
    rcases sublist_cons_iff.mp hsub with hsub | ⟨_, heq, _⟩
    · exact (h b y z (hsub.cons_cons b) (hab.symm.trans hxz)).trans hab.symm
    · obtain ⟨rfl, -⟩ := List.cons.inj heq
      exact hab.symm

omit [DecidableEq κ] in
private theorem contiguous_cons_diff {a b : α} {l : List α} (hab : key a ≠ key b) :
    Contiguous key (a :: b :: l) ↔
      Contiguous key (b :: l) ∧ ∀ x ∈ b :: l, key x ≠ key a := by
  constructor
  · refine fun h => ⟨fun x y z hxyz => h x y z (hxyz.cons a), fun x hx hxa => ?_⟩
    rcases mem_cons.mp hx with rfl | hx
    · exact hab hxa.symm
    · have hsub : [a, b, x] <+ a :: b :: l :=
        ((singleton_sublist.mpr hx).cons_cons b).cons_cons a
      exact hab (h a b x hsub hxa.symm).symm
  · rintro ⟨h, hne⟩ x y z hxyz hxz
    rcases sublist_cons_iff.mp hxyz with hsub | ⟨_, heq, hsub⟩
    · exact h x y z hsub hxz
    · obtain ⟨rfl, rfl⟩ := List.cons.inj heq
      exact absurd hxz.symm (hne z (hsub.subset (by simp)))

private theorem filter_ne_nil {l : List α} {x : α} (hx : x ∈ l) :
    (l.filter fun a => key a = key x) ≠ [] :=
  ne_nil_of_mem (a := x) (by simp [hx])

private theorem keepsLast_cons_same {a b : α} {l r : List α} (hab : key a = key b) :
    KeepsLast key (a :: b :: l) r ↔ KeepsLast key (b :: l) r := by
  refine forall_congr' fun k => ?_
  by_cases hk : key a = k
  · subst hk
    have hne := filter_ne_nil key (mem_cons_self (a := b) (l := l))
    rw [← hab] at hne
    rw [filter_cons_of_pos (by simp), getLast?_cons_of_ne_nil hne]
  · rw [filter_cons_of_neg (by simpa using hk)]

private theorem keepsLast_cons_diff {a b : α} {l : List α} :
    KeepsLast key (a :: b :: l) (a :: lastOfRuns key (b :: l)) ↔
      KeepsLast key (b :: l) (lastOfRuns key (b :: l)) ∧ ∀ x ∈ b :: l, key x ≠ key a := by
  have hother : ∀ k, key a ≠ k →
      (((a :: lastOfRuns key (b :: l)).filter fun x => key x = k) =
          (((a :: b :: l).filter fun x => key x = k).getLast?).toList ↔
        ((lastOfRuns key (b :: l)).filter fun x => key x = k) =
          (((b :: l).filter fun x => key x = k).getLast?).toList) := fun k hk => by
    rw [filter_cons_of_neg (by simpa using hk), filter_cons_of_neg (by simpa using hk)]
  have hnil : (∀ x ∈ b :: l, key x ≠ key a) →
      ((lastOfRuns key (b :: l)).filter fun x => key x = key a) = [] ∧
        ((b :: l).filter fun x => key x = key a) = [] := fun hne =>
    ⟨filter_eq_nil_iff.mpr fun x hx => by
        simpa using hne x ((lastOfRuns_sublist key _).subset hx),
      filter_eq_nil_iff.mpr fun x hx => by simpa using hne x hx⟩
  constructor
  · intro h
    -- a second run of `key a` would survive next to `a`
    have hne : ∀ x ∈ b :: l, key x ≠ key a := by
      intro x hx hxa
      obtain ⟨y, hy, hyx⟩ := exists_mem_lastOfRuns key hx
      have hlen := congrArg List.length (h (key a))
      rw [filter_cons_of_pos (by simp), length_cons] at hlen
      have hpos : 0 < ((lastOfRuns key (b :: l)).filter fun x => key x = key a).length :=
        length_pos_of_mem (a := y) (by simp [hy, hyx, hxa])
      have hle : (((a :: b :: l).filter fun x => key x = key a).getLast?).toList.length ≤ 1 := by
        cases ((a :: b :: l).filter fun x => key x = key a).getLast? <;> simp
      omega
    refine ⟨fun k => ?_, hne⟩
    by_cases hk : key a = k
    · subst hk
      rw [(hnil hne).1, (hnil hne).2]
      rfl
    · exact (hother k hk).mp (h k)
  · rintro ⟨h, hne⟩ k
    by_cases hk : key a = k
    · subst hk
      rw [filter_cons_of_pos (by simp), filter_cons_of_pos (by simp), (hnil hne).1,
        (hnil hne).2]
      rfl
    · exact (hother k hk).mpr (h k)

/-- **Removing duplicates between neighbours removes all duplicates exactly when the elements
of one key are contiguous.** -/
theorem keepsLast_lastOfRuns_iff : ∀ l : List α,
    KeepsLast key l (lastOfRuns key l) ↔ Contiguous key l
  | [] => by
    refine iff_of_true (fun k => rfl) fun a b c h => ?_
    exact absurd h.length_le (by simp)
  | [a] => by
    refine iff_of_true (fun k => ?_) fun a b c h => ?_
    · by_cases hk : key a = k <;> simp [lastOfRuns, hk]
    · exact absurd h.length_le (by simp)
  | a :: b :: l => by
    rw [lastOfRuns]
    split
    · next hab =>
      rw [keepsLast_cons_same key hab, contiguous_cons_same key hab]
      exact keepsLast_lastOfRuns_iff (b :: l)
    · next hab =>
      rw [keepsLast_cons_diff, contiguous_cons_diff key hab]
      exact and_congr_left' (keepsLast_lastOfRuns_iff (b :: l))

/-- Without two neighbours of one key nothing is removed. -/
theorem lastOfRuns_eq_self : ∀ {l : List α}, (l.map key).Nodup → lastOfRuns key l = l
  | [], _ => rfl
  | [_], _ => rfl
  | a :: b :: l, h => by
    rw [map_cons, nodup_cons] at h
    have hab : key a ≠ key b := fun hab => h.1 (by simp [hab])
    rw [lastOfRuns, if_neg hab, lastOfRuns_eq_self h.2]

end LastOfRuns

end Esmetrics
