import Esmetrics.Lib.Outcome
import Esmetrics.Lib.StableSort

/-!
# The choice of parts to merge

Model of `append_parts_to_merge` and `get_parts_for_optimal_merge`, which
`esm-mergeset/src/part_wrapper.rs` and `esm-storage/src/partition/merge.rs` have in two copies that
differ in the order of the candidates, with rational instead of floating-point numbers and without
overflow; and of the loops that merge until one part is left.

The two loops visit the windows of the sorted candidates. A window that is passed over is either
worse than the best one so far, or not admissible; what a `break` skips is too big, as the
candidates are sorted (`BestOf.scanStarts`).
-/

namespace Esmetrics.PartSelection

open List Outcome

variable {α κ : Type}

def minMergeMultiplier : ℚ := 17 / 10

def defaultPartsToMerge : ℕ := 15

/-- The best window so far, as its start and length, and its ratio. -/
structure Best where
  best : Option (ℕ × ℕ)
  maxM : ℚ

def total (size : α → ℕ) (a : List α) : ℕ := (a.map size).sum

/-- `&src[j..j + i]` -/
def slice (src : List α) (j i : ℕ) : Outcome (List α) :=
  if j + i ≤ src.length then .ok ((src.drop j).take i) else .panic "range end index out of range"

/-- The inner loop, over the starts of the windows of length `i`. -/
def scanStarts (size : α → ℕ) (src : List α) (maxOutBytes i : ℕ) : List ℕ → Best → Outcome Best
  | [], b => .ok b
  | j :: js, b => do
    let a ← slice src j i
    let first ← .index a[0]?
    let last ← .index a[a.length - 1]?
    -- parts with too big a difference in size are not merged
    if size first * a.length < size last then scanStarts size src maxOutBytes i js b
    else
      let outBytes := total size a
      -- the remaining windows are bigger
      if maxOutBytes < outBytes then .ok b
      else
        let m : ℚ := outBytes / size last
        if m < b.maxM then scanStarts size src maxOutBytes i js b
        else scanStarts size src maxOutBytes i js ⟨some (j, i), m⟩

/-- The outer loop, over the lengths of the windows. -/
def scanLengths (size : α → ℕ) (src : List α) (maxOutBytes : ℕ) : List ℕ → Best → Outcome Best
  | [], b => .ok b
  | i :: is, b => do
    let b ← scanStarts size src maxOutBytes i (List.range (src.length - i + 1)) b
    scanLengths size src maxOutBytes is b

/-- The order of the candidates, which is first by size. -/
structure CandidateOrder (size : α → ℕ) (κ : Type) [LinearOrder κ] where
  key : α → κ
  size_le : ∀ p q, key p ≤ key q → size p ≤ size q

/-- The order of `esm-mergeset`. -/
def mergesetOrder (size : α → ℕ) : CandidateOrder size ℕ := ⟨size, fun _ _ h => h⟩

/-- The order of `esm-storage`: parts of one size by backwards smallest timestamp. -/
def storageOrder (size : α → ℕ) (minTimestamp : α → ℤ) : CandidateOrder size (ℕ ×ₗ ℤᵒᵈ) where
  key pw := toLex (size pw, OrderDual.toDual (minTimestamp pw))
  size_le _ _ h := (Prod.Lex.toLex_le_toLex.mp h).elim le_of_lt fun h => h.1.le

section Selection

variable [LinearOrder κ] {size : α → ℕ} (o : CandidateOrder size κ)

/-- The parts that are not too big, in their order. -/
def candidates (src : List α) (maxOutBytes : ℕ) : List α :=
  sortByKey o.key (src.filter fun pw => size pw ≤ ⌊(maxOutBytes / minMergeMultiplier : ℚ)⌋₊)

/-- The least ratio of a merge that is worth it. -/
def minM (maxPartsToMerge : ℕ) : ℚ := max (maxPartsToMerge / 2) minMergeMultiplier

def appendPartsToMerge (src : List α) (maxPartsToMerge maxOutBytes : ℕ) : Outcome (List α) :=
  if src.length < 2 then .ok []
  else do
    .assert (2 ≤ maxPartsToMerge) "BUG: maxPartsToMerge cannot be smaller than 2"
    let src := candidates o src maxOutBytes
    let maxSrcParts := min maxPartsToMerge src.length
    let minSrcParts := max ((maxSrcParts + 1) / 2) 2
    let b ← scanLengths size src maxOutBytes (List.range' minSrcParts
        (maxSrcParts + 1 - minSrcParts)) ⟨none, 0⟩
    if b.maxM < minM maxPartsToMerge then .ok []
    else
      match b.best with
      | none => .panic "BUG: best merge window must be set when max_m >= min_m"
      | some (j, i) => slice src j i

/-- Splits parts into those to merge and the rest. Parts are told apart by their pointers, of which
the set must not have less than there are parts. -/
def getPartsForOptimalMerge [DecidableEq α] (pws : List α) : Outcome (List α × List α) := do
  let pwsToMerge ← appendPartsToMerge o pws defaultPartsToMerge (2 ^ 64 - 1)
  if pwsToMerge = [] then .ok (pws, [])
  else do
    .assert pwsToMerge.Nodup "BUG: duplicate parts found in source parts"
    .ok (pwsToMerge, pws.filter (· ∉ pwsToMerge))

end Selection

/-! ### What a window may be -/

/-- The size of the largest part. -/
def largest (size : α → ℕ) (a : List α) : ℕ := (a.map size).foldr max 0

/-- How much less the parts of a window are written when they are merged at once. -/
def ratio (size : α → ℕ) (a : List α) : ℚ := total size a / largest size a

/-- A window that may be merged: the smallest part times their number is at least the largest
one. -/
structure Admissible (size : α → ℕ) (maxPartsToMerge maxOutBytes : ℕ) (a : List α) : Prop where
  two_le : 2 ≤ a.length
  length_le : a.length ≤ maxPartsToMerge
  total_le : total size a ≤ maxOutBytes
  balanced : ∀ p ∈ a, largest size a ≤ size p * a.length

variable {size : α → ℕ} {src a : List α} {maxOutBytes i j : ℕ}

theorem le_largest {p : α} (h : p ∈ a) : size p ≤ largest size a := by
  induction a with
  | nil => exact absurd h not_mem_nil
  | cons q a ih =>
    obtain rfl | h := mem_cons.mp h
    · exact le_max_left _ _
    · exact (ih h).trans (le_max_right _ _)

theorem total_le_mul_largest : total size a ≤ a.length * largest size a := by
  have h := sum_le_card_nsmul (a.map size) (largest size a) fun n hn => by
    obtain ⟨p, hp, rfl⟩ := mem_map.mp hn
    exact le_largest hp
  rwa [length_map, smul_eq_mul] at h

theorem ratio_le_length : ratio size a ≤ a.length := by
  obtain hzero | hpos := Nat.eq_zero_or_pos (largest size a)
  · rw [ratio, hzero, Nat.cast_zero, div_zero]
    exact Nat.cast_nonneg _
  · rw [ratio, div_le_iff₀ (by exact_mod_cast hpos)]
    exact_mod_cast total_le_mul_largest

/-- The last part of a sorted window is the largest one. -/
theorem largest_eq (hsorted : a.Pairwise fun p q => size p ≤ size q) (hne : a ≠ []) :
    largest size a = size (a.getLast hne) := by
  refine le_antisymm ?_ (le_largest (getLast_mem hne))
  have hle : ∀ p ∈ a, size p ≤ size (a.getLast hne) := fun p hp => by
    rw [← dropLast_append_getLast hne] at hp hsorted
    obtain hp | hp := mem_append.mp hp
    · exact (pairwise_append.mp hsorted).2.2 p hp _ (mem_singleton_self _)
    · rw [mem_singleton.mp hp]
  clear hsorted
  generalize size (a.getLast hne) = n at hle
  induction a with
  | nil => exact Nat.zero_le _
  | cons q a ih =>
    refine max_le (hle q mem_cons_self) ?_
    by_cases hnil : a = []
    · subst hnil
      exact Nat.zero_le _
    · exact ih hnil fun p hp => hle p (mem_cons_of_mem _ hp)

/-- A window of sorted parts of which the ends are balanced. -/
structure Fits (size : α → ℕ) (src : List α) (maxPartsToMerge maxOutBytes j i : ℕ) : Prop where
  two_le : 2 ≤ i
  le_max : i ≤ maxPartsToMerge
  le_length : j + i ≤ src.length
  total_le : total size ((src.drop j).take i) ≤ maxOutBytes
  balanced : ∀ p ∈ (src.drop j).take i, largest size ((src.drop j).take i) ≤ size p * i

theorem length_window (h : j + i ≤ src.length) : ((src.drop j).take i).length = i := by
  rw [length_take, length_drop]
  omega

/-- Later windows of sorted parts are bigger. -/
theorem total_window_mono (hsorted : src.Pairwise fun p q => size p ≤ size q) {j' : ℕ} (hj : j ≤ j')
    (h : j' + i ≤ src.length) : total size ((src.drop j).take i) ≤
    total size ((src.drop j').take i) := by
  induction j', hj using Nat.le_induction with
  | base => exact le_rfl
  | succ j' hj ih =>
    refine (ih (by omega)).trans ?_
    obtain rfl | hi := Nat.eq_zero_or_pos i
    · exact le_rfl
    obtain ⟨i, rfl⟩ : ∃ k, i = k + 1 := ⟨i - 1, by omega⟩
    -- the first part is left out, and one behind the window is added
    have hlt : j' + (i + 1) < src.length := by omega
    have hfirst : (src.drop j').take (i + 1) = src[j'] :: (src.drop (j' + 1)).take i := by
      rw [drop_eq_getElem_cons (by omega), take_succ_cons]
    have hlast : (src.drop (j' + 1)).take (i + 1) = (src.drop (j' + 1)).take i ++
        [src[j' + (i + 1)]] := by
      rw [take_add_one, getElem?_drop, getElem?_eq_getElem (by omega), Option.toList_some]
      congr 3
      omega
    have hle := pairwise_iff_getElem.mp hsorted j' (j' + (i + 1)) (by omega) hlt (by omega)
    rw [hfirst, hlast, total, total, map_cons, sum_cons, map_append, sum_append, map_singleton,
      sum_singleton]
    omega

/-- The best of the windows seen so far. -/
structure BestOf (size : α → ℕ) (src : List α) (maxPartsToMerge maxOutBytes : ℕ)
    (seen : ℕ → ℕ → Prop) (b : Best) :
    Prop where
  of_none : b.best = none → b.maxM = 0
  of_some : ∀ j i, b.best = some (j, i) →
    Fits size src maxPartsToMerge maxOutBytes j i ∧ b.maxM = ratio size ((src.drop j).take i)
  le : ∀ j i, seen j i → Fits size src maxPartsToMerge maxOutBytes j i →
    ratio size ((src.drop j).take i) ≤ b.maxM

variable {maxPartsToMerge : ℕ} {seen : ℕ → ℕ → Prop} {b : Best}

theorem BestOf.mono {seen' : ℕ → ℕ → Prop} (h : BestOf size src maxPartsToMerge maxOutBytes seen b)
    (hseen : ∀ j i, seen' j i → Fits size src maxPartsToMerge maxOutBytes j i → seen j i) :
    BestOf size src maxPartsToMerge maxOutBytes seen' b :=
  ⟨h.of_none, h.of_some, fun j i hs hf => h.le j i (hseen j i hs hf) hf⟩

/-- The inner loop sees the windows of its length. -/
theorem BestOf.scanStarts (hsorted : src.Pairwise fun p q => size p ≤ size q) (hi : 2 ≤ i)
    (hmax : i ≤ maxPartsToMerge)
    {n : ℕ} (hn : j + n + i = src.length + 1)
    (h : BestOf size src maxPartsToMerge maxOutBytes seen b) :
    ∃ b', scanStarts size src maxOutBytes i (List.range' j n) b = .ok b' ∧
      BestOf size src maxPartsToMerge maxOutBytes (fun j' i' =>
        seen j' i' ∨ i' = i ∧ j ≤ j') b' := by
  induction n generalizing j b seen with
  | zero =>
    refine ⟨b, rfl, h.mono fun j' i' hs hf => hs.resolve_right fun ⟨hi', hj'⟩ => ?_⟩
    have := hf.le_length
    omega
  | succ n ih =>
    have hlen : j + i ≤ src.length := by omega
    have hwindow : ((src.drop j).take i).length = i := length_window hlen
    set a := (src.drop j).take i with ha
    have hne : a ≠ [] := fun hnil => by
      rw [hnil, length_nil] at hwindow
      omega
    have hasorted : a.Pairwise fun p q => size p ≤ size q :=
      hsorted.sublist ((take_sublist _ _).trans (drop_sublist _ _))
    have hlargest := largest_eq hasorted hne
    have hfirst : a[0]? = some (a.head hne) := by rw [← head?_eq_getElem?, head?_eq_some_head hne]
    have hlast : a[a.length - 1]? = some (a.getLast hne) := by
      rw [← getLast?_eq_getElem?, getLast?_eq_some_getLast hne]
    -- the windows from the next start on
    have hnext {b : Best} (h : BestOf size src maxPartsToMerge maxOutBytes
        (fun j' i' => seen j' i' ∨ i' = i ∧ j' = j) b) :
        ∃ b', scanStarts size src maxOutBytes i (List.range' (j + 1) n) b = .ok b' ∧
          BestOf size src maxPartsToMerge maxOutBytes
          (fun j' i' => seen j' i' ∨ i' = i ∧ j ≤ j') b' := by
      obtain ⟨b', hb', hbest⟩ := ih (j := j + 1) (by omega) h
      refine ⟨b', hb', hbest.mono fun j' i' hs _ => ?_⟩
      obtain hs | ⟨hi', hj'⟩ := hs
      · exact .inl (.inl hs)
      · obtain rfl | hlt := hj'.eq_or_lt
        · exact .inl (.inr ⟨hi', rfl⟩)
        · exact .inr ⟨hi', hlt⟩
    rw [range'_succ, PartSelection.scanStarts, slice, if_pos hlen, ok_bind, ← ha, hfirst, hlast,
      index_some, ok_bind, index_some, ok_bind, hwindow, ← hlargest]
    dsimp only
    split_ifs with hunbalanced hbig hworse
    · refine hnext (h.mono fun j' i' hs hf => hs.resolve_right ?_)
      rintro ⟨rfl, rfl⟩
      exact absurd (hf.balanced _ (head_mem hne)) (not_le.mpr hunbalanced)
    · refine ⟨b, rfl, h.mono fun j' i' hs hf => hs.resolve_right ?_⟩
      rintro ⟨rfl, hj'⟩
      exact absurd hf.total_le
        (not_le.mpr (hbig.trans_le (total_window_mono hsorted hj' hf.le_length)))
    · refine hnext ⟨h.of_none, h.of_some, fun j' i' hs hf => ?_⟩
      obtain hs | ⟨rfl, rfl⟩ := hs
      · exact h.le j' i' hs hf
      · exact hworse.le
    · refine hnext ⟨nofun, fun j' i' hbest => ?_, fun j' i' hs hf => ?_⟩
      · obtain ⟨rfl, rfl⟩ := Prod.mk.inj (Option.some.inj hbest)
        refine ⟨⟨hi, hmax, hlen, not_lt.mp hbig, fun p hp => (not_lt.mp hunbalanced).trans ?_⟩, rfl⟩
        -- the first part is the smallest one
        refine Nat.mul_le_mul_right _ ?_
        rw [← ha] at hp
        rw [← cons_head_tail hne] at hp hasorted
        obtain rfl | hp := mem_cons.mp hp
        · exact le_rfl
        · exact (pairwise_cons.mp hasorted).1 p hp
      · obtain hs | ⟨rfl, rfl⟩ := hs
        · exact (h.le j' i' hs hf).trans (not_lt.mp hworse)
        · exact le_rfl

/-- The outer loop sees the windows of its lengths. -/
theorem BestOf.scanLengths (hsorted : src.Pairwise fun p q => size p ≤ size q) {n : ℕ} (hi : 2 ≤ i)
    (hn : i + n ≤ src.length + 1) (hmax : i + n ≤ maxPartsToMerge + 1)
    (h : BestOf size src maxPartsToMerge maxOutBytes seen b) :
    ∃ b', scanLengths size src maxOutBytes (List.range' i n) b = .ok b' ∧
      BestOf size src maxPartsToMerge maxOutBytes (fun j' i' =>
        seen j' i' ∨ i ≤ i' ∧ i' < i + n) b' := by
  induction n generalizing i b seen with
  | zero =>
    refine ⟨b, rfl, h.mono fun j' i' hs _ => hs.resolve_right fun ⟨hle, hlt⟩ => ?_⟩
    omega
  | succ n ih =>
    obtain ⟨b₁, hb₁, h₁⟩ := h.scanStarts hsorted hi (by omega) (j := 0) (n :=
      src.length - i + 1) (by omega)
    obtain ⟨b₂, hb₂, h₂⟩ := ih (i := i + 1) (by omega) (by omega) (by omega) h₁
    refine ⟨b₂, ?_, h₂.mono fun j' i' hs _ => ?_⟩
    · rw [range'_succ, PartSelection.scanLengths, range_eq_range', hb₁, ok_bind, hb₂]
    · obtain hs | ⟨hle, hlt⟩ := hs
      · exact .inl (.inl hs)
      · obtain rfl | hlt' := hle.eq_or_lt
        · exact .inl (.inr ⟨rfl, Nat.zero_le _⟩)
        · exact .inr ⟨hlt', by omega⟩

theorem lt_minM {n maxPartsToMerge : ℕ} (h : 2 * n < maxPartsToMerge) :
    (n : ℚ) < minM maxPartsToMerge := by
  refine lt_max_of_lt_left ?_
  rw [lt_div_iff₀ two_pos, mul_comm]
  exact_mod_cast h

theorem minM_pos (maxPartsToMerge : ℕ) : 0 < minM maxPartsToMerge :=
  lt_max_of_lt_right (by rw [minMergeMultiplier]; norm_num)

variable [LinearOrder κ] (o : CandidateOrder size κ)

theorem pairwise_candidates (src : List α) (maxOutBytes : ℕ) :
    (candidates o src maxOutBytes).Pairwise fun p q => size p ≤ size q :=
  (pairwise_sortByKey o.key _).imp fun h => o.size_le _ _ h

theorem candidates_subperm (src : List α) (maxOutBytes : ℕ) :
    (candidates o src maxOutBytes).Subperm src :=
  (sortByKey_perm o.key _).subperm.trans filter_sublist.subperm

/-- What is chosen is admissible and no worse than any admissible window; where nothing is chosen,
none is worth it. -/
theorem exists_appendPartsToMerge (src : List α) (hmax : 2 ≤ maxPartsToMerge) (maxOutBytes : ℕ) :
    ∃ out, appendPartsToMerge o src maxPartsToMerge maxOutBytes = .ok out ∧ out.Subperm src ∧
      (out = [] ∨ Admissible size maxPartsToMerge maxOutBytes out ∧
        minM maxPartsToMerge ≤ ratio size out ∧
        ∀ w, w <:+: candidates o src maxOutBytes → Admissible size maxPartsToMerge maxOutBytes w →
          ratio size w ≤ ratio size out) := by
  rw [appendPartsToMerge]
  by_cases hlen : src.length < 2
  · exact ⟨[], if_pos hlen, nil_subperm, .inl rfl⟩
  rw [if_neg hlen, assert_of hmax, ok_bind]
  have hsorted := pairwise_candidates o src maxOutBytes
  have hsub := candidates_subperm o src maxOutBytes
  generalize candidates o src maxOutBytes = sorted at hsorted hsub
  dsimp only
  set lo := max ((min maxPartsToMerge sorted.length + 1) / 2) 2 with hlo
  obtain ⟨b, hb, hbest⟩ : ∃ b, scanLengths size sorted maxOutBytes
      (List.range' lo (min maxPartsToMerge sorted.length + 1 - lo)) ⟨none, 0⟩ = .ok b ∧
      BestOf size sorted maxPartsToMerge maxOutBytes (fun _ i =>
        lo ≤ i ∧ i ≤ min maxPartsToMerge sorted.length) b := by
    have hstart : BestOf size sorted maxPartsToMerge maxOutBytes (fun _ _ => False) ⟨none, 0⟩ :=
      ⟨fun _ => rfl, nofun, nofun⟩
    obtain hle | hgt := Nat.lt_or_ge (min maxPartsToMerge sorted.length + 1) lo
    · rw [Nat.sub_eq_zero_of_le hle.le]
      exact ⟨_, rfl, hstart.mono fun j i hs _ => by omega⟩
    · obtain ⟨b, hb, hbest⟩ := hstart.scanLengths hsorted (le_max_right _ _) (i := lo)
        (n := min maxPartsToMerge sorted.length + 1 - lo) (by omega) (by omega)
      exact ⟨b, hb, hbest.mono fun j i hs _ => .inr (by omega)⟩
  rw [hb, ok_bind]
  -- windows that are shorter than those that are looked at are not worth a merge
  have hshort : ∀ w, w <:+: sorted → Admissible size maxPartsToMerge maxOutBytes w →
      ratio size w ≤ b.maxM ∨ ratio size w < minM maxPartsToMerge := by
    rintro w ⟨front, back, rfl⟩ hw
    have htwo := hw.two_le
    have hle := hw.length_le
    have hwindow : ((front ++ w ++ back).drop front.length).take w.length = w := by
      rw [append_assoc, drop_left, take_left]
    have hfits : Fits size (front ++ w ++ back) maxPartsToMerge maxOutBytes front.length
        w.length := by
      refine ⟨htwo, hle, ?_, ?_, ?_⟩
      · rw [length_append, length_append]
        omega
      · rw [hwindow]
        exact hw.total_le
      · rw [hwindow]
        exact hw.balanced
    have hwlen := hfits.le_length
    by_cases hlow : lo ≤ w.length
    · left
      have hmaxM := hbest.le front.length w.length ⟨hlow, by omega⟩ hfits
      rwa [hwindow] at hmaxM
    · exact .inr (ratio_le_length.trans_lt (lt_minM (by omega)))
  by_cases hworth : b.maxM < minM maxPartsToMerge
  · exact ⟨[], if_pos hworth, nil_subperm, .inl rfl⟩
  rw [if_neg hworth]
  cases hb : b.best with
  | none => exact absurd (hbest.of_none hb ▸ minM_pos maxPartsToMerge) hworth
  | some ji =>
    obtain ⟨j, i⟩ := ji
    obtain ⟨hfits, hratio⟩ := hbest.of_some j i hb
    have hwindow := length_window hfits.le_length
    refine ⟨_, if_pos hfits.le_length,
      ((take_sublist _ _).trans (drop_sublist _ _)).subperm.trans hsub,
      .inr ⟨⟨?_, ?_, ?_, ?_⟩, ?_, ?_⟩⟩
    · exact hwindow.symm ▸ hfits.two_le
    · exact hwindow.symm ▸ hfits.le_max
    · exact hfits.total_le
    · exact hwindow.symm ▸ hfits.balanced
    · exact hratio ▸ not_lt.mp hworth
    · intro w hinfix hw
      obtain hle | hlt := hshort w hinfix hw
      · exact hratio ▸ hle
      · exact hlt.le.trans (hratio ▸ not_lt.mp hworth)

/-! ### Merging until one part is left -/

variable [DecidableEq α]

variable {pws : List α}

/-- What is split off is not less than two parts, if there are two, and what remains is less than
there was. -/
theorem getPartsForOptimalMerge_eq_ok {merged rest : List α}
    (h : getPartsForOptimalMerge o pws = .ok (merged, rest)) :
    rest.length + min 2 pws.length ≤ pws.length ∧ (pws.Nodup → (merged ++ rest).Perm pws) := by
  obtain ⟨out, hout, hsub, hchoice⟩ := exists_appendPartsToMerge o pws
    (by decide : 2 ≤ defaultPartsToMerge)
    (2 ^ 64 - 1)
  rw [getPartsForOptimalMerge, hout, ok_bind] at h
  by_cases hnil : out = []
  · rw [if_pos hnil] at h
    cases h
    exact ⟨by rw [length_nil, Nat.zero_add]; exact Nat.min_le_right _ _,
      fun _ => by rw [append_nil]⟩
  have htwo : 2 ≤ out.length := (hchoice.resolve_left hnil).1.two_le
  rw [if_neg hnil] at h
  by_cases hnodup : out.Nodup
  · rw [assert_of hnodup, ok_bind] at h
    cases h
    have hsplit : (pws.filter (· ∈ merged) ++ pws.filter (· ∉ merged)).Perm pws := by
      simpa only [decide_not] using filter_append_perm (· ∈ merged) pws
    have hmerged : merged.Subperm (pws.filter (· ∈ merged)) :=
      hnodup.subperm fun p hp => mem_filter.mpr ⟨hsub.subset hp, decide_eq_true hp⟩
    refine ⟨?_, fun hpws => ?_⟩
    · have hlen := hsplit.length_eq
      have hle := hmerged.length_le
      rw [length_append] at hlen
      omega
    · refine Perm.trans (Perm.append_right _ ?_) hsplit
      refine (perm_ext_iff_of_nodup hnodup (hpws.filter _)).mpr fun p => ?_
      rw [mem_filter, decide_eq_true_iff]
      exact ⟨fun hp => ⟨hsub.subset hp, hp⟩, And.right⟩
  · rw [Outcome.assert, if_neg hnodup] at h
    cases h

theorem exists_getPartsForOptimalMerge (hpws : pws.Nodup) :
    ∃ merged rest, getPartsForOptimalMerge o pws = .ok (merged, rest) := by
  obtain ⟨out, hout, hsub, -⟩ := exists_appendPartsToMerge o pws
    (by decide : 2 ≤ defaultPartsToMerge) (2 ^ 64 - 1)
  rw [getPartsForOptimalMerge, hout, ok_bind]
  by_cases hnil : out = []
  · exact ⟨_, _, if_pos hnil⟩
  · obtain ⟨l, hperm, hsublist⟩ := hsub
    have hnodup : out.Nodup := hperm.nodup_iff.mp (hpws.sublist hsublist)
    rw [if_neg hnil, assert_of hnodup, ok_bind]
    exact ⟨_, _, rfl⟩

/-- The loop of `must_merge_inmemory_parts`: the groups of parts that are merged. -/
def mergeGroups (pws : List α) : Outcome (List (List α)) :=
  if _hne : pws = [] then .ok []
  else
    match _h : getPartsForOptimalMerge o pws with
    | .ok (merged, rest) => do
      let groups ← mergeGroups rest
      .ok (merged :: groups)
    | .err msg => .err msg
    | .panic msg => .panic msg
termination_by pws.length
decreasing_by
  have hlt := (getPartsForOptimalMerge_eq_ok o _h).1
  have hpos := length_pos_iff.mpr _hne
  omega

theorem mergeGroups_eq {merged rest : List α} (hne : pws ≠ [])
    (hsplit : getPartsForOptimalMerge o pws = .ok (merged, rest)) :
    mergeGroups o pws = (mergeGroups o rest >>= fun groups => .ok (merged :: groups)) := by
  rw [mergeGroups, dif_neg hne]
  split
  · next heq =>
    rw [hsplit] at heq
    cases heq
    rfl
  · next heq => exact absurd (hsplit.symm.trans heq) nofun
  · next heq => exact absurd (hsplit.symm.trans heq) nofun

/-- There are less groups than parts, if there are two parts. -/
theorem length_mergeGroups {groups : List (List α)} (h : mergeGroups o pws = .ok groups) :
    groups.length + (min 2 pws.length - 1) ≤ pws.length := by
  induction pws using mergeGroups.induct o generalizing groups with
  | case1 =>
    rw [mergeGroups, dif_pos rfl] at h
    cases h
    exact le_rfl
  | case2 pws hne merged rest hsplit ih =>
    rw [mergeGroups_eq o hne hsplit] at h
    obtain ⟨groups', hgroups, hok⟩ := bind_eq_ok_iff.mp h
    cases hok
    have hrest := (getPartsForOptimalMerge_eq_ok o hsplit).1
    have hle := ih hgroups
    have hpos := length_pos_iff.mpr hne
    rw [length_cons]
    omega
  | case3 pws hne msg hsplit =>
    rw [mergeGroups, dif_neg hne] at h
    split at h
    · next heq => exact absurd (hsplit.symm.trans heq) nofun
    · cases h
    · cases h
  | case4 pws hne msg hsplit =>
    rw [mergeGroups, dif_neg hne] at h
    split at h
    · next heq => exact absurd (hsplit.symm.trans heq) nofun
    · cases h
    · cases h

/-- Every part is in one group. -/
theorem exists_mergeGroups (hpws : pws.Nodup) :
    ∃ groups, mergeGroups o pws = .ok groups ∧ groups.flatten.Perm pws := by
  induction pws using mergeGroups.induct o with
  | case1 => exact ⟨[], by rw [mergeGroups, dif_pos rfl], .refl _⟩
  | case2 pws hne merged rest hsplit ih =>
    have hperm := (getPartsForOptimalMerge_eq_ok o hsplit).2 hpws
    obtain ⟨groups, hgroups, hflatten⟩ := ih (hperm.nodup_iff.mpr hpws).of_append_right
    refine ⟨merged :: groups, by rw [mergeGroups_eq o hne hsplit, hgroups, ok_bind], ?_⟩
    rw [flatten_cons]
    exact (hflatten.append_left merged).trans hperm
  | case3 pws hne msg hsplit =>
    obtain ⟨merged, rest, hok⟩ := exists_getPartsForOptimalMerge o hpws
    exact absurd (hsplit.symm.trans hok) nofun
  | case4 pws hne msg hsplit =>
    obtain ⟨merged, rest, hok⟩ := exists_getPartsForOptimalMerge o hpws
    exact absurd (hsplit.symm.trans hok) nofun

/-- A round of the loops that merge until one part is left: the groups are merged, in threads that
end in any order; a merge of which nothing is left gives no part, and parts that are big enough are
registered. -/
inductive Round (maxPartSize : ℕ) : List α → List α → Prop where
  | mk {pws results : List α} {groups : List (List α)} (merge : List α → Option α)
    (hmore : 1 < pws.length)
      (hgroups : mergeGroups o pws = .ok groups)
      (hresults : results.Perm (groups.filterMap merge)) :
      Round maxPartSize pws (results.filter fun pw => size pw < maxPartSize)

variable {o}

/-- Every round leaves less parts. -/
theorem Round.length_lt {maxPartSize : ℕ} {pws' : List α} (h : Round o maxPartSize pws pws') :
    1 < pws.length ∧ pws'.length < pws.length := by
  obtain ⟨merge, hmore, hgroups, hresults⟩ := h
  refine ⟨hmore, (length_filter_le _ _).trans_lt ?_⟩
  have hlen := length_mergeGroups o hgroups
  rw [hresults.length_eq]
  exact (length_filterMap_le merge _).trans_lt (by omega)

/-- No run of rounds is longer than there are parts to begin with. -/
theorem length_rounds {maxPartSize : ℕ} {run : List (List α)}
    (h : List.IsChain (Round o maxPartSize) (pws :: run)) : run.length ≤ pws.length - 1 := by
  induction run generalizing pws with
  | nil => exact Nat.zero_le _
  | cons pws' run ih =>
    obtain ⟨hround, hrun⟩ := isChain_cons_cons.mp h
    have hlt := hround.length_lt
    have hle := ih hrun
    rw [length_cons]
    omega

/-- **The choice of parts to merge**, for either order of the candidates. -/
theorem partSelection (o : CandidateOrder size κ) :
    (∀ (src : List α) (maxPartsToMerge maxOutBytes : ℕ), src.Nodup → 2 ≤ maxPartsToMerge →
      ∃ out, appendPartsToMerge o src maxPartsToMerge maxOutBytes = .ok out ∧
        (out = [] ∨ out.Nodup ∧ out ⊆ src ∧ Admissible size maxPartsToMerge maxOutBytes out ∧
          max (maxPartsToMerge / 2 : ℚ) minMergeMultiplier ≤ ratio size out ∧
          ∀ w, w <:+: candidates o src maxOutBytes → Admissible size maxPartsToMerge maxOutBytes w →
            ratio size w ≤ ratio size out)) ∧
    (∀ pws : List α, pws.Nodup → ∃ merged rest, getPartsForOptimalMerge o pws = .ok (merged, rest) ∧
      (merged ++ rest).Perm pws) ∧
    (∀ pws : List α, pws.Nodup → ∃ groups, mergeGroups o pws = .ok groups ∧
      groups.flatten.Perm pws) ∧
    (∀ (maxPartSize : ℕ) (pws : List α) (run : List (List α)),
      List.IsChain (Round o maxPartSize) (pws :: run) → run.length ≤ pws.length - 1) := by
  refine ⟨fun src maxPartsToMerge maxOutBytes hsrc hmax => ?_, fun pws hpws => ?_,
    fun pws => exists_mergeGroups o, fun _ _ _ => length_rounds⟩
  · obtain ⟨out, hout, ⟨l, hperm, hsublist⟩, hchoice⟩ :=
      exists_appendPartsToMerge o src hmax maxOutBytes
    refine ⟨out, hout, hchoice.imp_right fun ⟨hadmissible, hratio, hbest⟩ => ?_⟩
    exact ⟨hperm.nodup_iff.mp (hsrc.sublist hsublist),
      fun p hp => hsublist.subset (hperm.mem_iff.mpr hp), hadmissible, hratio, hbest⟩
  · obtain ⟨merged, rest, hok⟩ := exists_getPartsForOptimalMerge o hpws
    exact ⟨merged, rest, hok, (getPartsForOptimalMerge_eq_ok o hok).2 hpws⟩

/-- Both copies choose all four parts of about one size, and no window has a larger ratio. -/
theorem partSelection_four :
    appendPartsToMerge (mergesetOrder id) [7, 8, 9, 10] 4 100 = .ok [7, 8, 9, 10] ∧
      appendPartsToMerge (storageOrder id fun n : ℕ => -n) [7, 8, 9, 10] 4 100 = .ok [7, 8, 9, 10] ∧
      Admissible id 4 100 [7, 8, 9, 10] ∧
      ∀ w, w <:+: candidates (mergesetOrder id) [7, 8, 9, 10] 100 → Admissible id 4 100 w →
        ratio id w ≤ ratio id [7, 8, 9, 10] := by
  have hmergeset : appendPartsToMerge (mergesetOrder id) [7, 8, 9, 10] 4 100 =
      .ok [7, 8, 9, 10] := by
    decide +kernel
  obtain ⟨out, hout, hchoice⟩ :=
    (partSelection (mergesetOrder id)).1 [7, 8, 9, 10] 4 100 (by decide) (by decide)
  obtain rfl := Outcome.ok.inj (hmergeset.symm.trans hout)
  obtain ⟨-, -, hadmissible, -, hbest⟩ := hchoice.resolve_left (by decide)
  exact ⟨hmergeset, by decide +kernel, hadmissible, hbest⟩

end Esmetrics.PartSelection
