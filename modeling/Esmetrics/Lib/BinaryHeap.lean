import Esmetrics.Lib.Outcome
import Mathlib.Data.List.Nodup
import Mathlib.Data.List.Perm.Basic
import Mathlib.Order.Lattice
import Mathlib.Tactic.Common

/-!
# Binary heaps in arrays

`siftDown` moves the element at a position down until it is not greater than its children, and
`heapify` sifts down from the last inner position to the root. `HeapAbove less heap k` says that no
element at a position from `k` on has a smaller child, so that a heap is `HeapAbove less heap 0` and
its root is minimal (`HeapAbove.root_le`).

The comparison is any function that agrees with the order of a key on the elements of the heap. A
comparison that may panic is that of `siftDownM` and `heapifyM`, which do the same as long as it
does not (`siftDownM_eq`, `heapifyM_eq`).
-/

namespace Esmetrics

open List

section BinaryHeap

variable {α : Type} [Inhabited α]

/-- The smaller child of position `i`, which has a left child. -/
def smallerChild (less : α → α → Bool) (heap : Array α) (i : ℕ) : ℕ :=
  let left := 2 * i + 1
  let right := left + 1
  if right < heap.size && less heap[right]! heap[left]! then right else left

/-- Moves the element at position `i` down. -/
def siftDown (less : α → α → Bool) (heap : Array α) (i : ℕ) : Array α :=
  if 2 * i + 1 ≥ heap.size then heap
  else
    let smallest := smallerChild less heap i
    if !less heap[smallest]! heap[i]! then heap
    else siftDown less (heap.swapIfInBounds i smallest) smallest
termination_by heap.size - i
decreasing_by
  rw [Array.size_swapIfInBounds, smallerChild]
  split_ifs <;> omega

/-- Moves the element at position `i` up. -/
def siftUp (less : α → α → Bool) (heap : Array α) (i : ℕ) : Array α :=
  if i = 0 then heap
  else
    let parent := (i - 1) / 2
    if !less heap[i]! heap[parent]! then heap
    else siftUp less (heap.swapIfInBounds i parent) parent
termination_by i
decreasing_by omega

/-- Makes a heap. -/
def heapify (less : α → α → Bool) (heap : Array α) : Array α :=
  (List.range (heap.size / 2)).foldr (fun i heap => siftDown less heap i) heap

/-! ### Permutations -/

omit [Inhabited α] in
theorem swapIfInBounds_perm (heap : Array α) (i j : ℕ) :
    (heap.swapIfInBounds i j).toList.Perm heap.toList := by
  rw [Array.swapIfInBounds_def]
  split_ifs with hi hj
  · exact Array.perm_iff_toList_perm.mp (Array.swap_perm hi hj)
  · exact Perm.refl _
  · exact Perm.refl _

theorem siftDown_perm (less : α → α → Bool) (heap : Array α) (i : ℕ) :
    (siftDown less heap i).toList.Perm heap.toList := by
  fun_induction siftDown less heap i with
  | case1 => exact Perm.refl _
  | case2 => exact Perm.refl _
  | case3 heap i _ smallest _ ih => exact ih.trans (swapIfInBounds_perm heap i smallest)

theorem siftUp_perm (less : α → α → Bool) (heap : Array α) (i : ℕ) :
    (siftUp less heap i).toList.Perm heap.toList := by
  fun_induction siftUp less heap i with
  | case1 => exact Perm.refl _
  | case2 => exact Perm.refl _
  | case3 heap i _ parent _ ih => exact ih.trans (swapIfInBounds_perm heap i parent)

theorem size_siftDown (less : α → α → Bool) (heap : Array α) (i : ℕ) :
    (siftDown less heap i).size = heap.size := by
  simpa using (siftDown_perm less heap i).length_eq

theorem heapify_perm (less : α → α → Bool) (heap : Array α) :
    (heapify less heap).toList.Perm heap.toList := by
  rw [heapify]
  induction List.range (heap.size / 2) with
  | nil => exact Perm.refl _
  | cons i is ih => exact (siftDown_perm less _ i).trans ih

/-! ### Order -/

variable {κ : Type} [LinearOrder κ] {key : α → κ} {less : α → α → Bool}

/-- The comparison agrees with the order of the keys on the elements of a list. -/
def ComparesBy (less : α → α → Bool) (key : α → κ) (l : List α) : Prop :=
  ∀ a ∈ l, ∀ b ∈ l, less a b = decide (key a < key b)

omit [Inhabited α] in
theorem ComparesBy.of_perm {l l' : List α} (h : ComparesBy less key l) (hp : l'.Perm l) :
    ComparesBy less key l' :=
  fun a ha b hb => h a (hp.mem_iff.mp ha) b (hp.mem_iff.mp hb)

/-- The children of a position. -/
def IsChild (p c : ℕ) : Prop := c = 2 * p + 1 ∨ c = 2 * p + 2

/-- No element at a position from `k` on has a smaller child. -/
def HeapAbove (key : α → κ) (heap : Array α) (k : ℕ) : Prop :=
  ∀ p c, k ≤ p → IsChild p c → c < heap.size → key heap[p]! ≤ key heap[c]!

/-- What `siftDown` needs at position `i`: the other positions from `k` on have no smaller child,
and the parent of `i` is not greater than the children of `i`. -/
structure HeapAboveExcept (key : α → κ) (heap : Array α) (k i : ℕ) : Prop where
  others : ∀ p c, k ≤ p → p ≠ i → IsChild p c → c < heap.size → key heap[p]! ≤ key heap[c]!
  parent : ∀ p c, k ≤ p → IsChild p i → IsChild i c → c < heap.size → key heap[p]! ≤ key heap[c]!

variable {heap : Array α}

theorem getElem!_mem {i : ℕ} (h : i < heap.size) : heap[i]! ∈ heap.toList := by
  rw [getElem!_pos heap i h]
  exact Array.getElem_mem_toList h

/-- Without repetitions, the elements at the other positions are not that of the root. -/
theorem getElem!_ne_root (hnodup : heap.toList.Nodup) {p : ℕ} (hp : p ≠ 0) (hlt : p < heap.size) :
    heap[p]! ≠ heap[0]! := by
  rw [getElem!_pos heap p hlt, getElem!_pos heap 0 (by omega)]
  intro heq
  rw [← Array.getElem_toList, ← Array.getElem_toList] at heq
  exact hp ((Nodup.getElem_inj_iff hnodup).mp heq)

theorem getElem!_swapIfInBounds {i j : ℕ} (hi : i < heap.size) (hj : j < heap.size) (k : ℕ) :
    (heap.swapIfInBounds i j)[k]! =
      if k = i then heap[j]! else if k = j then heap[i]! else heap[k]! := by
  by_cases hk : k < heap.size
  · have hk' : k < (heap.swapIfInBounds i j).size := by rwa [Array.size_swapIfInBounds]
    rw [getElem!_pos _ k hk', Array.getElem_swapIfInBounds, getElem!_pos heap j hj,
      getElem!_pos heap i hi, getElem!_pos heap k hk]
    split_ifs <;> simp_all
  · have hk' : ¬ k < (heap.swapIfInBounds i j).size := by rwa [Array.size_swapIfInBounds]
    rw [getElem!_neg _ k hk', getElem!_neg heap k hk, if_neg (by omega), if_neg (by omega)]

theorem isChild_smallerChild (heap : Array α) (i : ℕ) : IsChild i (smallerChild less heap i) := by
  rw [smallerChild]
  split_ifs
  · exact .inr rfl
  · exact .inl rfl

theorem smallerChild_lt {i : ℕ} (h : 2 * i + 1 < heap.size) :
    smallerChild less heap i < heap.size := by
  rw [smallerChild]
  split_ifs with hright
  · rw [Bool.and_eq_true, decide_eq_true_eq] at hright
    exact hright.1
  · exact h

theorem key_smallerChild_le {i c : ℕ} (hless : ComparesBy less key heap.toList) (hc : IsChild i c)
    (hlt : c < heap.size) :
    key heap[smallerChild less heap i]! ≤ key heap[c]! := by
  rw [smallerChild]
  have hleft : 2 * i + 1 < heap.size := by
    rcases hc with rfl | rfl <;> omega
  split_ifs with hright
  · rw [Bool.and_eq_true, decide_eq_true_eq] at hright
    obtain ⟨hsize, hlt'⟩ := hright
    rw [hless _ (getElem!_mem hsize) _ (getElem!_mem hleft), decide_eq_true_eq] at hlt'
    rcases hc with rfl | rfl
    · exact hlt'.le
    · exact le_rfl
  · rcases hc with rfl | rfl
    · exact le_rfl
    · rw [Bool.and_eq_true, decide_eq_true_eq, not_and] at hright
      have hge := hright hlt
      rw [hless _ (getElem!_mem hlt) _ (getElem!_mem hleft), decide_eq_true_eq, not_lt] at hge
      exact hge

/-- Sifting down repairs the heap at one position. -/
theorem heapAbove_siftDown {k i : ℕ} (hless : ComparesBy less key heap.toList)
    (h : HeapAboveExcept key heap k i) : HeapAbove key (siftDown less heap i) k := by
  fun_induction siftDown less heap i with
  | case1 heap i hleft =>
    intro p c hp hc hlt
    refine h.others p c hp ?_ hc hlt
    rintro rfl
    rcases hc with rfl | rfl <;> omega
  | case2 heap i hleft smallest hstop =>
    rw [ge_iff_le, not_le] at hleft
    have hi : i < heap.size := by omega
    have hsmallest : smallest < heap.size := smallerChild_lt hleft
    rw [Bool.not_eq_true', hless _ (getElem!_mem hsmallest) _ (getElem!_mem hi),
      decide_eq_false_iff_not, not_lt] at hstop
    intro p c hp hc hlt
    by_cases hpi : p = i
    · subst hpi
      exact hstop.trans (key_smallerChild_le hless hc hlt)
    · exact h.others p c hp hpi hc hlt
  | case3 heap i hleft smallest hgo ih =>
    rw [ge_iff_le, not_le] at hleft
    have hi : i < heap.size := by omega
    have hsmallest : smallest < heap.size := smallerChild_lt hleft
    have hchild : IsChild i smallest := isChild_smallerChild heap i
    have hne : i ≠ smallest := by rcases hchild with h | h <;> omega
    rw [Bool.not_eq_true', Bool.not_eq_false, hless _ (getElem!_mem hsmallest) _ (getElem!_mem hi),
      decide_eq_true_eq] at hgo
    refine ih (hless.of_perm (swapIfInBounds_perm heap i smallest)) ⟨?_, ?_⟩
    · intro p c hp hpne hc hlt
      rw [Array.size_swapIfInBounds] at hlt
      rw [getElem!_swapIfInBounds hi hsmallest, getElem!_swapIfInBounds hi hsmallest]
      by_cases hpi : p = i
      · subst hpi
        -- the smaller child is above its sibling and above the old element
        have hci : c ≠ p := by rcases hc with rfl | rfl <;> omega
        rw [if_pos rfl, if_neg hci]
        split_ifs with hcs
        · exact hgo.le
        · exact key_smallerChild_le hless hc hlt
      · rw [if_neg hpi, if_neg hpne]
        by_cases hci : c = i
        · subst hci
          rw [if_pos rfl]
          exact h.parent p smallest hp hc hchild hsmallest
        · have hcs : c ≠ smallest := by
            rintro rfl
            rcases hc with hc | hc <;> rcases hchild with hchild | hchild <;> omega
          rw [if_neg hci, if_neg hcs]
          exact h.others p c hp hpi hc hlt
    · intro p c hp hpar hc hlt
      rw [Array.size_swapIfInBounds] at hlt
      have hpi : p = i := by
        rcases hpar with hpar | hpar <;> rcases hchild with hchild | hchild <;> omega
      subst hpi
      have hcp : c ≠ p := by
        rcases hc with rfl | rfl <;> rcases hchild with hchild | hchild <;> omega
      have hcs : c ≠ smallest := by rcases hc with rfl | rfl <;> omega
      rw [getElem!_swapIfInBounds hi hsmallest, getElem!_swapIfInBounds hi hsmallest, if_pos rfl,
        if_neg hcp, if_neg hcs]
      exact h.others smallest c (by rcases hchild with h | h <;> omega) hne.symm hc hlt

/-- Heapifying makes a heap. -/
theorem heapAbove_heapify (hless : ComparesBy less key heap.toList) :
    HeapAbove key (heapify less heap) 0 := by
  have hloop : ∀ n k, k + n = heap.size / 2 →
      let heap' := (List.range' k n).foldr (fun i heap => siftDown less heap i) heap
      HeapAbove key heap' k ∧ heap'.toList.Perm heap.toList := by
    intro n
    induction n with
    | zero =>
      intro k hk
      refine ⟨?_, Perm.refl _⟩
      intro p c hp hc hlt
      have hlt : c < heap.size := hlt
      rcases hc with rfl | rfl <;> omega
    | succ n ih =>
      intro k hk
      obtain ⟨habove, hperm⟩ := ih (k + 1) (by omega)
      rw [range'_succ, foldr_cons]
      refine ⟨heapAbove_siftDown (hless.of_perm hperm) ⟨?_, ?_⟩,
        (siftDown_perm less _ k).trans hperm⟩
      · intro p c hp hpk hc hlt
        exact habove p c (by omega) hc hlt
      · intro p c hp hpar
        rcases hpar with h | h <;> omega
  have h := (hloop (heap.size / 2) 0 (by omega)).1
  rwa [← range_eq_range'] at h

/-- The root of a heap is minimal. -/
theorem HeapAbove.root_le (h : HeapAbove key heap 0) {a : α} (ha : a ∈ heap.toList) :
    key heap[0]! ≤ key a := by
  have hpos : ∀ i, i < heap.size → key heap[0]! ≤ key heap[i]! := by
    intro i
    induction i using Nat.strongRecOn with
    | ind i ih =>
      intro hi
      by_cases hi0 : i = 0
      · subst hi0
        exact le_rfl
      · have hpar : IsChild ((i - 1) / 2) i := by
          rw [IsChild]
          omega
        exact (ih ((i - 1) / 2) (by omega) (by omega)).trans (h _ i (Nat.zero_le _) hpar hi)
  obtain ⟨i, hi, rfl⟩ := getElem_of_mem ha
  rw [Array.length_toList] at hi
  rw [Array.getElem_toList, ← getElem!_pos heap i hi]
  exact hpos i hi

/-- What is at most the children of the root is at most every element but the root. -/
theorem HeapAbove.le_of_children (h : HeapAbove key heap 0) {k : κ}
    (hle : ∀ c, IsChild 0 c → c < heap.size → k ≤ key heap[c]!) {p : ℕ} (hp : p ≠ 0)
    (hlt : p < heap.size) : k ≤ key heap[p]! := by
  induction p using Nat.strongRecOn with
  | ind p ih =>
    have hpar : IsChild ((p - 1) / 2) p := by
      rw [IsChild]
      omega
    by_cases hroot : (p - 1) / 2 = 0
    · exact hle p (hroot ▸ hpar) hlt
    · exact (ih ((p - 1) / 2) (by omega) hroot (by omega)).trans (h _ p (Nat.zero_le _) hpar hlt)

/-! ### Comparisons that may panic -/

/-- The smaller child of position `i`, which has a left child. -/
def smallerChildM (less : α → α → Outcome Bool) (heap : Array α) (i : ℕ) : Outcome ℕ :=
  let left := 2 * i + 1
  let right := left + 1
  if right < heap.size then do
    let isLess ← less heap[right]! heap[left]!
    .ok (if isLess then right else left)
  else .ok left

/-- Moves the element at position `i` down, for at most `fuel` levels. -/
def siftDownLevels (less : α → α → Outcome Bool) : ℕ → Array α → ℕ → Outcome (Array α)
  | 0, heap, _ => .ok heap
  | fuel + 1, heap, i =>
    if 2 * i + 1 ≥ heap.size then .ok heap
    else do
      let smallest ← smallerChildM less heap i
      let isLess ← less heap[smallest]! heap[i]!
      if !isLess then .ok heap
      else siftDownLevels less fuel (heap.swapIfInBounds i smallest) smallest

/-- Moves the element at position `i` down. A heap has fewer levels than elements. -/
def siftDownM (less : α → α → Outcome Bool) (heap : Array α) (i : ℕ) : Outcome (Array α) :=
  siftDownLevels less heap.size heap i

/-- Makes a heap. -/
def heapifyM (less : α → α → Outcome Bool) (heap : Array α) : Outcome (Array α) :=
  (List.range (heap.size / 2)).reverse.foldlM (siftDownM less) heap

/-- The comparison does not panic on the elements of a list. -/
def ComparesAs (lessM : α → α → Outcome Bool) (less : α → α → Bool) (l : List α) : Prop :=
  ∀ a ∈ l, ∀ b ∈ l, lessM a b = .ok (less a b)

variable {lessM : α → α → Outcome Bool}

omit [Inhabited α] in
theorem ComparesAs.of_perm {l l' : List α} (h : ComparesAs lessM less l) (hp : l'.Perm l) :
    ComparesAs lessM less l' :=
  fun a ha b hb => h a (hp.mem_iff.mp ha) b (hp.mem_iff.mp hb)

theorem smallerChildM_eq {i : ℕ} (h : ComparesAs lessM less heap.toList)
    (hleft : 2 * i + 1 < heap.size) :
    smallerChildM lessM heap i = .ok (smallerChild less heap i) := by
  rw [smallerChildM, smallerChild]
  by_cases hright : 2 * i + 1 + 1 < heap.size
  · simp only [if_pos hright, h _ (getElem!_mem hright) _ (getElem!_mem hleft), Outcome.ok_bind,
      decide_eq_true hright, Bool.true_and]
  · simp only [if_neg hright, decide_eq_false hright, Bool.false_and, Bool.false_eq_true, if_false]

theorem siftDownLevels_eq {i fuel : ℕ} (h : ComparesAs lessM less heap.toList)
    (hfuel : heap.size ≤ i + fuel) :
    siftDownLevels lessM fuel heap i = .ok (siftDown less heap i) := by
  induction fuel generalizing heap i with
  | zero =>
    rw [siftDownLevels, siftDown, if_pos (by omega)]
  | succ fuel ih =>
    rw [siftDownLevels, siftDown]
    by_cases hend : 2 * i + 1 ≥ heap.size
    · rw [if_pos hend, if_pos hend]
    · have hleft : 2 * i + 1 < heap.size := Nat.lt_of_not_le hend
      have hsmallest : smallerChild less heap i < heap.size := smallerChild_lt hleft
      have hchild : IsChild i (smallerChild less heap i) := isChild_smallerChild heap i
      rw [if_neg hend, if_neg hend, smallerChildM_eq h hleft, Outcome.ok_bind,
        h _ (getElem!_mem hsmallest) _ (getElem!_mem (by omega)), Outcome.ok_bind]
      cases hless : less heap[smallerChild less heap i]! heap[i]! with
      | false => simp only [hless, Bool.not_false, if_true]
      | true =>
        simp only [hless, Bool.not_true, Bool.false_eq_true, if_false]
        refine ih (h.of_perm (swapIfInBounds_perm heap i _)) ?_
        rw [Array.size_swapIfInBounds]
        rcases hchild with h | h <;> omega

/-- Without a panic, the element is sifted down. -/
theorem siftDownM_eq (h : ComparesAs lessM less heap.toList) (i : ℕ) :
    siftDownM lessM heap i = .ok (siftDown less heap i) :=
  siftDownLevels_eq h (Nat.le_add_left _ _)

/-- Without a panic, a heap is made. -/
theorem heapifyM_eq (h : ComparesAs lessM less heap.toList) :
    heapifyM lessM heap = .ok (heapify less heap) := by
  have hloop : ∀ (is : List ℕ) (heap : Array α), ComparesAs lessM less heap.toList →
      is.foldlM (siftDownM lessM) heap =
        .ok (is.foldl (fun heap i => siftDown less heap i) heap) := by
    intro is
    induction is with
    | nil => exact fun heap _ => rfl
    | cons i is ih =>
      intro heap h
      rw [foldlM_cons, siftDownM_eq h, Outcome.ok_bind, foldl_cons]
      exact ih _ (h.of_perm (siftDown_perm less heap i))
  rw [heapifyM, hloop _ heap h, foldl_reverse]
  rfl

end BinaryHeap

end Esmetrics
