import Esmetrics.Lib.BinaryHeap
import Esmetrics.Lib.Outcome
import Mathlib.Data.List.Forall2
import Mathlib.Data.List.Nodup

/-!
# Merging sources with a heap

A source is advanced by `next`, which tells whether there is a current item, given by `cur`; at the
end, `error` tells whether the source has stopped because of an error. `Delivers` is the list of
items that a source gives until it ends without an error.

`HeapMerge` merges a pool of sources through a heap of indices that is ordered by the current items.
It is a source itself: it delivers the items of its sources, each once (`exists_delivers_start`),
and in the order of a key if every source does.
-/

namespace Esmetrics

open List Outcome
open Function (update update_of_ne update_self)

/-- What a source is made of. -/
structure SourceOps (σ ε : Type) where
  /-- Advances the source, and tells whether there is an item. -/
  next : σ → Outcome (Bool × σ)
  /-- The current item. -/
  cur : σ → ε
  /-- The error that has stopped the source. -/
  error : σ → Option String

namespace SourceOps

variable {σ ε : Type} (ops : SourceOps σ ε)

/-- The items that a source gives until it ends without an error. -/
def Delivers (s : σ) : List ε → Prop
  | [] => ∃ s', ops.next s = .ok (false, s') ∧ ops.error s' = none
  | e :: es => ∃ s', ops.next s = .ok (true, s') ∧ ops.cur s' = e ∧ Delivers s' es

end SourceOps

/-- Why a merge has stopped. -/
inductive HeapMergeError where
  | eof
  | other (msg : String)
  deriving DecidableEq, Repr

/-- A merge of sources. -/
structure HeapMerge (σ : Type) where
  pool : List σ
  /-- Indices into the pool, as a heap ordered by the current items. -/
  heap : Array ℕ
  /-- The next call of `next` is a no-op. -/
  nextBlockNoop : Bool
  err : Option HeapMergeError

namespace HeapMerge

variable {σ ε : Type} [Inhabited σ] (ops : SourceOps σ ε) (less : ε → ε → Bool)

/-- The current item of the source at an index. -/
def curAt (pool : List σ) (i : ℕ) : ε := ops.cur (pool[i]!)

/-- The comparison of the heap. -/
def lessAt (pool : List σ) (i j : ℕ) : Bool := less (curAt ops pool i) (curAt ops pool j)

/-- Advances all the sources from index `i` on to their first items; returns the indices of those
that have one, and the first error. -/
def startSources (i : ℕ) : List σ → Outcome (List σ × List ℕ × Option String)
  | [] => .ok ([], [], none)
  | s :: ss => do
    let (has, s) ← ops.next s
    if has then
      let (ss, is, err) ← startSources (i + 1) ss
      .ok (s :: ss, i :: is, err)
    else
      match ops.error s with
      | some err => .ok (s :: ss, [], some err)
      | none =>
        let (ss, is, err) ← startSources (i + 1) ss
        .ok (s :: ss, is, err)

/-- A merge that stands at its first item. -/
def start (describe : String → String) (pool : List σ) : Outcome (HeapMerge σ) := do
  let (pool, is, err) ← startSources ops 0 pool
  match err with
  | some err => .ok ⟨pool, is.toArray, false, some (.other (describe err))⟩
  | none =>
    if is.isEmpty then .ok ⟨pool, #[], false, some .eof⟩
    else .ok ⟨pool, heapify (lessAt ops less pool) is.toArray, true, none⟩

/-- Advances the merge, and tells whether there is an item. -/
def next (describe : String → String) (m : HeapMerge σ) : Outcome (Bool × HeapMerge σ) := do
  if m.err.isSome then .ok (false, m)
  else if m.nextBlockNoop then .ok (true, { m with nextBlockNoop := false })
  else
    let idx := m.heap[0]!
    let (has, s) ← ops.next (m.pool[idx]!)
    let pool := m.pool.set idx s
    if has then .ok (true, { m with pool, heap := siftDown (lessAt ops less pool) m.heap 0 })
    else
      match ops.error s with
      | some err => .ok (false, { m with pool, err := some (.other (describe err)) })
      | none =>
        -- the source is exhausted
        let heap := (m.heap.swapIfInBounds 0 (m.heap.size - 1)).pop
        let heap := siftDown (lessAt ops less pool) heap 0
        if heap.isEmpty then .ok (false, { m with pool, heap, err := some .eof })
        else .ok (true, { m with pool, heap })

/-- The current item. -/
def cur (m : HeapMerge σ) : ε := curAt ops m.pool (m.heap[0]!)

/-- The last error, unless it is the end. -/
def error (m : HeapMerge σ) : Option String :=
  match m.err with
  | some (.other msg) => some msg
  | _ => none

/-- A merge as a source. -/
def asSource (describe : String → String) : SourceOps (HeapMerge σ) ε :=
  ⟨next ops less describe, cur ops, error⟩

/-! ### The items of a merge -/

/-- The merge stands at an item, and the source at an index `i` of the heap is at the first of the
items `rem i`. -/
structure At (rem : ℕ → List ε) (m : HeapMerge σ) : Prop where
  err_eq : m.err = none
  noop_eq : m.nextBlockNoop = false
  size_pos : 0 < m.heap.size
  nodup : m.heap.toList.Nodup
  lt_length : ∀ i ∈ m.heap.toList, i < m.pool.length
  rem_eq : ∀ i ∈ m.heap.toList,
    ∃ es, rem i = curAt ops m.pool i :: es ∧ ops.Delivers (m.pool[i]!) es

variable {κ : Type} [LinearOrder κ]

/-- The heap is a heap, and every source is sorted. -/
structure Sorted (key : ε → κ) (rem : ℕ → List ε) (m : HeapMerge σ) : Prop where
  less_eq : ComparesBy less key (m.heap.toList.flatMap rem)
  sorted : ∀ i ∈ m.heap.toList, (rem i).Pairwise fun a b => key a ≤ key b
  heapAbove : HeapAbove (fun i => key (curAt ops m.pool i)) m.heap 0

variable {ops less} {key : ε → κ} {rem : ℕ → List ε} {m : HeapMerge σ} {describe : String → String}

theorem getElem!_set {l : List σ} {i : ℕ} (hi : i < l.length) (s : σ) (j : ℕ) :
    (l.set i s)[j]! = if j = i then s else l[j]! := by
  simp only [getElem!_def, getElem?_set]
  by_cases hj : j = i
  · simp [hj, hi]
  · simp [hj, Ne.symm hj]

theorem At.root_mem (h : At ops rem m) : m.heap[0]! ∈ m.heap.toList := getElem!_mem h.size_pos

/-- The current items are compared as their keys. -/
theorem comparesBy_lessAt {heap : List ℕ} {pool : List σ} (rem : ℕ → List ε)
    (hless : ComparesBy less key (heap.flatMap rem))
    (hcur : ∀ i ∈ heap, curAt ops pool i ∈ rem i) :
    ComparesBy (lessAt ops less pool) (fun i => key (curAt ops pool i)) heap := by
  intro i hi j hj
  exact hless _ (mem_flatMap.mpr ⟨i, hi, hcur i hi⟩) _ (mem_flatMap.mpr ⟨j, hj, hcur j hj⟩)

/-- What is left of the items when the source at an index of the heap gives one. -/
theorem flatMap_update_perm {heap rest : List ℕ} {i : ℕ} {e : ε} {es : List ε}
    (hnodup : heap.Nodup) (hperm : heap.Perm (i :: rest)) (hrem : rem i = e :: es) :
    (heap.flatMap rem).Perm (e :: (es ++ rest.flatMap (update rem i es))) := by
  have hnot : i ∉ rest := (nodup_cons.mp (hperm.nodup_iff.mp hnodup)).1
  have hrest : rest.flatMap (update rem i es) = rest.flatMap rem := by
    refine flatMap_congr fun j hj => ?_
    rw [update_of_ne]
    rintro rfl
    exact hnot hj
  rw [hrest]
  refine (hperm.flatMap_right rem).trans ?_
  rw [flatMap_cons, hrem, cons_append]

/-- The root is exchanged with the last element and removed. -/
theorem pop_swap_perm {heap : Array ℕ} (h : 0 < heap.size) :
    heap.toList.Perm (heap[0]! :: (heap.swapIfInBounds 0 (heap.size - 1)).pop.toList) := by
  have hlast : heap.size - 1 < heap.size := by omega
  set heap' := heap.swapIfInBounds 0 (heap.size - 1) with hheap'
  have hsize : heap'.size = heap.size := Array.size_swapIfInBounds
  have hback : heap'.toList = heap'.pop.toList ++ [heap[0]!] := by
    have hne : heap'.toList ≠ [] := by
      rw [← length_pos_iff, Array.length_toList]
      omega
    have hget : heap'[heap.size - 1]! = heap[0]! := by
      rw [hheap', getElem!_swapIfInBounds h hlast]
      split_ifs with h0 h1
      · rw [h0]
      · rfl
      · exact absurd rfl h1
    rw [Array.toList_pop, ← dropLast_append_getLast hne, dropLast_concat,
      getLast_eq_getElem]
    simp only [Array.length_toList, hsize, Array.getElem_toList]
    rw [← hget, getElem!_pos heap' (heap.size - 1) (by omega)]
  have hperm := swapIfInBounds_perm heap 0 (heap.size - 1)
  rw [← hheap', hback] at hperm
  exact hperm.symm.trans (perm_append_singleton _ _)

/-- The heap without its root, whose position the last element takes. -/
theorem heapAboveExcept_pop_swap {f : ℕ → κ} {heap : Array ℕ} (h : HeapAbove f heap 0) :
    HeapAboveExcept f (heap.swapIfInBounds 0 (heap.size - 1)).pop 0 0 := by
  set heap' := (heap.swapIfInBounds 0 (heap.size - 1)).pop with hheap'
  have hsize : heap'.size = heap.size - 1 := by simp [hheap']
  have hget : ∀ j, j ≠ 0 → j < heap'.size → heap'[j]! = heap[j]! := by
    intro j hj hlt
    rw [hsize] at hlt
    have h1 : heap'[j]! = (heap.swapIfInBounds 0 (heap.size - 1))[j]! := by
      rw [getElem!_pos heap' j (by omega), getElem!_pos _ j (by simp; omega)]
      simp [hheap']
    rw [h1, getElem!_swapIfInBounds (by omega) (by omega), if_neg hj, if_neg (by omega)]
  refine ⟨?_, ?_⟩
  · intro p c hp hp0 hc hlt
    have hpc : p < c := by rcases hc with rfl | rfl <;> omega
    rw [hget p hp0 (by omega), hget c (by omega) hlt]
    exact h p c hp hc (by omega)
  · intro p c hp hpar
    rcases hpar with h | h <;> omega

/-- The root may have any key before it is sifted down. -/
theorem heapAboveExcept_congr {f f' : ℕ → κ} {heap : Array ℕ} (h : HeapAboveExcept f heap 0 0)
    (heq : ∀ p, p ≠ 0 → p < heap.size → f' heap[p]! = f heap[p]!) :
    HeapAboveExcept f' heap 0 0 := by
  refine ⟨?_, ?_⟩
  · intro p c hp hp0 hc hlt
    have hpc : p < c := by rcases hc with rfl | rfl <;> omega
    rw [heq p hp0 (by omega), heq c (by omega) hlt]
    exact h.others p c hp hp0 hc hlt
  · intro p c hp hpar
    rcases hpar with h | h <;> omega

theorem next_of_has (h : At ops rem m) {s : σ}
    (hnext : ops.next (m.pool[m.heap[0]!]!) = .ok (true, s)) :
    next ops less describe m = .ok (true, { m with
      pool := m.pool.set (m.heap[0]!) s
      heap := siftDown (lessAt ops less (m.pool.set (m.heap[0]!) s)) m.heap 0 }) := by
  rw [next, h.err_eq, h.noop_eq]
  simp only [Option.isSome_none, Bool.false_eq_true, if_false, hnext, ok_bind, if_true]

theorem next_of_end (less : ε → ε → Bool) (describe : String → String) (h : At ops rem m) {s : σ}
    (hnext : ops.next (m.pool[m.heap[0]!]!) = .ok (false, s)) (herror : ops.error s = none) :
    next ops less describe m =
      let pool := m.pool.set (m.heap[0]!) s
      let heap := siftDown (lessAt ops less pool) (m.heap.swapIfInBounds 0 (m.heap.size - 1)).pop 0
      if heap.isEmpty then .ok (false, { m with pool, heap, err := some .eof })
      else .ok (true, { m with pool, heap }) := by
  rw [next, h.err_eq, h.noop_eq]
  simp only [Option.isSome_none, Bool.false_eq_true, if_false, hnext, ok_bind, herror]

section Advance

variable {s : σ} {es : List ε} {heap : Array ℕ}

/-- The merge after the source of the root has been advanced. -/
theorem At.advance (h : At ops rem m) (hsize : 0 < heap.size)
    (hnodup : heap.toList.Nodup) (hsub : ∀ j ∈ heap.toList, j ∈ m.heap.toList)
    (hroot : m.heap[0]! ∈ heap.toList →
      ∃ es', es = ops.cur s :: es' ∧ ops.Delivers s es') :
    At ops (update rem (m.heap[0]!) es)
      { m with pool := m.pool.set (m.heap[0]!) s, heap } := by
  have hilt := h.lt_length _ h.root_mem
  refine ⟨h.err_eq, h.noop_eq, hsize, hnodup, ?_, ?_⟩
  · intro j hj
    rw [length_set]
    exact h.lt_length j (hsub j hj)
  · intro j hj
    rw [curAt, getElem!_set hilt]
    by_cases hji : j = m.heap[0]!
    · subst hji
      rw [if_pos rfl, update_self]
      exact hroot hj
    · rw [if_neg hji, update_of_ne hji]
      exact h.rem_eq j (hsub j hj)

/-- The heap is repaired after the source of the root has been advanced. -/
theorem Sorted.advance (hsorted : Sorted ops less key rem m)
    (hat : At ops (update rem (m.heap[0]!) es)
      { m with pool := m.pool.set (m.heap[0]!) s, heap })
    (hsub : ∀ j ∈ heap.toList, j ∈ m.heap.toList) {e : ε} (hrem : rem (m.heap[0]!) = e :: es)
    (hheap : HeapAboveExcept (fun i => key (curAt ops (m.pool.set (m.heap[0]!) s) i)) heap 0 0) :
    Sorted ops less key (update rem (m.heap[0]!) es)
      { m with
        pool := m.pool.set (m.heap[0]!) s
        heap := siftDown (lessAt ops less (m.pool.set (m.heap[0]!) s)) heap 0 } := by
  have hperm := siftDown_perm (lessAt ops less (m.pool.set (m.heap[0]!) s)) heap 0
  have hitems : ∀ a ∈ heap.toList.flatMap (update rem (m.heap[0]!) es),
      a ∈ m.heap.toList.flatMap rem := by
    intro a ha
    obtain ⟨j, hj, hin⟩ := mem_flatMap.mp ha
    refine mem_flatMap.mpr ⟨j, hsub j hj, ?_⟩
    by_cases hji : j = m.heap[0]!
    · subst hji
      rw [update_self] at hin
      rw [hrem]
      exact mem_cons_of_mem _ hin
    · rwa [update_of_ne hji] at hin
  have hless : ComparesBy less key
      (heap.toList.flatMap (update rem (m.heap[0]!) es)) :=
    fun a ha b hb => hsorted.less_eq a (hitems a ha) b (hitems b hb)
  refine ⟨hless.of_perm (hperm.flatMap_right _), ?_, heapAbove_siftDown ?_ hheap⟩
  · intro j hj
    have hj := hperm.mem_iff.mp hj
    by_cases hji : j = m.heap[0]!
    · subst hji
      have h := hsorted.sorted _ (hsub _ hj)
      rw [hrem] at h
      rw [update_self]
      exact (pairwise_cons.mp h).2
    · rw [update_of_ne hji]
      exact hsorted.sorted j (hsub j hj)
  · refine comparesBy_lessAt _ hless fun j hj => ?_
    obtain ⟨es', heq, -⟩ := hat.rem_eq j hj
    rw [heq]
    exact mem_cons_self

end Advance

theorem At.sift (h : At ops rem m) (f : ℕ → ℕ → Bool) :
    At ops rem { m with heap := siftDown f m.heap 0 } := by
  have hperm := siftDown_perm f m.heap 0
  refine ⟨h.err_eq, h.noop_eq, ?_, hperm.nodup_iff.mpr h.nodup, ?_, ?_⟩
  · rw [size_siftDown]
    exact h.size_pos
  · intro i hi
    exact h.lt_length i (hperm.mem_iff.mp hi)
  · intro i hi
    exact h.rem_eq i (hperm.mem_iff.mp hi)

/-- One step of a merge: it gives the current item of the root, and stands at the next item or
ends. -/
theorem At.next_cases (less : ε → ε → Bool) (key : ε → κ) (describe : String → String)
    (h : At ops rem m) :
    (∃ m', next ops less describe m = .ok (false, m') ∧ error m' = none ∧
      m.heap.toList.flatMap rem = [cur ops m]) ∨
    ∃ m' rem', next ops less describe m = .ok (true, m') ∧ At ops rem' m' ∧
      (m.heap.toList.flatMap rem).Perm (cur ops m :: m'.heap.toList.flatMap rem') ∧
      (Sorted ops less key rem m → Sorted ops less key rem' m') := by
  have hilt := h.lt_length _ h.root_mem
  obtain ⟨es, hrem, hdel⟩ := h.rem_eq _ h.root_mem
  have hcur : ∀ (s : σ) (j : ℕ), j ≠ m.heap[0]! →
      curAt ops (m.pool.set (m.heap[0]!) s) j = curAt ops m.pool j := by
    intro s j hj
    rw [curAt, getElem!_set hilt, if_neg hj, curAt]
  match es, hrem, hdel with
  | [], hrem, ⟨s, hnext, herror⟩ =>
    have hperm := pop_swap_perm h.size_pos
    set heap := (m.heap.swapIfInBounds 0 (m.heap.size - 1)).pop with hheap
    set pool := m.pool.set (m.heap[0]!) s with hpool
    have hnodup := nodup_cons.mp (hperm.nodup_iff.mp h.nodup)
    have hsub : ∀ j ∈ heap.toList, j ∈ m.heap.toList := fun j hj =>
      hperm.mem_iff.mpr (mem_cons_of_mem _ hj)
    have hitems := flatMap_update_perm h.nodup hperm hrem
    rw [nil_append] at hitems
    have hstep := next_of_end less describe h hnext herror
    have hisEmpty : (siftDown (lessAt ops less pool) heap 0).isEmpty = true ↔ heap.size = 0 := by
      rw [Array.isEmpty_iff_size_eq_zero, size_siftDown]
    by_cases hempty : heap.size = 0
    · have hnil : heap.toList = [] := by
        rw [← length_eq_zero_iff, Array.length_toList]
        exact hempty
      refine .inl ⟨_, by rw [hstep]; exact if_pos (hisEmpty.mpr hempty), rfl, ?_⟩
      rw [hnil, flatMap_nil] at hitems
      exact perm_singleton.mp hitems
    · have hat : At ops (update rem (m.heap[0]!) []) { m with pool, heap } :=
        h.advance (by omega) hnodup.2 hsub fun hroot => absurd hroot hnodup.1
      refine .inr ⟨_, _, by rw [hstep]; exact if_neg (mt hisEmpty.mp hempty),
        hat.sift _, ?_, ?_⟩
      · exact hitems.trans (Perm.cons _ ((siftDown_perm _ _ _).flatMap_right _).symm)
      · intro hsorted
        refine hsorted.advance hat hsub hrem ?_
        refine heapAboveExcept_congr (heapAboveExcept_pop_swap hsorted.heapAbove) ?_
        intro p _ hlt
        have hne : heap[p]! ≠ m.heap[0]! := by
          intro heq
          exact hnodup.1 (heq ▸ getElem!_mem hlt)
        rw [hcur s _ hne]
  | e' :: es', hrem, ⟨s, hnext, hs, hdel'⟩ =>
    have hat : At ops (update rem (m.heap[0]!) (e' :: es'))
        { m with pool := m.pool.set (m.heap[0]!) s, heap := m.heap } :=
      h.advance h.size_pos h.nodup (fun _ hj => hj) fun _ => ⟨es', by rw [hs], hdel'⟩
    have hperm := perm_cons_erase h.root_mem
    refine .inr ⟨_, _, next_of_has h hnext, hat.sift _, ?_, ?_⟩
    · have hitems := flatMap_update_perm h.nodup hperm hrem
      refine hitems.trans (Perm.cons _ ?_)
      refine Perm.trans ?_ ((siftDown_perm _ _ _).flatMap_right _).symm
      refine Perm.trans ?_ (hperm.flatMap_right _).symm
      rw [flatMap_cons, update_self]
    · intro hsorted
      refine hsorted.advance hat (fun _ hj => hj) hrem ?_
      refine heapAboveExcept_congr (f := fun i => key (curAt ops m.pool i)) ⟨?_, ?_⟩ ?_
      · intro p c hp _ hc hlt
        exact hsorted.heapAbove p c hp hc hlt
      · intro p c _ hpar
        rcases hpar with h | h <;> omega
      · intro p hp hlt
        rw [hcur s _ (getElem!_ne_root h.nodup hp hlt)]

/-- What a merge gives from an item on. -/
theorem At.exists_delivers (less : ε → ε → Bool) (key : ε → κ) (describe : String → String)
    (h : At ops rem m) :
    ∃ es, (asSource ops less describe).Delivers m es ∧
      (m.heap.toList.flatMap rem).Perm (cur ops m :: es) ∧
      (Sorted ops less key rem m → (cur ops m :: es).Pairwise fun a b => key a ≤ key b) := by
  induction hn : (m.heap.toList.flatMap rem).length using Nat.strongRecOn generalizing m rem with
  | ind n ih =>
    rcases h.next_cases less key describe with
      ⟨m', hnext, herror, hitems⟩ | ⟨m', rem', hnext, hat, hperm, hsorted⟩
    · exact ⟨[], ⟨m', hnext, herror⟩, by rw [hitems], fun _ => pairwise_singleton _ _⟩
    · have hlen := hperm.length_eq
      rw [length_cons] at hlen
      obtain ⟨es, hdel, hperm', hpair⟩ := ih _ (by omega) hat rfl
      refine ⟨cur ops m' :: es, ⟨m', hnext, rfl, hdel⟩, hperm.trans (hperm'.cons _), ?_⟩
      intro hs
      refine pairwise_cons.mpr ⟨fun a ha => ?_, hpair (hsorted hs)⟩
      -- the root is minimal among the current items, and these come first in their sources
      have hmem : a ∈ m.heap.toList.flatMap rem :=
        hperm.mem_iff.mpr (mem_cons_of_mem _ (hperm'.mem_iff.mpr ha))
      obtain ⟨i, hi, hai⟩ := mem_flatMap.mp hmem
      have hroot : key (cur ops m) ≤ key (curAt ops m.pool i) := hs.heapAbove.root_le hi
      obtain ⟨es', hrem, -⟩ := h.rem_eq i hi
      have hsrc := hs.sorted i hi
      rw [hrem] at hsrc hai
      rcases mem_cons.mp hai with rfl | hai
      · exact hroot
      · exact hroot.trans ((pairwise_cons.mp hsrc).1 a hai)

/-- Advancing the sources to their first items. -/
theorem exists_startSources {pool : List σ} {streams : List (List ε)}
    (h : List.Forall₂ ops.Delivers pool streams) (i : ℕ) :
    ∃ pool' is, startSources ops i pool = .ok (pool', is, none) ∧ pool'.length = pool.length ∧
      is.Nodup ∧ (∀ j ∈ is, i ≤ j ∧ j < i + pool.length) ∧
      (∀ j ∈ is, ∃ es, streams[j - i]! = ops.cur (pool'[j - i]!) :: es ∧
        ops.Delivers (pool'[j - i]!) es) ∧
      is.flatMap (fun j => streams[j - i]!) = streams.flatten := by
  induction h generalizing i with
  | nil => exact ⟨[], [], rfl, rfl, nodup_nil, by simp, by simp, rfl⟩
  | @cons s stream pool streams hs _ ih =>
    obtain ⟨pool', is, hstart, hlen, hnodup, hbound, hrem, hflat⟩ := ih (i + 1)
    have hshift : ∀ j ∈ is, ∀ {α : Type} [Inhabited α] (a : α) (l : List α),
        (a :: l)[j - i]! = l[j - (i + 1)]! := by
      intro j hj α _ a l
      obtain ⟨hle, -⟩ := hbound j hj
      rw [show j - i = j - (i + 1) + 1 by omega]
      rfl
    have hnot : i ∉ is := fun hi => by
      have := (hbound i hi).1
      omega
    match stream, hs with
    | [], ⟨s', hnext, herror⟩ =>
      refine ⟨s' :: pool', is, ?_, ?_, hnodup, ?_, ?_, ?_⟩
      · rw [startSources, hnext]
        simp only [ok_bind, Bool.false_eq_true, if_false, herror, hstart]
      · simp [hlen]
      · intro j hj
        obtain ⟨hle, hlt⟩ := hbound j hj
        rw [length_cons]
        omega
      · intro j hj
        rw [hshift j hj, hshift j hj]
        exact hrem j hj
      · rw [flatten_cons, nil_append, ← hflat]
        refine flatMap_congr fun j hj => ?_
        rw [hshift j hj]
    | e :: es, ⟨s', hnext, hcur, hdel⟩ =>
      refine ⟨s' :: pool', i :: is, ?_, ?_, nodup_cons.mpr ⟨hnot, hnodup⟩, ?_, ?_, ?_⟩
      · rw [startSources, hnext]
        simp only [ok_bind, if_true, hstart]
      · simp [hlen]
      · intro j hj
        rw [length_cons]
        rcases mem_cons.mp hj with rfl | hj
        · omega
        · obtain ⟨hle, hlt⟩ := hbound j hj
          omega
      · intro j hj
        rcases mem_cons.mp hj with rfl | hj
        · rw [Nat.sub_self]
          exact ⟨es, by rw [← hcur]; rfl, hdel⟩
        · rw [hshift j hj, hshift j hj]
          exact hrem j hj
      · rw [flatMap_cons, Nat.sub_self, flatten_cons, ← hflat]
        congr 1
        refine flatMap_congr fun j hj => ?_
        rw [hshift j hj]

/-- **Merging sources.** A merge delivers the items of its sources, each once; if the sources are
sorted by a key that the comparison agrees with, so are the items of the merge. -/
theorem exists_delivers_start (less : ε → ε → Bool) (key : ε → κ)
    (describe describe' : String → String) {pool : List σ} {streams : List (List ε)}
    (h : List.Forall₂ ops.Delivers pool streams) :
    ∃ m es, start ops less describe pool = .ok m ∧
      (asSource ops less describe').Delivers m es ∧ es.Perm streams.flatten ∧
      (ComparesBy less key streams.flatten →
        (∀ stream ∈ streams, stream.Pairwise fun a b => key a ≤ key b) →
        es.Pairwise fun a b => key a ≤ key b) := by
  obtain ⟨pool', is, hstart, hlen, hnodup, hbound, hrem, hflat⟩ := exists_startSources h 0
  simp only [Nat.zero_add, Nat.sub_zero] at hbound hrem hflat
  by_cases hempty : is = []
  · subst hempty
    refine ⟨⟨pool', #[], false, some .eof⟩, [], ?_, ⟨⟨pool', #[], false, some .eof⟩, rfl, rfl⟩, ?_,
      fun _ _ => Pairwise.nil⟩
    · rw [start, hstart]
      rfl
    · rw [← hflat]
      exact Perm.refl _
  · set m : HeapMerge σ := ⟨pool', heapify (lessAt ops less pool') is.toArray, false, none⟩ with hm
    have hperm : m.heap.toList.Perm is := heapify_perm (lessAt ops less pool') is.toArray
    have hat : At ops (fun j => streams[j]!) m := by
      refine ⟨rfl, rfl, ?_, hperm.nodup_iff.mpr hnodup, ?_, ?_⟩
      · rw [← Array.length_toList, hperm.length_eq]
        exact length_pos_iff.mpr hempty
      · intro j hj
        rw [hlen]
        exact (hbound j (hperm.mem_iff.mp hj)).2
      · intro j hj
        exact hrem j (hperm.mem_iff.mp hj)
    obtain ⟨es, hdel, hitems, hpair⟩ := hat.exists_delivers less key describe'
    have hall : (m.heap.toList.flatMap fun j => streams[j]!).Perm streams.flatten := by
      rw [← hflat]
      exact hperm.flatMap_right _
    refine ⟨{ m with nextBlockNoop := true }, cur ops m :: es, ?_, ⟨m, rfl, rfl, hdel⟩,
      hitems.symm.trans hall, ?_⟩
    · rw [start, hstart]
      simp only [ok_bind]
      rw [if_neg (by simpa using hempty)]
    · intro hless hstreams
      refine hpair ⟨hless.of_perm hall, ?_, ?_⟩
      · intro j hj
        obtain ⟨es', heq, -⟩ := hrem j (hperm.mem_iff.mp hj)
        by_cases hj' : j < streams.length
        · rw [getElem!_pos streams j hj']
          exact hstreams _ (getElem_mem hj')
        · rw [getElem!_neg streams j hj']
          exact Pairwise.nil
      · refine heapAbove_heapify (comparesBy_lessAt (fun j => streams[j]!) ?_ ?_)
        · refine hless.of_perm ?_
          rw [← hflat]
        · intro j hj
          obtain ⟨es', heq, -⟩ := hrem j hj
          rw [heq]
          exact mem_cons_self

/-! ### Invariants of the sources -/

section Sources

variable {γ : Type} {R : γ → σ → Prop} {gs : List γ}

/-- The sources meet a condition, one for each element of a list, and the heap is one of sources; it
is not empty unless the merge has stopped. -/
structure SourcesMeet (R : γ → σ → Prop) (gs : List γ) (m : HeapMerge σ) : Prop where
  meets : List.Forall₂ R gs m.pool
  lt_length : ∀ i ∈ m.heap.toList, i < m.pool.length
  active : m.err = none → 0 < m.heap.size

omit [Inhabited σ] in
theorem forall₂_set {pool : List σ} (h : List.Forall₂ R gs pool) {i : ℕ} {s : σ}
    (hs : ∀ g, gs[i]? = some g → R g s) : List.Forall₂ R gs (pool.set i s) := by
  induction h generalizing i with
  | nil => exact .nil
  | @cons g s' gs pool hg h ih =>
    match i with
    | 0 => exact .cons (hs g rfl) h
    | i + 1 => exact .cons hg (ih fun g hg => hs g hg)

theorem forall₂_getElem! {pool : List σ} (h : List.Forall₂ R gs pool) {i : ℕ} {g : γ}
    (hg : gs[i]? = some g) : R g pool[i]! := by
  induction h generalizing i with
  | nil => cases hg
  | @cons g' s gs pool hs _ ih =>
    match i with
    | 0 =>
      obtain rfl := Option.some.inj hg
      exact hs
    | i + 1 => exact ih hg

omit [Inhabited σ] in
/-- The sources meet the condition after their first items, if advancing a source keeps it. -/
theorem startSources_meets (hstep : ∀ g s has s', R g s → ops.next s = .ok (has, s') → R g s')
    {pool pool' : List σ} (h : List.Forall₂ R gs pool) {i : ℕ} {is : List ℕ} {err : Option String}
    (hstart : startSources ops i pool = .ok (pool', is, err)) :
    List.Forall₂ R gs pool' ∧ ∀ j ∈ is, j < i + pool'.length := by
  induction h generalizing i pool' is err with
  | nil =>
    obtain ⟨rfl, hrest⟩ := Prod.mk.inj (Outcome.ok.inj hstart)
    obtain ⟨rfl, -⟩ := Prod.mk.inj hrest
    exact ⟨.nil, by simp⟩
  | @cons g s gs pool hs h ih =>
    rw [startSources] at hstart
    obtain ⟨⟨has, s'⟩, hnext, hrest⟩ := bind_eq_ok_iff.mp hstart
    have hs' := hstep g s has s' hs hnext
    -- the sources behind this one
    have htail : ∀ {err' : Option String} {ss : List σ} {js : List ℕ},
        startSources ops (i + 1) pool = .ok (ss, js, err') →
        List.Forall₂ R (g :: gs) (s' :: ss) ∧ ∀ j ∈ js, j < i + (s' :: ss).length := by
      intro err' ss js hss
      obtain ⟨hmeets, hlt⟩ := ih hss
      refine ⟨.cons hs' hmeets, fun j hj => ?_⟩
      have := hlt j hj
      rw [length_cons]
      omega
    cases has with
    | true =>
      simp only [if_true] at hrest
      obtain ⟨⟨ss, js, err'⟩, hss, heq⟩ := bind_eq_ok_iff.mp hrest
      obtain ⟨hmeets, hlt⟩ := htail hss
      cases heq
      refine ⟨hmeets, fun j hj => ?_⟩
      rcases mem_cons.mp hj with rfl | hj
      · rw [length_cons]
        omega
      · exact hlt j hj
    | false =>
      simp only [Bool.false_eq_true, if_false] at hrest
      cases herror : ops.error s' with
      | some msg =>
        rw [herror] at hrest
        cases hrest
        exact ⟨.cons hs' h, by simp⟩
      | none =>
        rw [herror] at hrest
        obtain ⟨⟨ss, js, err'⟩, hss, heq⟩ := bind_eq_ok_iff.mp hrest
        obtain ⟨hmeets, hlt⟩ := htail hss
        cases heq
        exact ⟨hmeets, hlt⟩

theorem sourcesMeet_start (hstep : ∀ g s has s', R g s → ops.next s = .ok (has, s') → R g s')
    {pool : List σ} (h : List.Forall₂ R gs pool) (hstart : start ops less describe pool = .ok m) :
    SourcesMeet R gs m := by
  rw [start] at hstart
  obtain ⟨⟨pool', is, err⟩, hsources, hrest⟩ := bind_eq_ok_iff.mp hstart
  obtain ⟨hmeets, hlt⟩ := startSources_meets hstep h hsources
  simp only [Nat.zero_add] at hlt
  cases err with
  | some msg =>
    cases hrest
    exact ⟨hmeets, hlt, fun hnone => by cases hnone⟩
  | none =>
    simp only at hrest
    split_ifs at hrest with hempty
    · cases hrest
      exact ⟨hmeets, by simp, fun hnone => by cases hnone⟩
    · cases hrest
      have hperm : (heapify (lessAt ops less pool') is.toArray).toList.Perm is :=
        heapify_perm _ is.toArray
      refine ⟨hmeets, fun j hj => hlt j (hperm.mem_iff.mp hj), fun _ => ?_⟩
      rw [← Array.length_toList, hperm.length_eq]
      exact length_pos_iff.mpr (by simpa using hempty)

/-- A merge of sources that end without an error begins without one. -/
theorem error_of_start {pool : List σ} {streams : List (List ε)}
    (h : List.Forall₂ ops.Delivers pool streams) (hstart : start ops less describe pool = .ok m) :
    m.error = none := by
  obtain ⟨pool', is, hsources, -⟩ := exists_startSources h 0
  rw [start, hsources, ok_bind] at hstart
  simp only at hstart
  split_ifs at hstart
  · cases hstart
    rfl
  · cases hstart
    rfl

/-- A merge that has begun stands at its first item already. -/
theorem nextBlockNoop_of_start {pool : List σ} (hstart : start ops less describe pool = .ok m)
    (herr : m.err = none) : m.nextBlockNoop = true := by
  rw [start] at hstart
  obtain ⟨⟨pool', is, err⟩, -, hrest⟩ := bind_eq_ok_iff.mp hstart
  cases err with
  | some msg =>
    cases hrest
    cases herr
  | none =>
    simp only at hrest
    split_ifs at hrest
    · cases hrest
      cases herr
    · cases hrest
      rfl

/-- Advancing the merge keeps the condition. -/
theorem SourcesMeet.next (hstep : ∀ g s has s', R g s → ops.next s = .ok (has, s') → R g s')
    (h : SourcesMeet R gs m) {has : Bool} {m' : HeapMerge σ}
    (hnext : next ops less describe m = .ok (has, m')) : SourcesMeet R gs m' := by
  rw [HeapMerge.next] at hnext
  cases herr : m.err with
  | some err =>
    simp only [herr, Option.isSome_some, if_true] at hnext
    cases hnext
    exact h
  | none =>
    simp only [herr, Option.isSome_none, Bool.false_eq_true, if_false] at hnext
    split_ifs at hnext with hnoop
    · cases hnext
      exact ⟨h.meets, h.lt_length, fun _ => h.active herr⟩
    · obtain ⟨⟨has', s⟩, hsource, hrest⟩ := bind_eq_ok_iff.mp hnext
      have hpos := h.active herr
      have hmeets : List.Forall₂ R gs (m.pool.set (m.heap[0]!) s) :=
        forall₂_set h.meets fun g hg => hstep g _ has' s (forall₂_getElem! h.meets hg) hsource
      have hlt : ∀ (f : ℕ → ℕ → Bool) (heap : Array ℕ), (∀ i ∈ heap.toList, i ∈ m.heap.toList) →
          ∀ i ∈ (siftDown f heap 0).toList, i < (m.pool.set (m.heap[0]!) s).length := by
        intro f heap hsub i hi
        rw [length_set]
        exact h.lt_length i (hsub i ((siftDown_perm f heap 0).mem_iff.mp hi))
      cases has' with
      | true =>
        simp only [if_true] at hrest
        cases hrest
        refine ⟨hmeets, hlt _ m.heap fun i hi => hi, fun _ => ?_⟩
        rw [size_siftDown]
        exact hpos
      | false =>
        simp only [Bool.false_eq_true, if_false] at hrest
        cases herror : ops.error s with
        | some msg =>
          rw [herror] at hrest
          cases hrest
          refine ⟨hmeets, fun i hi => ?_, fun hnone => by cases hnone⟩
          rw [length_set]
          exact h.lt_length i hi
        | none =>
          rw [herror] at hrest
          have hsub : ∀ i ∈ (m.heap.swapIfInBounds 0 (m.heap.size - 1)).pop.toList,
              i ∈ m.heap.toList :=
            fun i hi => (pop_swap_perm hpos).mem_iff.mpr (mem_cons_of_mem _ hi)
          simp only at hrest
          split_ifs at hrest with hempty
          · cases hrest
            exact ⟨hmeets, hlt _ _ hsub, fun hnone => by cases hnone⟩
          · cases hrest
            refine ⟨hmeets, hlt _ _ hsub, fun _ => ?_⟩
            rw [Array.isEmpty_iff_size_eq_zero] at hempty
            exact Nat.pos_of_ne_zero hempty

/-- The merge can be advanced if its sources can, and no error comes from elsewhere. -/
theorem SourcesMeet.exists_next
    (hstep : ∀ g s, R g s → ∃ has s', ops.next s = .ok (has, s') ∧ ops.error s' = none)
    (h : SourcesMeet R gs m) (herror : m.error = none) (less : ε → ε → Bool)
    (describe : String → String) :
    ∃ has m', HeapMerge.next ops less describe m = .ok (has, m') ∧ m'.error = none := by
  rw [HeapMerge.next]
  cases herr : m.err with
  | some err =>
    refine ⟨false, m, ?_, herror⟩
    simp only [Option.isSome_some, if_true]
  | none =>
    simp only [Option.isSome_none, Bool.false_eq_true, if_false]
    split_ifs with hnoop
    · exact ⟨true, _, rfl, rfl⟩
    · have hlt := h.lt_length _ (getElem!_mem (h.active herr))
      have hlt' : m.heap[0]! < gs.length := h.meets.length_eq ▸ hlt
      obtain ⟨has, s, hnext, herror'⟩ :=
        hstep _ _ (forall₂_getElem! h.meets (getElem?_eq_getElem hlt'))
      simp only [hnext, ok_bind]
      cases has with
      | true => exact ⟨true, _, rfl, rfl⟩
      | false =>
        simp only [Bool.false_eq_true, if_false, herror']
        split_ifs
        · exact ⟨false, _, rfl, rfl⟩
        · exact ⟨true, _, rfl, rfl⟩

end Sources

end HeapMerge

end Esmetrics
