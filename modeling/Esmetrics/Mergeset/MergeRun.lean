import Esmetrics.Mergeset.Merge

/-!
# Runs of the merge of index items

The merge of `Merge.lean` writes all items, sorted. Its state stands between two lists: the items
that are done, which the written blocks and the scratch block hold (`Output.Holds`), and for every
reader of the heap the items that are left (`Pool`). A round moves items from the root of the heap
to the done ones (`MergeState.mergeTop_spec`), and every item that is done is at most every item
that is left.

A block with 2³² items or more cannot be written. Only the first block can have so many, all of them
empty but for some: `MergeableItems` excludes that.
-/

namespace Esmetrics.Mergeset

open List Outcome
open Function (update update_of_ne update_self)

/-! ### Sorted items that can be written -/

/-- Sorted items that can be written in blocks: each of them fits a block, and the first 2³² of them
do not fit one together. -/
structure MergeableItems (all : List Bytes) : Prop where
  sorted : all.Pairwise (· ≤ ·)
  length_le : ∀ item ∈ all, item.length ≤ maxInmemoryBlockSize
  not_fit : 2 ^ 32 ≤ all.length →
    maxInmemoryBlockSize < ((all.take (2 ^ 32)).map List.length).sum

theorem sum_length_of_nil {items : List Bytes} (h : ∀ item ∈ items, item = []) :
    (items.map List.length).sum = 0 := by
  refine sum_eq_zero fun n hn => ?_
  obtain ⟨item, hitem, rfl⟩ := mem_map.mp hn
  rw [h item hitem, length_nil]

theorem length_le_sum_length {items : List Bytes} (h : [] ∉ items) :
    items.length ≤ (items.map List.length).sum := by
  induction items with
  | nil => simp
  | cons item items ih =>
    rw [mem_cons, not_or] at h
    have hitem : 0 < item.length := length_pos_iff.mpr fun hnil => h.1 hnil.symm
    have hrest := ih h.2
    rw [length_cons, map_cons, sum_cons]
    omega

/-- Consecutive sorted items that fit a block are fewer than `n`, if the first `n` items do not fit
one. -/
theorem length_lt_of_not_fit {all pre items : List Bytes} {n : ℕ} (hn : maxInmemoryBlockSize < n)
    (hsorted : all.Pairwise (· ≤ ·))
    (hfit : n ≤ all.length → maxInmemoryBlockSize < ((all.take n).map List.length).sum)
    (hpre : pre ++ items <+: all) (hsize : (items.map List.length).sum ≤ maxInmemoryBlockSize) :
    items.length < n := by
  by_contra hlen
  rw [Nat.not_lt] at hlen
  -- So many items in a block are not all longer than zero, so that those before them are empty.
  have hnil : [] ∈ items := by
    by_contra hnil
    have := length_le_sum_length hnil
    omega
  obtain ⟨rest, rfl⟩ := hpre
  have hpreNil : ∀ item ∈ pre, item = [] := by
    intro item hitem
    have hle : item ≤ [] := by
      rw [pairwise_append, pairwise_append] at hsorted
      exact hsorted.1.2.2 item hitem [] hnil
    cases item with
    | nil => rfl
    | cons b item => exact absurd hle (by simp)
  have hlong : n ≤ (pre ++ items).length := by
    rw [length_append]
    omega
  have hlt := hfit (by rw [length_append]; omega)
  rw [take_append_of_le_length hlong] at hlt
  have hle : (((pre ++ items).take n).map List.length).sum ≤ ((pre ++ items).map List.length).sum :=
    ((take_sublist n (pre ++ items)).map List.length).sum_le_sum (by simp)
  rw [map_append, sum_append, sum_length_of_nil hpreNil] at hle
  omega

namespace MergeableItems

variable {all done items pre : List Bytes}

/-- Items that fit a block can be written. -/
theorem length_lt (h : MergeableItems all) (hpre : pre ++ items <+: all)
    (hsize : (items.map List.length).sum ≤ maxInmemoryBlockSize) : items.length < 2 ^ 32 :=
  length_lt_of_not_fit (by decide) h.sorted h.not_fit hpre hsize

theorem sorted_of_append (h : MergeableItems all) (hpre : pre ++ items <+: all) :
    items.Pairwise (· ≤ ·) :=
  h.sorted.sublist ((sublist_append_right pre items).trans hpre.sublist)

end MergeableItems

/-- Sorted items that are at most all the others are the first of all. -/
theorem isPrefix_of_sorted {all done rest : List Bytes} (hall : all.Pairwise (· ≤ ·))
    (hperm : (done ++ rest) ~ all) (hdone : done.Pairwise (· ≤ ·))
    (hle : ∀ a ∈ done, ∀ b ∈ rest, a ≤ b) : done <+: all := by
  have hrest := sortByKey_perm id rest
  refine ⟨sortByKey id rest, ?_⟩
  refine ((hrest.append_left done).trans hperm).eq_of_pairwise (fun _ _ _ _ => le_antisymm) ?_ hall
  rw [pairwise_append]
  exact ⟨hdone, pairwise_sortByKey id rest, fun a ha b hb => hle a ha b (hrest.mem_iff.mp hb)⟩

/-! ### Writing blocks -/

/-- A sorted block is written, and its stored form is read back. -/
theorem BlockStreamWriter.exists_writeBlock {z : Zstd} (hz : z.RoundTrips) (w : BlockStreamWriter)
    {ib : InmemoryBlock} (hsorted : ib.items.Pairwise (· ≤ ·)) (hne : ib.items ≠ [])
    (hcount : ib.items.length < 2 ^ 32) (hsize : ib.dataLen ≤ maxInmemoryBlockSize) :
    ∃ m ib', w.writeBlock z ib = .ok (w.writeMarshaled z m, m, ib') ∧
      ∃ cp, InmemoryBlock.unmarshalData z m = .ok ⟨cp, ib.items⟩ := by
  obtain ⟨hitems, hready, -, -⟩ := InmemoryBlock.updateCommonPrefixSorted_spec hsorted
  have hsize' : ib.updateCommonPrefixSorted.dataLen ≤ maxInmemoryBlockSize := by
    rwa [InmemoryBlock.dataLen, hitems]
  obtain ⟨m, hm, hread, -⟩ := InmemoryBlock.unmarshalData_marshalData hz hready (by rwa [hitems])
    (by rwa [hitems]) hsize' w.compressLevel
  refine ⟨m, ib.updateCommonPrefixSorted, ?_, ib.updateCommonPrefixSorted.commonPrefix, ?_⟩
  · rw [writeBlock, InmemoryBlock.marshalSortedData, hm]
    rfl
  · rw [hread, ← hitems]

/-- The items that do not exceed the next item. -/
def Output.movable (nextItem : Option Bytes) (items : List Bytes) : List Bytes :=
  items.takeWhile fun item => !nextItem.any (· < item)

/-- The items that the scratch block and the written blocks hold, the latter cut into `blocks`. -/
structure Output.Holds (z : Zstd) (bsw : BlockStreamWriter) (blocks : List (List Bytes))
    (done : List Bytes) (o : Output) : Prop where
  done_eq : done = blocks.flatten ++ o.ib.items
  reads : List.Forall₂ (fun m items => ∃ cp, InmemoryBlock.unmarshalData z m = .ok ⟨cp, items⟩)
    o.written blocks
  bsw_eq : o.bsw = o.written.foldl (BlockStreamWriter.writeMarshaled z) bsw
  blocks_ne : ∀ items ∈ blocks, items ≠ []
  dataLen_le : o.ib.dataLen ≤ maxInmemoryBlockSize
  caught_eq : o.phFirstItemCaught = !blocks.isEmpty
  ph_eq : o.ph = ⟨blocks.flatten.length, blocks.length, blocks.flatten.headD [],
    blocks.flatten.getLastD []⟩

namespace Output.Holds

variable {z : Zstd} {bsw : BlockStreamWriter} {blocks : List (List Bytes)} {all done : List Bytes}
  {o : Output}

theorem flatten_ne_nil (h : o.Holds z bsw blocks done) (hne : blocks ≠ []) :
    blocks.flatten ≠ [] := by
  obtain ⟨items, rest, rfl⟩ := exists_cons_of_ne_nil hne
  rw [flatten_cons]
  exact append_ne_nil_of_left_ne_nil (h.blocks_ne items mem_cons_self) _

/-- Writing the scratch block. -/
theorem flush (hz : z.RoundTrips) (h : o.Holds z bsw blocks done) (hall : MergeableItems all)
    (hpre : done <+: all) (hne : o.ib.items ≠ []) :
    ∃ o', o.flushIb z none = .ok o' ∧ o'.Holds z bsw (blocks ++ [o.ib.items]) done ∧
      o'.ib = .reset ∧ o'.localItemsMerged + o.ph.itemsCount =
      o.localItemsMerged + o'.ph.itemsCount := by
  have hpre' : blocks.flatten ++ o.ib.items <+: all := h.done_eq ▸ hpre
  obtain ⟨m, ib', hwrite, hread⟩ := o.bsw.exists_writeBlock hz (hall.sorted_of_append hpre') hne
    (hall.length_lt hpre' h.dataLen_le) h.dataLen_le
  obtain ⟨first, hfirst⟩ := Option.ne_none_iff_exists'.mp (mt head?_eq_none_iff.mp hne)
  obtain ⟨last, hlast⟩ := Option.ne_none_iff_exists'.mp (mt getLast?_eq_none_iff.mp hne)
  refine ⟨{ o with
    ib := .reset
    phFirstItemCaught := true
    bsw := o.bsw.writeMarshaled z m
    ph := ⟨o.ph.itemsCount + o.ib.items.length, o.ph.blocksCount + 1,
      if o.phFirstItemCaught then o.ph.firstItem else first, last⟩
    localItemsMerged := o.localItemsMerged + o.ib.items.length
    written := o.written ++ [m] }, ?_, ⟨?_, ?_, ?_, ?_, ?_, ?_, ?_⟩, rfl, ?_⟩
  · rw [flushIb, if_neg hne]
    simp only [writeItems, hfirst, hlast, index_some, ok_bind, hwrite]
  · simp [h.done_eq, InmemoryBlock.reset]
  · exact rel_append h.reads (.cons hread .nil)
  · rw [foldl_concat, ← h.bsw_eq]
  · intro items hitems
    rcases mem_append.mp hitems with hitems | hitems
    · exact h.blocks_ne items hitems
    · rwa [mem_singleton.mp hitems]
  · simp [InmemoryBlock.reset, InmemoryBlock.dataLen]
  · simp
  · have hlast' : (blocks ++ [o.ib.items]).flatten.getLastD [] = last := by
      rw [flatten_concat, getLastD_eq_getLast?, getLast?_append_of_ne_nil _ hne, hlast,
        Option.getD_some]
    have hfirst' : (blocks ++ [o.ib.items]).flatten.headD [] =
        if o.phFirstItemCaught then o.ph.firstItem else first := by
      rw [h.caught_eq, h.ph_eq, flatten_concat]
      cases hblocks : blocks with
      | nil =>
        rw [flatten_nil, nil_append, headD_eq_head?_getD, hfirst]
        rfl
      | cons items rest =>
        have hne' := h.flatten_ne_nil (hblocks ▸ cons_ne_nil items rest)
        rw [hblocks] at hne'
        obtain ⟨b, bs, hbs⟩ := exists_cons_of_ne_nil hne'
        rw [hbs]
        rfl
    rw [hlast', hfirst', h.ph_eq]
    simp
  · simp only
    omega

/-- An item is moved to the scratch block. -/
theorem add {item : Bytes} {ib : InmemoryBlock} (h : o.Holds z bsw blocks done)
    (hadd : o.ib.add item = some ib) : Holds z bsw blocks (done ++ [item]) { o with ib } := by
  rw [InmemoryBlock.add] at hadd
  split_ifs at hadd with hsize
  obtain rfl := Option.some.inj hadd
  refine ⟨?_, h.reads, h.bsw_eq, h.blocks_ne, ?_, h.caught_eq, h.ph_eq⟩
  · rw [h.done_eq, append_assoc]
  · simp only [InmemoryBlock.dataLen, map_append, sum_append, map_singleton,
      sum_singleton] at hsize ⊢
    omega

/-- An item that fits a block is moved to the scratch block, after it is written if need be. -/
theorem exists_add (hz : z.RoundTrips) (h : o.Holds z bsw blocks done) (hall : MergeableItems all)
    (hpre : done <+: all) {item : Bytes} (hitem : item.length ≤ maxInmemoryBlockSize)
    (hadd : o.ib.add item = none) :
    ∃ o' ib, o.flushIb z none = .ok o' ∧ o'.ib.add item = some ib ∧
      Holds z bsw (blocks ++ [o.ib.items]) (done ++ [item]) { o' with ib } ∧
      o'.localItemsMerged + o.ph.itemsCount = o.localItemsMerged + o'.ph.itemsCount := by
  have hne : o.ib.items ≠ [] := by
    intro hnil
    rw [InmemoryBlock.add, InmemoryBlock.dataLen, hnil, if_neg] at hadd
    · cases hadd
    · simpa using hitem
  obtain ⟨o', hflush, hholds, hreset, hcount⟩ := h.flush hz hall hpre hne
  have hadd' : o'.ib.add item = some ⟨[], [item]⟩ := by
    rw [hreset, InmemoryBlock.add, if_neg]
    · rfl
    · simpa [InmemoryBlock.dataLen, InmemoryBlock.reset] using hitem
  exact ⟨o', _, hflush, hadd', hholds.add hadd', hcount⟩

/-- Moving items to the scratch block. -/
theorem exists_drain (hz : z.RoundTrips) (hall : MergeableItems all) (nextItem : Option Bytes)
    {items : List Bytes} (idx : ℕ) (h : o.Holds z bsw blocks done)
    (hpre : done ++ movable nextItem items <+: all) :
    ∃ o' blocks', o.drain z none nextItem items idx =
        .ok (some (decide (movable nextItem items ≠ items),
          idx + (movable nextItem items).length, o')) ∧
      o'.Holds z bsw blocks' (done ++ movable nextItem items) ∧
      o'.localItemsMerged + o.ph.itemsCount = o.localItemsMerged + o'.ph.itemsCount := by
  induction items generalizing idx o blocks done with
  | nil =>
    refine ⟨o, blocks, rfl, ?_, rfl⟩
    rwa [movable, takeWhile_nil, append_nil]
  | cons item items ih =>
    by_cases hnext : nextItem.any (· < item)
    · have hnil : movable nextItem (item :: items) = [] := by
        rw [movable, takeWhile_cons, hnext]
        rfl
      refine ⟨o, blocks, ?_, ?_, rfl⟩
      · rw [drain, if_pos hnext, hnil]
        rfl
      · rwa [hnil, append_nil]
    · have hcons : movable nextItem (item :: items) = item :: movable nextItem items := by
        rw [movable, takeWhile_cons, Bool.eq_false_of_not_eq_true hnext]
        rfl
      have hassoc : done ++ item :: movable nextItem items =
          (done ++ [item]) ++ movable nextItem items := by
        rw [append_assoc, singleton_append]
      have hneq : decide (item :: movable nextItem items ≠ item :: items) =
          decide (movable nextItem items ≠ items) := by simp
      rw [hcons, hassoc] at hpre
      rw [hcons, hassoc, hneq, length_cons, ← Nat.add_assoc, Nat.add_right_comm idx]
      rw [drain, if_neg hnext]
      cases hadd : o.ib.add item with
      | some ib => exact ih (idx + 1) (h.add hadd) hpre
      | none =>
        have hdone : done <+: all := by
          rw [append_assoc] at hpre
          exact (prefix_append _ _).trans hpre
        have hmem : item ∈ all :=
          hpre.subset (mem_append_left _ (mem_append_right _ (mem_singleton_self item)))
        obtain ⟨o₁, ib, hflush, hadd', hholds, hcount⟩ :=
          h.exists_add hz hall hdone (hall.length_le item hmem) hadd
        obtain ⟨o', blocks', hdrain, hholds', hcount'⟩ := ih (idx + 1) hholds hpre
        refine ⟨o', blocks', ?_, hholds', ?_⟩
        · simp only [hflush, ok_bind, hadd', hdrain]
        · simp only at hcount'
          omega

end Output.Holds

/-! ### Readers -/

/-- A reader stands at the first of the items `rem`. -/
def BlockStreamReader.At (z : Zstd) (r : BlockStreamReader) (rem : List Bytes) : Prop :=
  ∃ blocks, (∀ idx, Yields z { r with currItemIdx := idx } blocks) ∧
  (∀ items ∈ blocks, items ≠ []) ∧
    r.currItemIdx < r.block.items.length ∧
    rem = r.block.items.drop r.currItemIdx ++ blocks.flatten

theorem BlockStreamReader.At.currItem_eq {z : Zstd} {r : BlockStreamReader} {rem : List Bytes}
    (h : r.At z rem) : r.currItem = .ok (rem.headD []) := by
  obtain ⟨blocks, -, -, hlt, rfl⟩ := h
  rw [currItem, getElem?_eq_getElem hlt, drop_eq_getElem_cons hlt]
  rfl

/-- The readers at the indices `is`, each at the first of its sorted items. -/
structure Pool (z : Zstd) (bsrs : List BlockStreamReader) (rem : ℕ → List Bytes) (is : List ℕ) :
    Prop where
  nodup : is.Nodup
  lt_length : ∀ i ∈ is, i < bsrs.length
  readerAt : ∀ i ∈ is, (bsrs[i]!).At z (rem i)
  sorted : ∀ i ∈ is, (rem i).Pairwise (· ≤ ·)

/-- The first of the items of a reader. -/
def headItem (rem : ℕ → List Bytes) (i : ℕ) : Bytes := (rem i).headD []

/-- The comparison of the heap by the first items. -/
def headLess (rem : ℕ → List Bytes) (i j : ℕ) : Bool := decide (headItem rem i < headItem rem j)

namespace Pool

variable {z : Zstd} {bsrs : List BlockStreamReader} {rem : ℕ → List Bytes} {heap : Array ℕ}

variable {is : List ℕ}

theorem of_perm {is' : List ℕ} (h : Pool z bsrs rem is) (hperm : is' ~ is) :
    Pool z bsrs rem is' where
  nodup := hperm.nodup_iff.mpr h.nodup
  lt_length i hi := h.lt_length i (hperm.mem_iff.mp hi)
  readerAt i hi := h.readerAt i (hperm.mem_iff.mp hi)
  sorted i hi := h.sorted i (hperm.mem_iff.mp hi)

theorem currItem_eq (h : Pool z bsrs rem is) {i : ℕ} (hi : i ∈ is) :
    (bsrs[i]!).currItem = .ok (headItem rem i) :=
  (h.readerAt i hi).currItem_eq

theorem comparesAs (h : Pool z bsrs rem is) :
    ComparesAs (heapLess bsrs) (headLess rem) is := by
  intro i hi j hj
  rw [heapLess, h.currItem_eq hi, h.currItem_eq hj]
  rfl

theorem comparesBy (rem : ℕ → List Bytes) (is : List ℕ) :
    ComparesBy (headLess rem) (headItem rem) is := by
  intro i _ j _
  rw [headLess, decide_eq_decide]

/-- Sifting down the root repairs the heap. -/
theorem exists_siftDown (h : Pool z bsrs rem heap.toList)
    (hheap : HeapAboveExcept (headItem rem) heap 0 0) :
    ∃ heap', siftDown bsrs heap 0 = .ok heap' ∧ heap'.toList ~ heap.toList ∧
      Pool z bsrs rem heap'.toList ∧ HeapAbove (headItem rem) heap' 0 := by
  have hperm := siftDown_perm (headLess rem) heap 0
  exact ⟨_, siftDownM_eq h.comparesAs 0, hperm, h.of_perm hperm,
    heapAbove_siftDown (comparesBy rem _) hheap⟩

/-- A reader at an index goes to other items. -/
theorem set {i : ℕ} {r : BlockStreamReader} {items : List Bytes} (h : Pool z bsrs rem is)
    (hi : i < bsrs.length)
    (hat : i ∈ is → r.At z items) (hsorted : i ∈ is → items.Pairwise (· ≤ ·)) :
    Pool z (bsrs.set i r) (update rem i items) is := by
  refine ⟨h.nodup, ?_, ?_, ?_⟩
  · intro j hj
    rw [length_set]
    exact h.lt_length j hj
  · intro j hj
    rw [HeapMerge.getElem!_set hi]
    by_cases hji : j = i
    · subst hji
      rw [if_pos rfl, update_self]
      exact hat hj
    · rw [if_neg hji, update_of_ne hji]
      exact h.readerAt j hj
  · intro j hj
    by_cases hji : j = i
    · subst hji
      rw [update_self]
      exact hsorted hj
    · rw [update_of_ne hji]
      exact h.sorted j hj

end Pool

/-! ### A round -/

namespace MergeState

variable {z : Zstd} {s : MergeState} {rem : ℕ → List Bytes}

/-- The reader with the next item: no other reader but the root has a smaller one. -/
theorem nextReader_spec (hpool : Pool z s.bsrs rem s.heap.toList)
    (hheap : HeapAbove (headItem rem) s.heap 0) :
    (s.heap.size < 2 ∧ s.nextReader = .ok none) ∨
    ∃ c, c ≠ 0 ∧ c < s.heap.size ∧ s.nextReader = .ok (some s.heap[c]!) ∧
      ∀ p, p ≠ 0 → p < s.heap.size → headItem rem s.heap[c]! ≤ headItem rem s.heap[p]! := by
  rw [nextReader]
  by_cases h2 : s.heap.size < 2
  · exact .inl ⟨h2, if_pos h2⟩
  · rw [if_neg h2]
    have h1 : 1 < s.heap.size := by omega
    by_cases h3 : s.heap.size < 3
    · refine .inr ⟨1, Nat.one_ne_zero, h1, if_pos h3, fun p hp hlt => ?_⟩
      rw [show p = 1 by omega]
    · rw [if_neg h3]
      have hlt2 : 2 < s.heap.size := by omega
      have hmin : ∀ {k : Bytes}, k ≤ headItem rem s.heap[1]! → k ≤ headItem rem s.heap[2]! →
          ∀ p, p ≠ 0 → p < s.heap.size → k ≤ headItem rem s.heap[p]! := by
        intro k hk1 hk2 p hp hlt
        refine hheap.le_of_children (fun c hc _ => ?_) hp hlt
        rcases hc with rfl | rfl
        · exact hk1
        · exact hk2
      simp only [hpool.currItem_eq (getElem!_mem h1), hpool.currItem_eq (getElem!_mem hlt2),
        ok_bind]
      by_cases hle : headItem rem s.heap[1]! ≤ headItem rem s.heap[2]!
      · exact .inr ⟨1, Nat.one_ne_zero, h1, by rw [if_pos hle], hmin le_rfl hle⟩
      · exact .inr ⟨2, by decide, hlt2, by rw [if_neg hle], hmin (le_of_not_ge hle) le_rfl⟩

/-- The items of the root that are left in its block. -/
def topItems (s : MergeState) : List Bytes :=
  let bsr := s.bsrs[s.heap[0]!]!
  bsr.block.items.drop bsr.currItemIdx

/-- In every round there is an item to move, and no item of another reader is smaller than those
that are moved. -/
theorem exists_limit (hpool : Pool z s.bsrs rem s.heap.toList)
    (hheap : HeapAbove (headItem rem) s.heap 0) (hpos : 0 < s.heap.size) :
    ∃ next nextItem, s.nextReader = .ok next ∧
      s.copyNextItem next = .ok nextItem ∧
      let limit := if compareEveryItem (s.bsrs[s.heap[0]!]!) next.isSome nextItem then some nextItem
        else none
      Output.movable limit s.topItems ≠ [] ∧ ∀ item ∈ Output.movable limit s.topItems,
        ∀ p, p ≠ 0 → p < s.heap.size → item ≤ headItem rem s.heap[p]! := by
  have htop := getElem!_mem hpos
  obtain ⟨blocks, hyields, -, hidx, hrem⟩ := hpool.readerAt _ htop
  have hsorted : s.topItems.Pairwise (· ≤ ·) := by
    have h := hpool.sorted _ htop
    rw [hrem] at h
    exact (pairwise_append.mp h).1
  obtain ⟨first, rest, hitems⟩ : ∃ first rest, s.topItems = first :: rest := by
    rw [topItems, drop_eq_getElem_cons hidx]
    exact ⟨_, _, rfl⟩
  have hfirst : headItem rem s.heap[0]! = first := by
    have h : rem s.heap[0]! = s.topItems ++ blocks.flatten := hrem
    rw [headItem, h, hitems]
    rfl
  rcases nextReader_spec hpool hheap with ⟨hsize, hnext⟩ | ⟨c, hc, hlt, hnext, hmin⟩
  · refine ⟨none, s.nextItem, hnext, rfl, ?_⟩
    have hcompare : compareEveryItem (s.bsrs[s.heap[0]!]!) false s.nextItem = false := by
      rw [compareEveryItem, if_pos hidx, Bool.false_and]
    simp only [Option.isSome_none, hcompare, Bool.false_eq_true, if_false]
    refine ⟨?_, fun item _ p hp hlt => absurd hlt (by omega)⟩
    rw [hitems]
    exact cons_ne_nil _ _
  · refine ⟨some s.heap[c]!, headItem rem s.heap[c]!, hnext,
      hpool.currItem_eq (getElem!_mem hlt), ?_⟩
    have hroot : first ≤ headItem rem s.heap[c]! := hfirst ▸ hheap.root_le (getElem!_mem hlt)
    simp only [Option.isSome_some]
    by_cases hcompare : compareEveryItem (s.bsrs[s.heap[0]!]!) true (headItem rem s.heap[c]!) = true
    · rw [if_pos hcompare]
      refine ⟨?_, fun item hitem p hp hplt => ?_⟩
      · rw [hitems, Output.movable, takeWhile_cons, if_pos]
        · exact cons_ne_nil _ _
        · simpa using hroot
      · have hitem' := mem_takeWhile_imp hitem
        refine le_trans ?_ (hmin p hp hplt)
        simpa using hitem'
    · rw [if_neg hcompare]
      refine ⟨?_, fun item hitem p hp hplt => ?_⟩
      · rw [hitems]
        exact cons_ne_nil _ _
      · -- the last item of the block does not exceed the next item
        have hitem' : item ∈ s.topItems := (takeWhile_sublist _).subset hitem
        have hne : s.topItems ≠ [] := ne_nil_of_mem hitem'
        have hlast : s.topItems.getLast hne ≤ headItem rem s.heap[c]! := by
          rw [compareEveryItem, if_pos hidx, Bool.true_and] at hcompare
          have hget : (s.bsrs[s.heap[0]!]!).block.items.getLast? =
              some (s.topItems.getLast hne) := by
            rw [← getLast?_eq_some_getLast, topItems, getLast?_drop, if_neg (by omega)]
          rw [hget] at hcompare
          simpa using hcompare
        have hle : item ≤ s.topItems.getLast hne := hsorted.rel_getLast hitem'
        exact (hle.trans hlast).trans (hmin p hp hplt)

/-- What holds between the rounds of a merge of the items `all` into `bsw`: the items `done` are
moved, and those of `rem` are left. The counters have counted the items of the written blocks. -/
structure Inv (z : Zstd) (bsw : BlockStreamWriter) (itemsMerged : ℕ) (all : List Bytes)
    (blocks : List (List Bytes)) (done : List Bytes) (rem : ℕ → List Bytes)
    (s : MergeState) : Prop where
  pool : Pool z s.bsrs rem s.heap.toList
  heapAbove : HeapAbove (headItem rem) s.heap 0
  holds : s.out.Holds z bsw blocks done
  perm : done ++ s.heap.toList.flatMap rem ~ all
  done_sorted : done.Pairwise (· ≤ ·)
  done_le : ∀ a ∈ done, ∀ b ∈ s.heap.toList.flatMap rem, a ≤ b
  counted : s.itemsMerged + s.out.localItemsMerged = itemsMerged + s.out.ph.itemsCount

/-- Items of a reader are moved. -/
theorem flatMap_update_append_perm {is : List ℕ} {i : ℕ} {moved rest : List Bytes}
    (hnodup : is.Nodup)
    (hi : i ∈ is) (hrem : rem i = moved ++ rest) :
    is.flatMap rem ~ moved ++ is.flatMap (update rem i rest) := by
  obtain ⟨others, hperm⟩ : ∃ others, is ~ i :: others := ⟨_, perm_cons_erase hi⟩
  have hnot : i ∉ others := (nodup_cons.mp (hperm.nodup_iff.mp hnodup)).1
  have hothers : others.flatMap (update rem i rest) = others.flatMap rem := by
    refine flatMap_congr fun j hj => ?_
    rw [update_of_ne]
    rintro rfl
    exact hnot hj
  refine (hperm.flatMap_right rem).trans ?_
  refine Perm.trans ?_ ((hperm.flatMap_right _).symm.append_left moved)
  rw [flatMap_cons, flatMap_cons, update_self, hrem, hothers, append_assoc]

variable {bsw : BlockStreamWriter} {itemsMerged : ℕ} {all : List Bytes} {blocks : List (List Bytes)}
  {done : List Bytes}

/-- The heap after the reader of the root has gone to the items `rest`, or has ended. -/
theorem exists_advance (hpool : Pool z s.bsrs rem s.heap.toList)
    (hheap : HeapAbove (headItem rem) s.heap 0) (hpos : 0 < s.heap.size) {moved rest : List Bytes}
    (hrem : rem s.heap[0]! = moved ++ rest) {r : BlockStreamReader}
    (hat : r.At z rest) :
    ∃ heap', siftDown (s.bsrs.set s.heap[0]! r) s.heap 0 = .ok heap' ∧
      heap'.toList ~ s.heap.toList ∧
      Pool z (s.bsrs.set s.heap[0]! r) (update rem s.heap[0]! rest) heap'.toList ∧
      HeapAbove (headItem (update rem s.heap[0]! rest)) heap' 0 := by
  have htop := getElem!_mem hpos
  have hrest : rest.Pairwise (· ≤ ·) := by
    have h := hpool.sorted _ htop
    rw [hrem] at h
    exact (pairwise_append.mp h).2.1
  refine (hpool.set (hpool.lt_length _ htop) (fun _ => hat) (fun _ => hrest)).exists_siftDown ?_
  have hexcept : HeapAboveExcept (headItem rem) s.heap 0 0 :=
    ⟨fun p c hp _ => hheap p c hp, fun p c hp hpar => by rcases hpar with h | h <;> omega⟩
  refine HeapMerge.heapAboveExcept_congr hexcept fun p hp hlt => ?_
  rw [headItem, headItem, update_of_ne]
  exact getElem!_ne_root hpool.nodup hp hlt

/-- The heap after the reader of the root has ended. -/
theorem exists_popTop (hpool : Pool z s.bsrs rem s.heap.toList)
    (hheap : HeapAbove (headItem rem) s.heap 0) (hpos : 0 < s.heap.size) (r : BlockStreamReader) :
    ∃ heap', heapPopTop (s.bsrs.set s.heap[0]! r) s.heap = .ok heap' ∧
      s.heap.toList ~ s.heap[0]! :: heap'.toList ∧
      Pool z (s.bsrs.set s.heap[0]! r) (update rem s.heap[0]! []) heap'.toList ∧
      HeapAbove (headItem (update rem s.heap[0]! [])) heap' 0 := by
  set popped := (s.heap.swapIfInBounds 0 (s.heap.size - 1)).pop with hpopped
  have hperm : s.heap.toList ~ s.heap[0]! :: popped.toList := HeapMerge.pop_swap_perm hpos
  have hnot : s.heap[0]! ∉ popped.toList :=
    (nodup_cons.mp (hperm.nodup_iff.mp hpool.nodup)).1
  have hpool' : Pool z s.bsrs rem popped.toList := by
    have hsub := (hpool.of_perm hperm.symm)
    exact ⟨hsub.nodup.of_cons, fun i hi => hsub.lt_length i (mem_cons_of_mem _ hi),
      fun i hi => hsub.readerAt i (mem_cons_of_mem _ hi),
      fun i hi => hsub.sorted i (mem_cons_of_mem _ hi)⟩
  have hset : Pool z (s.bsrs.set s.heap[0]! r) (update rem s.heap[0]! []) popped.toList :=
    hpool'.set (hpool.lt_length _ (getElem!_mem hpos)) (fun hi => absurd hi hnot)
      (fun hi => absurd hi hnot)
  obtain ⟨heap', hsift, hperm', hpool'', hheap'⟩ := hset.exists_siftDown (by
    refine ⟨?_, ?_⟩
    · have hexcept := (HeapMerge.heapAboveExcept_pop_swap hheap).others
      intro p c hp hp0 hc hlt
      have hpc : p < c := by rcases hc with rfl | rfl <;> omega
      have hne : ∀ q, q < popped.size → popped[q]! ≠ s.heap[0]! := fun q hq heq =>
        hnot (heq ▸ getElem!_mem hq)
      rw [headItem, headItem, update_of_ne (hne p (by omega)),
        update_of_ne (hne c hlt)]
      exact hexcept p c hp hp0 hc hlt
    · intro p c hp hpar
      rcases hpar with h | h <;> omega)
  exact ⟨heap', hsift, hperm.trans (hperm'.symm.cons _), hpool'', hheap'⟩

/-- The state after `n` items of the root were moved. -/
def afterDrain (s : MergeState) (nextItem : Bytes) (out : Output) (n : ℕ) : MergeState :=
  let bsr := s.bsrs[s.heap[0]!]!
  let bsrs := s.bsrs.set s.heap[0]! { bsr with currItemIdx := bsr.currItemIdx + n }
  { s with nextItem, out, bsrs }

/-- The end of a round, when the items `moved` of the root are moved and `left` are left in its
block. -/
theorem exists_advanceTop (hpool : Pool z s.bsrs rem s.heap.toList)
    (hheap : HeapAbove (headItem rem) s.heap 0) (hpos : 0 < s.heap.size) {moved left : List Bytes}
    (htop : s.topItems = moved ++ left) (out : Output) (nextItem : Bytes) :
    ∃ rest s', rem s.heap[0]! = moved ++ rest ∧
      advanceTop z (s.afterDrain nextItem out moved.length) (decide (left ≠ [])) = .ok (none, s') ∧
      s'.out = out ∧ s'.itemsMerged = s.itemsMerged ∧
      Pool z s'.bsrs (update rem s.heap[0]! rest) s'.heap.toList ∧
      HeapAbove (headItem (update rem s.heap[0]! rest)) s'.heap 0 ∧
      s'.heap.toList.flatMap (update rem s.heap[0]! rest) ~
        s.heap.toList.flatMap (update rem s.heap[0]! rest) := by
  have hmem := getElem!_mem hpos
  have hlt := hpool.lt_length _ hmem
  obtain ⟨later, hyields, hlater, hidx, hrem⟩ := hpool.readerAt _ hmem
  have hrem' : rem s.heap[0]! = moved ++ (left ++ later.flatten) := by
    rw [hrem, ← append_assoc, ← htop]
    rfl
  set bsr := s.bsrs[s.heap[0]!]! with hbsr
  refine ⟨left ++ later.flatten, ?_⟩
  have hget : ∀ r : BlockStreamReader, (s.bsrs.set s.heap[0]! r)[s.heap[0]!]! = r := by
    intro r
    rw [HeapMerge.getElem!_set hlt, if_pos rfl]
  by_cases hleft : left = []
  · subst hleft
    rw [append_nil] at htop
    rw [nil_append] at hrem' ⊢
    simp only [ne_eq, not_true_eq_false, decide_false, advanceTop, Bool.not_false,
      if_true, afterDrain, hget, set_set, ← hbsr]
    match later, hyields, hlater, hrem' with
    | [], hyields, _, hrem' =>
      obtain ⟨r', hnext, herror⟩ := hyields (bsr.currItemIdx + moved.length)
      obtain ⟨heap', hpop, hperm, hpool', hheap'⟩ := exists_popTop hpool hheap hpos r'
      refine ⟨{ s with nextItem, out, bsrs := s.bsrs.set s.heap[0]! r', heap := heap' },
        hrem', ?_, rfl, rfl, hpool', hheap', ?_⟩
      · simp only [hnext, ok_bind, Bool.false_eq_true, if_false, herror, hpop]
      · have hflat := hperm.symm.flatMap_right (update rem s.heap[0]! [])
        rwa [flatMap_cons, update_self, nil_append] at hflat
    | items :: later, hyields, hlater, hrem' =>
      obtain ⟨r', hnext, herror, hidx', hitems, hyields'⟩ :=
        hyields (bsr.currItemIdx + moved.length)
      have hat : r'.At z (items :: later).flatten := by
        refine ⟨later, hyields', fun b hb => hlater b (mem_cons_of_mem _ hb), ?_, ?_⟩
        · rw [hidx', hitems]
          exact length_pos_iff.mpr (hlater items mem_cons_self)
        · rw [hidx', hitems, drop_zero, flatten_cons]
      obtain ⟨heap', hsift, hperm, hpool', hheap'⟩ := exists_advance hpool hheap hpos hrem' hat
      refine ⟨{ s with nextItem, out, bsrs := s.bsrs.set s.heap[0]! r', heap := heap' },
        hrem', ?_, rfl, rfl, hpool', hheap', hperm.flatMap_right _⟩
      simp only [hnext, ok_bind, if_true, hsift]
  · have hat : BlockStreamReader.At z { bsr with currItemIdx := bsr.currItemIdx + moved.length }
        (left ++ later.flatten) := by
      have hdrop : bsr.block.items.drop (bsr.currItemIdx + moved.length) = left := by
        rw [← drop_drop]
        exact (congrArg (List.drop moved.length) htop).trans (drop_left ..)
      refine ⟨later, hyields, hlater, ?_, ?_⟩
      · have hpos := length_pos_iff.mpr hleft
        rw [← hdrop, length_drop] at hpos
        exact Nat.lt_of_sub_pos hpos
      · rw [hdrop]
    obtain ⟨heap', hsift, hperm, hpool', hheap'⟩ := exists_advance hpool hheap hpos hrem' hat
    refine ⟨{ s.afterDrain nextItem out moved.length with heap := heap' }, hrem', ?_, rfl,
      rfl, hpool', hheap', hperm.flatMap_right _⟩
    have hsift' : siftDown (s.afterDrain nextItem out moved.length).bsrs
        (s.afterDrain nextItem out moved.length).heap 0 = .ok heap' := hsift
    simp only [ne_eq, hleft, not_false_eq_true, decide_true, advanceTop, Bool.not_true,
      Bool.false_eq_true, if_false, hsift', ok_bind]

/-- A round moves at least one item. -/
theorem mergeTop_spec (hz : z.RoundTrips) (hall : MergeableItems all)
    (h : s.Inv z bsw itemsMerged all blocks done rem) (hpos : 0 < s.heap.size) :
    ∃ s' blocks' done' rem', s.mergeTop z none = .ok (some (none, s')) ∧
      s'.Inv z bsw itemsMerged all blocks' done' rem' ∧ done.length < done'.length := by
  have hmem := getElem!_mem hpos
  obtain ⟨next, nextItem, hnext, hitem, hne, hle⟩ := exists_limit h.pool h.heapAbove hpos
  set limit := if compareEveryItem (s.bsrs[s.heap[0]!]!) next.isSome nextItem then some nextItem
    else none with hlimit
  set moved := Output.movable limit s.topItems with hmoved
  obtain ⟨left, htop⟩ : moved <+: s.topItems := takeWhile_prefix _
  have hsplit := htop.symm
  -- whatever the output will be, the rest of the items is known
  obtain ⟨rest, -, hrem, -⟩ := exists_advanceTop h.pool h.heapAbove hpos hsplit s.out nextItem
  set rem' := update rem s.heap[0]! rest with hrem'
  have hflat : s.heap.toList.flatMap rem ~ moved ++ s.heap.toList.flatMap rem' :=
    flatMap_update_append_perm h.pool.nodup hmem hrem
  have htopSorted := h.pool.sorted _ hmem
  rw [hrem, pairwise_append] at htopSorted
  have hmovedLe : ∀ a ∈ moved, ∀ b ∈ s.heap.toList.flatMap rem', a ≤ b := by
    intro a ha b hb
    obtain ⟨j, hj, hbj⟩ := mem_flatMap.mp hb
    by_cases hji : j = s.heap[0]!
    · rw [hji, hrem', update_self] at hbj
      exact htopSorted.2.2 a ha b hbj
    · rw [hrem', update_of_ne hji] at hbj
      obtain ⟨p, hp, rfl⟩ := getElem_of_mem hj
      rw [Array.length_toList] at hp
      rw [Array.getElem_toList, ← getElem!_pos s.heap p hp] at hji hbj hj
      have hp0 : p ≠ 0 := by
        rintro rfl
        exact hji rfl
      refine (hle a ha p hp0 hp).trans ?_
      have hsorted := h.pool.sorted _ hj
      obtain ⟨c, cs, hcs⟩ := exists_cons_of_ne_nil (ne_nil_of_mem hbj)
      rw [headItem, hcs]
      rw [hcs] at hbj hsorted
      rcases mem_cons.mp hbj with rfl | hbj
      · exact le_rfl
      · exact (pairwise_cons.mp hsorted).1 b hbj
  have hdoneSorted : (done ++ moved).Pairwise (· ≤ ·) := by
    rw [pairwise_append]
    refine ⟨h.done_sorted, htopSorted.1, fun a ha b hb => h.done_le a ha b ?_⟩
    exact hflat.mem_iff.mpr (mem_append_left _ hb)
  have hdoneLe : ∀ a ∈ done ++ moved, ∀ b ∈ s.heap.toList.flatMap rem', a ≤ b := by
    intro a ha b hb
    rcases mem_append.mp ha with ha | ha
    · exact h.done_le a ha b (hflat.mem_iff.mpr (mem_append_right _ hb))
    · exact hmovedLe a ha b hb
  have hperm : (done ++ moved) ++ s.heap.toList.flatMap rem' ~ all := by
    rw [append_assoc]
    exact (hflat.symm.append_left done).trans h.perm
  obtain ⟨out, blocks', hdrain, hholds, hcount⟩ := h.holds.exists_drain hz hall limit
    (s.bsrs[s.heap[0]!]!).currItemIdx (isPrefix_of_sorted hall.sorted hperm hdoneSorted hdoneLe)
  obtain ⟨rest', s', hrest', hadvance, hout, hmerged, hpool', hheap', hflat'⟩ :=
    exists_advanceTop h.pool h.heapAbove hpos hsplit out nextItem
  obtain rfl : rest' = rest := append_cancel_left (hrest'.symm.trans hrem)
  refine ⟨s', blocks', done ++ moved, rem', ?_, ⟨hpool', hheap', ?_, ?_, hdoneSorted, ?_, ?_⟩, ?_⟩
  · have hexceeded : decide (moved ≠ s.topItems) = decide (left ≠ []) := by
      rw [decide_eq_decide, hsplit]
      simp
    have hdrain' : s.out.drain z none limit ((s.bsrs[s.heap[0]!]!).block.items.drop
        (s.bsrs[s.heap[0]!]!).currItemIdx) (s.bsrs[s.heap[0]!]!).currItemIdx =
        .ok (some (decide (left ≠ []), (s.bsrs[s.heap[0]!]!).currItemIdx + moved.length, out)) := by
      rw [← hexceeded]
      exact hdrain
    have hadvance' : advanceTop z { s with
        nextItem
        out
        bsrs := s.bsrs.set s.heap[0]! { s.bsrs[s.heap[0]!]! with
          currItemIdx := (s.bsrs[s.heap[0]!]!).currItemIdx + moved.length } } (decide (left ≠ [])) =
        .ok (none, s') := hadvance
    simp only [mergeTop, hnext, hitem, ← hlimit, hdrain', ok_bind, hadvance']
  · rw [hout]
    exact hholds
  · exact (hflat'.append_left _).trans hperm
  · intro a ha b hb
    exact hdoneLe a ha b (hflat'.mem_iff.mp hb)
  · have hcounted := h.counted
    rw [hout, hmerged]
    omega
  · rw [length_append]
    have := length_pos_iff.mpr hne
    omega

/-! ### The loop -/

theorem Inv.flushStats (h : s.Inv z bsw itemsMerged all blocks done rem) :
    s.flushStats.Inv z bsw itemsMerged all blocks done rem where
  pool := h.pool
  heapAbove := h.heapAbove
  holds := ⟨h.holds.done_eq, h.holds.reads, h.holds.bsw_eq, h.holds.blocks_ne, h.holds.dataLen_le,
    h.holds.caught_eq, h.holds.ph_eq⟩
  perm := h.perm
  done_sorted := h.done_sorted
  done_le := h.done_le
  counted := h.counted

theorem Inv.tickStats (h : s.Inv z bsw itemsMerged all blocks done rem) (ct : ℕ) :
    (s.tickStats ct).Inv z bsw itemsMerged all blocks done rem := by
  rw [MergeState.tickStats]
  split_ifs
  · exact ⟨h.pool, h.heapAbove, h.flushStats.holds, h.perm, h.done_sorted, h.done_le, h.counted⟩
  · exact h

/-- The state in which a merge has ended: the blocks that were written hold all the items. -/
structure Finished (z : Zstd) (bsw : BlockStreamWriter) (itemsMerged : ℕ) (all : List Bytes)
    (blocks : List (List Bytes)) (s : MergeState) : Prop where
  holds : s.out.Holds z bsw blocks all
  flatten_eq : blocks.flatten = all
  itemsMerged_eq : s.itemsMerged = itemsMerged + all.length

/-- The last block is written when no reader is left. -/
theorem Inv.finish (hz : z.RoundTrips) (hall : MergeableItems all)
    (h : s.Inv z bsw itemsMerged all blocks done rem) (hempty : s.heap.isEmpty) :
    ∃ out blocks', s.out.flushIb z none = .ok out ∧
      Finished z bsw itemsMerged all blocks' (MergeState.flushStats { s with out }) := by
  have hheap : s.heap.toList = [] := by simpa using hempty
  have hperm := h.perm
  rw [hheap, flatMap_nil, append_nil] at hperm
  obtain rfl : done = all := hperm.eq_of_pairwise (fun _ _ _ _ => le_antisymm)
    h.done_sorted hall.sorted
  have hcounted := h.counted
  by_cases hnil : s.out.ib.items = []
  · have hflat : blocks.flatten = done := by
      rw [h.holds.done_eq, hnil, append_nil]
    refine ⟨s.out, blocks, ?_, h.flushStats.holds, hflat, ?_⟩
    · rw [Output.flushIb, if_pos hnil]
    · rw [h.holds.ph_eq, hflat] at hcounted
      exact hcounted
  · obtain ⟨out, hflush, hholds, hreset, hcount⟩ := h.holds.flush hz hall prefix_rfl hnil
    have hflat : (blocks ++ [s.out.ib.items]).flatten = done := by
      rw [flatten_concat, ← h.holds.done_eq]
    refine ⟨out, blocks ++ [s.out.ib.items], hflush, ⟨hholds.done_eq, hholds.reads, hholds.bsw_eq,
      hholds.blocks_ne, hholds.dataLen_le, hholds.caught_eq, hholds.ph_eq⟩, hflat, ?_⟩
    have hitems : out.ph.itemsCount = done.length := by
      rw [hholds.ph_eq, hflat]
    change s.itemsMerged + out.localItemsMerged = itemsMerged + done.length
    omega

/-- The loop ends: a round moves an item, or is the last one. -/
theorem Inv.exists_mergeLoop (hz : z.RoundTrips) (hall : MergeableItems all)
    (h : s.Inv z bsw itemsMerged all blocks done rem) {ticks : List Tick}
    (hticks : all.length < done.length + ticks.length) (hstop : ∀ tick ∈ ticks, tick.stop = false) :
    ∃ s' blocks', mergeLoop z none ticks s = .ok (some (.ok (), s')) ∧
      Finished z bsw itemsMerged all blocks' s' := by
  induction ticks generalizing s blocks done rem with
  | nil =>
    have hlen := h.perm.length_eq
    rw [length_append] at hlen
    rw [length_nil] at hticks
    omega
  | cons tick ticks ih =>
    have h' := h.tickStats tick.ct
    rw [mergeLoop]
    by_cases hempty : (s.tickStats tick.ct).heap.isEmpty
    · obtain ⟨out, blocks', hflush, hfinished⟩ := h'.finish hz hall hempty
      refine ⟨_, blocks', ?_, hfinished⟩
      rw [if_pos hempty, hflush]
      rfl
    · have hpos : 0 < (s.tickStats tick.ct).heap.size := by
        rw [Array.isEmpty_iff_size_eq_zero] at hempty
        exact Nat.pos_of_ne_zero hempty
      obtain ⟨s₁, blocks₁, done₁, rem₁, htop, hinv, hlt⟩ := mergeTop_spec hz hall h' hpos
      rw [length_cons] at hticks
      obtain ⟨s', blocks', hloop, hfinished⟩ := ih hinv (by omega)
        fun tick htick => hstop tick (mem_cons_of_mem _ htick)
      refine ⟨s', blocks', ?_, hfinished⟩
      rw [if_neg hempty, hstop tick mem_cons_self, if_neg Bool.false_ne_true, htop]
      exact hloop

/-! ### The beginning -/

/-- The readers go to their first blocks. -/
theorem exists_initReaders {bsrs : List BlockStreamReader} {streams : List (List (List Bytes))}
    (h : List.Forall₂ (BlockStreamReader.Yields z) bsrs streams)
    (hne : ∀ stream ∈ streams, ∀ items ∈ stream, items ≠ []) (i : ℕ) :
    ∃ bsrs' is, initReaders z i bsrs = .ok (bsrs', is) ∧ bsrs'.length = bsrs.length ∧ is.Nodup ∧
      (∀ j ∈ is, i ≤ j ∧ j < i + bsrs.length) ∧
      (∀ j ∈ is, (bsrs'[j - i]!).At z (streams[j - i]!).flatten) ∧
      is.flatMap (fun j => (streams[j - i]!).flatten) = streams.flatten.flatten := by
  induction h generalizing i with
  | nil => exact ⟨[], [], rfl, rfl, nodup_nil, by simp, by simp, rfl⟩
  | @cons r stream bsrs streams hr _ ih =>
    obtain ⟨bsrs', is, hinit, hlen, hnodup, hbound, hat, hflat⟩ :=
      ih (fun stream hstream => hne stream (mem_cons_of_mem _ hstream)) (i + 1)
    have hshift : ∀ j ∈ is, ∀ {α : Type} [Inhabited α] (a : α) (l : List α),
        (a :: l)[j - i]! = l[j - (i + 1)]! := by
      intro j hj α _ a l
      obtain ⟨hle, -⟩ := hbound j hj
      rw [show j - i = j - (i + 1) + 1 by omega]
      rfl
    have hnot : i ∉ is := fun hi => by
      have := (hbound i hi).1
      omega
    have hflat' : is.flatMap (fun j => ((stream :: streams)[j - i]!).flatten) =
        streams.flatten.flatten := by
      rw [← hflat]
      refine flatMap_congr fun j hj => ?_
      rw [hshift j hj]
    have hbound' : ∀ j ∈ is, i ≤ j ∧ j < i + (r :: bsrs).length := by
      intro j hj
      obtain ⟨hle, hlt⟩ := hbound j hj
      rw [length_cons]
      omega
    match stream, hr, hne, hflat' with
    | [], ⟨r', hnext, herror⟩, _, hflat' =>
      refine ⟨r' :: bsrs', is, ?_, ?_, hnodup, hbound', ?_, ?_⟩
      · simp only [initReaders, hnext, ok_bind, herror, hinit, Bool.false_eq_true, if_false]
      · simp [hlen]
      · intro j hj
        rw [hshift j hj, hshift j hj]
        exact hat j hj
      · rw [hflat', flatten_cons, nil_append]
    | items :: blocks, ⟨r', hnext, herror, hidx, hitems, hyields⟩, hne, hflat' =>
      refine ⟨r' :: bsrs', i :: is, ?_, ?_, nodup_cons.mpr ⟨hnot, hnodup⟩, ?_, ?_, ?_⟩
      · simp only [initReaders, hnext, ok_bind, herror, hinit, if_true]
      · simp [hlen]
      · intro j hj
        rcases mem_cons.mp hj with rfl | hj
        · rw [length_cons]
          omega
        · exact hbound' j hj
      · intro j hj
        rcases mem_cons.mp hj with rfl | hj
        · have hmem := hne _ mem_cons_self
          rw [Nat.sub_self]
          refine ⟨blocks, hyields, fun b hb => hmem b (mem_cons_of_mem _ hb), ?_, ?_⟩
          · change r'.currItemIdx < r'.block.items.length
            rw [hidx, hitems]
            exact length_pos_iff.mpr (hmem items mem_cons_self)
          · change (items :: blocks).flatten = r'.block.items.drop r'.currItemIdx ++ blocks.flatten
            rw [hidx, hitems, drop_zero, flatten_cons]
        · rw [hshift j hj, hshift j hj]
          exact hat j hj
      · rw [flatMap_cons, hflat', Nat.sub_self, flatten_cons, flatten_append]
        rfl

/-- The state in which the loop begins. -/
theorem exists_init {bsrs : List BlockStreamReader} {streams : List (List (List Bytes))}
    (h : List.Forall₂ (BlockStreamReader.Yields z) bsrs streams)
    (hne : ∀ stream ∈ streams, ∀ items ∈ stream, items ≠ [])
    (hsorted : ∀ stream ∈ streams, stream.flatten.Pairwise (· ≤ ·)) (hsome : streams.flatten ≠ [])
    (hall : streams.flatten.flatten ~ all) (bsw : BlockStreamWriter) (itemsMerged : ℕ) :
    ∃ bsrs' heap rem, init z bsrs = .ok (bsrs', heap) ∧
      (start bsrs' heap bsw default itemsMerged).Inv z bsw itemsMerged all [] [] rem := by
  obtain ⟨bsrs', is, hinit, hlen, hnodup, hbound, hat, hflat⟩ := exists_initReaders h hne 0
  simp only [Nat.zero_add, Nat.sub_zero] at hbound hat hflat
  set rem : ℕ → List Bytes := fun j => (streams[j]!).flatten with hrem
  have hpool : Pool z bsrs' rem is := by
    refine ⟨hnodup, fun j hj => hlen ▸ (hbound j hj).2, hat, fun j hj => ?_⟩
    have hj' : j < streams.length := h.length_eq ▸ (hbound j hj).2
    rw [hrem]
    simp only [getElem!_pos streams j hj']
    exact hsorted _ (getElem_mem hj')
  have hperm : (heapify (headLess rem) is.toArray).toList ~ is := heapify_perm _ is.toArray
  have hne' : ¬ (heapify (headLess rem) is.toArray).isEmpty := by
    rw [Array.isEmpty_iff_size_eq_zero, ← Array.length_toList, hperm.length_eq, length_eq_zero_iff]
    rintro rfl
    obtain ⟨items, rest, hrest⟩ := exists_cons_of_ne_nil hsome
    obtain ⟨stream, hstream, hitems⟩ := mem_flatten.mp (hrest ▸ mem_cons_self)
    have hnil : streams.flatten.flatten = [] := hflat.symm
    rw [hrest, flatten_cons, append_eq_nil_iff] at hnil
    exact hne stream hstream items hitems hnil.1
  refine ⟨bsrs', heapify (headLess rem) is.toArray, rem, ?_, hpool.of_perm hperm, ?_, ?_, ?_,
    Pairwise.nil, by simp, rfl⟩
  · have hheap : heapInit bsrs' is.toArray = .ok (heapify (headLess rem) is.toArray) :=
      heapifyM_eq hpool.comparesAs
    rw [init, hinit, ok_bind]
    simp only [hheap, ok_bind]
    rw [if_neg hne']
  · exact heapAbove_heapify (Pool.comparesBy rem _)
  · refine ⟨rfl, .nil, rfl, by simp, ?_, rfl, rfl⟩
    simp [start, InmemoryBlock.reset, InmemoryBlock.dataLen]
  · rw [nil_append]
    refine (hperm.flatMap_right rem).trans ?_
    rw [hflat]
    exact hall

end MergeState

/-- **The merge of index items.** Streams of non-empty blocks of sorted items, each item of at most
64 KiB, are merged without an error if there is an item at all, and if the first 2³² items do not
fit one block. The written blocks are read back as the items of all the streams, sorted; the part
header and the counter are those of these items. -/
theorem mergeBlockStreams_ok {z : Zstd} (hz : z.RoundTrips) {bsrs : List BlockStreamReader}
    {streams : List (List (List Bytes))}
    (hyields : List.Forall₂ (BlockStreamReader.Yields z) bsrs streams)
    (hne : ∀ stream ∈ streams, ∀ items ∈ stream, items ≠ [])
    (hsorted : ∀ stream ∈ streams, stream.flatten.Pairwise (· ≤ ·))
    (hlen : ∀ stream ∈ streams, ∀ items ∈ stream, ∀ item ∈ items,
      item.length ≤ maxInmemoryBlockSize)
    (hsome : streams.flatten ≠ [])
    (hfit : 2 ^ 32 ≤ streams.flatten.flatten.length → maxInmemoryBlockSize <
      (((sortByKey id streams.flatten.flatten).take (2 ^ 32)).map List.length).sum)
    (bsw : BlockStreamWriter) (itemsMerged : ℕ) (ticks : List Tick)
    (hticks : streams.flatten.flatten.length < ticks.length)
    (hstop : ∀ tick ∈ ticks, tick.stop = false) :
    ∃ s blocks, mergeBlockStreams z default bsw bsrs none itemsMerged ticks =
        .ok (some (.ok (s.out.bsw.mustClose z), s)) ∧
      s.out.bsw = s.out.written.foldl (BlockStreamWriter.writeMarshaled z) bsw ∧
      List.Forall₂ (fun m items => ∃ cp, InmemoryBlock.unmarshalData z m = .ok ⟨cp, items⟩)
        s.out.written blocks ∧
      blocks.flatten.Pairwise (· ≤ ·) ∧ blocks.flatten ~ streams.flatten.flatten ∧
      s.itemsMerged = itemsMerged + streams.flatten.flatten.length ∧
      s.out.ph.itemsCount = streams.flatten.flatten.length ∧
      s.out.ph.blocksCount = s.out.written.length ∧
      blocks.flatten.head? = some s.out.ph.firstItem ∧
      blocks.flatten.getLast? = some s.out.ph.lastItem := by
  set all := sortByKey id streams.flatten.flatten with hall
  have hperm : all ~ streams.flatten.flatten := sortByKey_perm id _
  have hmergeable : MergeableItems all := by
    refine ⟨pairwise_sortByKey id _, fun item hitem => ?_, fun h => hfit (hperm.length_eq ▸ h)⟩
    obtain ⟨items, hitems, hitem'⟩ := mem_flatten.mp (hperm.mem_iff.mp hitem)
    obtain ⟨stream, hstream, hitems'⟩ := mem_flatten.mp hitems
    exact hlen stream hstream items hitems' item hitem'
  obtain ⟨bsrs', heap, rem, hinit, hinv⟩ := MergeState.exists_init hyields hne hsorted hsome
    hperm.symm bsw itemsMerged
  have hlt : all.length < ([] : List Bytes).length + ticks.length := by
    rwa [hperm.length_eq, length_nil, Nat.zero_add]
  obtain ⟨s, blocks, hloop, hfinished⟩ := hinv.exists_mergeLoop hz hmergeable hlt hstop
  have hflat := hfinished.flatten_eq
  have hph := hfinished.holds.ph_eq
  rw [hflat] at hph
  have hne' : all ≠ [] := by
    intro hnil
    rw [hnil] at hperm
    have hflatten := hperm.symm.eq_nil
    obtain ⟨items, rest, hrest⟩ := exists_cons_of_ne_nil hsome
    obtain ⟨stream, hstream, hitems⟩ := mem_flatten.mp (hrest ▸ mem_cons_self)
    rw [hrest, flatten_cons, append_eq_nil_iff] at hflatten
    exact hne stream hstream items hitems hflatten.1
  obtain ⟨first, rest, hfirst⟩ := exists_cons_of_ne_nil hne'
  refine ⟨s, blocks, ?_, hfinished.holds.bsw_eq, hfinished.holds.reads, ?_, ?_, ?_, ?_, ?_, ?_, ?_⟩
  · simp only [mergeBlockStreams, hinit, hloop, ok_bind]
  · rw [hflat]
    exact hmergeable.sorted
  · rw [hflat]
    exact hperm
  · rw [hfinished.itemsMerged_eq, hperm.length_eq]
  · rw [hph, hperm.length_eq]
  · rw [hph, hfinished.holds.reads.length_eq]
  · rw [hflat, hph, hfirst]
    rfl
  · rw [hflat, hph, hfirst, getLast?_eq_some_getLast (cons_ne_nil _ _),
      getLastD_eq_getLast?, getLast?_eq_some_getLast (cons_ne_nil _ _)]
    rfl

/-- Two blocks are merged. -/
theorem mergeBlockStreams_ok_two :
    ∃ s, mergeBlockStreams Zstd.stored default (.new 1)
        [.fromInmemoryBlock ⟨[], [[1], [3]]⟩, .fromInmemoryBlock ⟨[], [[2]]⟩] none 0
        (List.replicate 4 ⟨1, false⟩) = .ok (some (.ok (s.out.bsw.mustClose Zstd.stored), s)) ∧
      s.itemsMerged = 3 ∧ s.out.ph.itemsCount = 3 := by
  obtain ⟨s, blocks, hmerge, -, -, -, -, hmerged, hcount, -⟩ :=
    mergeBlockStreams_ok Zstd.roundTrips_stored
      (.cons (BlockStreamReader.yields_fromInmemoryBlock _ ⟨[], [[1], [3]]⟩)
        (.cons (BlockStreamReader.yields_fromInmemoryBlock _ ⟨[], [[2]]⟩) .nil))
      (by decide) (by decide) (by decide) (by decide) (fun h => absurd h (by decide)) (.new 1) 0
      (List.replicate 4 ⟨1, false⟩) (by decide) (by simp)
  exact ⟨s, hmerge, hmerged, hcount⟩

/-! ### Too many items -/

/-- Empty items fit any block. -/
theorem Output.drain_replicate_nil (z : Zstd) (n idx : ℕ) (o : Output)
    (h : o.ib.dataLen ≤ maxInmemoryBlockSize) :
    o.drain z none none (List.replicate n []) idx =
      .ok (some (false, idx + n, { o with
        ib := { o.ib with items := o.ib.items ++ List.replicate n [] } })) := by
  induction n generalizing idx o with
  | zero => simp [drain]
  | succ n ih =>
    have hadd : o.ib.add [] = some { o.ib with items := o.ib.items ++ [[]] } := by
      rw [InmemoryBlock.add, if_neg]
      rw [length_nil, Nat.zero_add]
      omega
    rw [replicate_succ, drain, if_neg (by simp), hadd]
    simp only
    rw [ih]
    · simp [Nat.add_comm, Nat.add_left_comm]
    · simpa [InmemoryBlock.dataLen] using h

/-- Too many items cannot be written. -/
theorem Output.panics_flushIb (z : Zstd) {o : Output} (h : 2 ^ 32 ≤ o.ib.items.length)
    (hsorted : o.ib.items.Pairwise (· ≤ ·)) : (o.flushIb z none).Panics := by
  have hne : o.ib.items ≠ [] := by
    intro hnil
    rw [hnil] at h
    exact absurd h (by decide)
  obtain ⟨first, hfirst⟩ := Option.ne_none_iff_exists'.mp (mt head?_eq_none_iff.mp hne)
  obtain ⟨last, hlast⟩ := Option.ne_none_iff_exists'.mp (mt getLast?_eq_none_iff.mp hne)
  rw [← (InmemoryBlock.updateCommonPrefixSorted_spec hsorted).1] at h
  obtain ⟨msg, hmsg⟩ : (o.ib.updateCommonPrefixSorted.marshalData z o.bsw.compressLevel).Panics :=
    InmemoryBlock.panics_marshalData o.bsw.compressLevel h
  refine ⟨msg, ?_⟩
  rw [flushIb, if_neg hne]
  simp only [writeItems, hfirst, hlast, index_some, ok_bind, BlockStreamWriter.writeBlock,
    InmemoryBlock.marshalSortedData, hmsg, panic_bind]

/-- The only reader gives its only block, with empty items. -/
theorem MergeState.mergeTop_replicate_nil (z : Zstd) {s : MergeState}
    {r : BlockStreamReader} {n : ℕ}
    (hn : 0 < n) (hheap : s.heap = #[0]) (hbsrs : s.bsrs = [r])
    (hitems : r.block.items = List.replicate n [])
    (hidx : r.currItemIdx = 0) (herr : r.err = some .eof) (hib : s.out.ib = .reset) :
    ∃ s', s.mergeTop z none = .ok (some (none, s')) ∧ s'.heap = #[] ∧
      s'.out.ib.items = List.replicate n [] := by
  obtain ⟨bsrs, heap, nextItem, out, deadline, merged⟩ := s
  simp only at hheap hbsrs hib
  subst hheap hbsrs
  have hdrain := Output.drain_replicate_nil z n 0 out (by rw [hib]; decide)
  have hcompare : compareEveryItem r false nextItem = false := by
    rw [compareEveryItem, hidx, hitems, length_replicate, if_pos hn, Bool.false_and]
  have hnext : BlockStreamReader.next z { r with currItemIdx := 0 + n } =
      .ok (false, { r with currItemIdx := 0 + n }) := by
    rw [BlockStreamReader.next, herr]
    rfl
  have herror : BlockStreamReader.error { r with currItemIdx := 0 + n } = none := by
    rw [BlockStreamReader.error, herr]
  have hpop : ∀ bsrs, heapPopTop bsrs #[0] = .ok #[] := fun _ => rfl
  have hnextReader : nextReader ⟨[r], #[0], nextItem, out, deadline, merged⟩ = .ok none := rfl
  have htop : #[0][0]! = 0 := rfl
  have hget : ∀ r : BlockStreamReader, [r][0]! = r := fun _ => rfl
  refine ⟨⟨[{ r with currItemIdx := 0 + n }], #[], nextItem,
    { out with ib := { out.ib with items := out.ib.items ++ List.replicate n [] } },
    deadline, merged⟩, ?_, rfl, ?_⟩
  · rw [mergeTop, hnextReader]
    simp only [ok_bind, copyNextItem, htop, hget, Option.isSome_none, hcompare,
      Bool.false_eq_true, if_false, hidx, hitems, drop_zero, hdrain, advanceTop, Bool.not_false,
      if_true, set_cons_zero, hnext, herror, hpop]
  · simp [hib, InmemoryBlock.reset]

/-- A merge of 2³² empty items, or more, panics when they are written. -/
theorem panics_mergeBlockStreams (z : Zstd) (bsw : BlockStreamWriter) {n : ℕ} (hn : 2 ^ 32 ≤ n)
    (tick₁ tick₂ : Tick) (hstop : tick₁.stop = false) (ticks : List Tick) :
    (mergeBlockStreams z default bsw [.fromInmemoryBlock ⟨[], List.replicate n []⟩] none 0
      (tick₁ :: tick₂ :: ticks)).Panics := by
  have hitems : (InmemoryBlock.sortItems ⟨[], List.replicate n []⟩).items = List.replicate n [] :=
    perm_replicate.mp (InmemoryBlock.sortItems_spec ⟨[], List.replicate n []⟩).1
  set r : BlockStreamReader :=
    { BlockStreamReader.fromInmemoryBlock ⟨[], List.replicate n []⟩ with err := some .eof } with hr
  have hinit : MergeState.init z [.fromInmemoryBlock ⟨[], List.replicate n []⟩] =
      .ok ([r], #[0]) := rfl
  -- the first round moves the items, the second one writes them
  set s := (MergeState.start [r] #[0] bsw default 0).tickStats tick₁.ct with hs
  have hstart : s.heap = #[0] ∧ s.bsrs = [r] ∧ s.out.ib = .reset := by
    rw [hs, MergeState.tickStats]
    split_ifs
    · exact ⟨rfl, rfl, rfl⟩
    · exact ⟨rfl, rfl, rfl⟩
  obtain ⟨hheap, hbsrs, hib⟩ := hstart
  obtain ⟨s₁, htop, hheap₁, hitems₁⟩ := MergeState.mergeTop_replicate_nil z
    (lt_of_lt_of_le (by decide) hn) hheap hbsrs hitems rfl rfl hib
  have hstart₁ : (s₁.tickStats tick₂.ct).heap = #[] ∧
      (s₁.tickStats tick₂.ct).out.ib.items = List.replicate n [] := by
    rw [MergeState.tickStats]
    split_ifs
    · exact ⟨hheap₁, hitems₁⟩
    · exact ⟨hheap₁, hitems₁⟩
  obtain ⟨hheap₂, hitems₂⟩ := hstart₁
  obtain ⟨msg, hpanic⟩ : ((s₁.tickStats tick₂.ct).out.flushIb z none).Panics := by
    refine Output.panics_flushIb z ?_ ?_
    · rwa [hitems₂, length_replicate]
    · rw [hitems₂]
      exact pairwise_replicate_of_refl
  refine ⟨msg, ?_⟩
  have hloop₂ : MergeState.mergeLoop z none (tick₂ :: ticks) s₁ = .panic msg := by
    simp only [MergeState.mergeLoop, hheap₂, hpanic, panic_bind]
    rfl
  have hloop : MergeState.mergeLoop z none (tick₁ :: tick₂ :: ticks)
      (.start [r] #[0] bsw default 0) = .panic msg := by
    rw [MergeState.mergeLoop, ← hs, hheap, hstop, htop]
    exact hloop₂
  simp only [mergeBlockStreams, hinit, hloop, panic_bind]

/-- Without a stream there is nothing to merge, and 2³² empty items are too many for a block. -/
theorem mergeBlockStreams_none_and_too_many :
    (∃ s, mergeBlockStreams Zstd.stored default (.new 1) [] none 0 (List.replicate 2 ⟨1, false⟩) =
      .ok (some (.error (.other "cannot merge 0 block streams: bsrHeap cannot be empty"), s))) ∧
    (mergeBlockStreams Zstd.stored default (.new 1)
      [.fromInmemoryBlock ⟨[], List.replicate (2 ^ 32) []⟩] none 0
      (List.replicate 2 ⟨1, false⟩)).Panics := by
  refine ⟨⟨_, rfl⟩, ?_⟩
  exact panics_mergeBlockStreams Zstd.stored (.new 1) le_rfl ⟨1, false⟩ ⟨1, false⟩ rfl []

end Esmetrics.Mergeset
