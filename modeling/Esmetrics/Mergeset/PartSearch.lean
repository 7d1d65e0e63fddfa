import Esmetrics.Lib.HeapMerge
import Esmetrics.Lib.MergeJoin
import Esmetrics.Mergeset.BlockStream

/-!
# Search in a part

Model of `esm-mergeset/src/part_search.rs` and of the reading side of `part.rs`. A search stands at
an item of a block of a part. `seek` goes to the first item that is at least a key, by binary
searches over the metaindex rows, over the headers of an index block and over the items of a block;
if the key is in the current block, the first two are skipped. The caches of index blocks and of
blocks are left out: blocks are read from the files of the part.

Whatever a search did before, it gives after `seek` a tail of the items of the part, all of them at
least the key, with every such item in it (`PartSearch.exists_seek`).
-/

namespace Esmetrics.Mergeset

open List Outcome

/-- A part of a table. -/
structure Part where
  ph : PartHeader
  /-- The path of the part, as it is printed in errors. -/
  path : String
  mrs : List MetaindexRow
  indexFile : Bytes
  itemsFile : Bytes
  lensFile : Bytes
deriving DecidableEq, Repr

/-- Reads `n` bytes of a file. -/
def mustReadAt (file : Bytes) (off : UInt64) (n : ℕ) : Outcome Bytes := do
  let size := file.length
  Outcome.assert (off.toNat + n ≤ size)
    s!"BUG: off={off}+len={n} is out of range for in-memory part stream of size {size}"
  .ok ((file.drop off.toNat).take n)

namespace Part

variable (z : Zstd)

/-- Reads the headers of an index block. -/
def readIndexBlock (p : Part) (mr : MetaindexRow) : Outcome (List BlockHeader) := do
  let compressedIndexBuf ← mustReadAt p.indexFile mr.indexBlockOffset mr.indexBlockSize.toNat
  let indexBuf ← (decompressZstd z [] compressedIndexBuf).mapErr fun e =>
    s!"cannot read index block: cannot decompress index block: {e}"
  (unmarshalBlockHeaders indexBuf mr.blockHeadersCount.toNat).mapErr fun e =>
    let offset := mr.indexBlockOffset
    let size := mr.indexBlockSize
    s!"cannot unmarshal block headers from index block (offset={offset}, size={size}): {e}"

def readInmemoryBlock (p : Part) (bh : BlockHeader) : Outcome InmemoryBlock := do
  let itemsData ← mustReadAt p.itemsFile bh.itemsBlockOffset bh.itemsBlockSize.toNat
  let lensData ← mustReadAt p.lensFile bh.lensBlockOffset bh.lensBlockSize.toNat
  (InmemoryBlock.unmarshalData z
    ⟨⟨itemsData, lensData⟩, bh.firstItem, bh.commonPrefix, bh.itemsCount, bh.marshalType⟩).mapErr
    fun e =>
      let itemsCount := bh.itemsCount
      s!"cannot unmarshal storage block with {itemsCount} items: {e}"

/-- The block of a header. A single item is in the header, so that nothing is read. -/
def getInmemoryBlock (p : Part) (bh : BlockHeader) : Outcome InmemoryBlock := do
  if bh.itemsCount = 1 then
    Outcome.assert (bh.marshalType = .plain)
      "BUG: single item block must be always encoded with MarshalType::Plain"
    .ok ⟨bh.commonPrefix, [bh.firstItem]⟩
  else p.readInmemoryBlock z bh

end Part

/-- The index of the first item that is at least `k`; the first `cpLen` bytes of `k` and of all
items are the same. -/
def binarySearchKey (items : List Bytes) (k : Bytes) (cpLen : ℕ) : ℕ :=
  match items with
  | [] => 0
  | first :: items =>
    let suffix := k.drop cpLen
    if suffix ≤ first.drop cpLen then 0
    else partitionPoint (fun item => suffix > item.drop cpLen) items + 1

inductive PsError where
  | eof
  | other (msg : String)
deriving DecidableEq, Repr

/-- A search in a part. -/
structure PartSearch where
  p : Part
  /-- The index of the next metaindex row. -/
  mrNext : ℕ
  /-- The headers of the current index block. -/
  bhs : List BlockHeader
  /-- The index of the next header. -/
  bhNext : ℕ
  err : Option PsError
  /-- The current block. -/
  ib : InmemoryBlock
  ibValid : Bool
  /-- The index of the next item. -/
  ibItemIdx : ℕ
  /-- The item that was found last. -/
  curItem : Bytes
deriving DecidableEq, Repr

namespace PartSearch

def new (p : Part) : PartSearch := ⟨p, 0, [], 0, none, .reset, false, 0, []⟩

instance : Inhabited PartSearch := ⟨new ⟨default, "", [], [], [], []⟩⟩

/-- The item that was found last. -/
def item (ps : PartSearch) : Bytes := ps.curItem

/-- The last error, unless it is the end. -/
def error (ps : PartSearch) : Option String :=
  match ps.err with
  | some (.other msg) => some msg
  | _ => none

/-- Looks for `k` in the current block. -/
def tryFastSeek (ps : PartSearch) (k : Bytes) : Option PartSearch :=
  let items := ps.ib.items
  if !ps.ibValid || decide (ps.ibItemIdx ≥ items.length) then none
  else
    let cpLen := commonPrefixLen ps.ib.commonPrefix k
    let suffix := k.drop cpLen
    if suffix > (items.getLastD []).drop cpLen then none
    else
      -- the item is in this block or in one before it
      let idx := ps.ibItemIdx - 1
      if suffix < (items.getD idx []).drop cpLen then
        match items.take idx with
        | [] => none
        | first :: window =>
          if suffix < first.drop cpLen then none
          else some { ps with ibItemIdx := binarySearchKey (first :: window) k cpLen }
      else some { ps with ibItemIdx := idx + binarySearchKey (items.drop idx) k cpLen }

variable (z : Zstd)

/-- Reads the next index block; the error stands beside the search. -/
def nextBhs (ps : PartSearch) : Outcome (Option PsError × PartSearch) :=
  match ps.p.mrs[ps.mrNext]? with
  | none => .ok (some .eof, ps)
  | some mr =>
    let ps := { ps with mrNext := ps.mrNext + 1 }
    match ps.p.readIndexBlock z mr with
    | .panic msg => .panic msg
    | .err e => .ok (some (.other e), ps)
    | .ok bhs => .ok (none, { ps with bhs, bhNext := 0 })

/-- Reads the block of the next header of the current index block. -/
def readNextBlock (ps : PartSearch) : Outcome (Option PsError × PartSearch) := do
  let bh ← Outcome.index ps.bhs[ps.bhNext]?
  let ps := { ps with bhNext := ps.bhNext + 1 }
  match ps.p.getInmemoryBlock z bh with
  | .panic msg => .panic msg
  | .err e => .ok (some (.other e), ps)
  | .ok ib => .ok (none, { ps with ib, ibValid := true, ibItemIdx := 0 })

/-- Goes to the next block. -/
def nextBlock (ps : PartSearch) : Outcome (Option PsError × PartSearch) := do
  if ps.bhNext ≥ ps.bhs.length then
    match ← ps.nextBhs z with
    | (some err, ps) => .ok (some err, ps)
    | (none, ps) => ps.readNextBlock z
  else ps.readNextBlock z

/-- Goes to the next block; an error is kept. -/
def nextBlockOrErr (ps : PartSearch) : Outcome PartSearch := do
  let (err, ps) ← ps.nextBlock z
  match err with
  | some err => .ok { ps with err := some err }
  | none => .ok ps

/-- Looks for `k` through the headers of the index block that may hold it. -/
def seekInIndexBlock (ps : PartSearch) (k : Bytes) : Outcome PartSearch := do
  -- `k` may be in the block before
  let n := partitionPoint (fun bh : BlockHeader => bh.firstItem < k) ps.bhs
  match ← nextBlock z { ps with bhNext := n - 1 } with
  | (some err, ps) => .ok { ps with err := some err }
  | (none, ps) =>
    let cpLen := commonPrefixLen ps.ib.commonPrefix k
    let ps := { ps with ibItemIdx := binarySearchKey ps.ib.items k cpLen }
    if ps.ibItemIdx < ps.ib.items.length then .ok ps
    -- the item must be the first one of the next block
    else ps.nextBlockOrErr z

/-- Goes to the first item that is at least `k`. -/
def seek (ps : PartSearch) (k : Bytes) : Outcome PartSearch := do
  if ps.error.isSome then .ok ps
  else
    let ps := { ps with err := none }
    if k > ps.p.ph.lastItem then .ok { ps with err := some .eof }
    else
      match ps.tryFastSeek k with
      | some ps => .ok ps
      | none =>
        let ps := { ps with mrNext := 0, bhNext := ps.bhs.length, ibValid := false, ibItemIdx := 0 }
        if k ≤ ps.p.ph.firstItem then ps.nextBlockOrErr z
        else
          Outcome.assert (ps.p.mrs ≠ []) "BUG: part without metaindex rows passed to PartSearch"
          -- `k` may be in the index block before
          let n := partitionPoint (fun mr : MetaindexRow => mr.firstItem < k) ps.p.mrs
          match ← nextBhs z { ps with mrNext := n - 1 } with
          | (some err, ps) => .ok { ps with err := some err }
          | (none, ps) => ps.seekInIndexBlock z k

/-- Goes to the next item, and tells whether there is one. -/
def nextItem (ps : PartSearch) : Outcome (Bool × PartSearch) := do
  if ps.err.isSome then .ok (false, ps)
  else if ps.ibValid && decide (ps.ibItemIdx < ps.ib.items.length) then
    let curItem ← Outcome.index ps.ib.items[ps.ibItemIdx]?
    .ok (true, { ps with curItem, ibItemIdx := ps.ibItemIdx + 1 })
  else
    match ← ps.nextBlock z with
    | (some .eof, ps) => .ok (false, { ps with err := some .eof })
    | (some (.other msg), ps) =>
      let path := ps.p.path
      .ok (false, { ps with err := some (.other s!"error in {path}: {msg}") })
    | (none, ps) =>
      let curItem ← Outcome.index ps.ib.items.head?
      .ok (true, { ps with curItem, ibItemIdx := 1 })

/-- A search as a source of items. -/
def asSource : SourceOps PartSearch Bytes := ⟨nextItem z, item, error⟩

end PartSearch

/-! ### Binary search -/

variable {cp item : Bytes}

/-- A key and an item begin with the same bytes. -/
theorem take_commonPrefixLen_eq (k : Bytes) (h : cp <+: item) :
    item.take (commonPrefixLen cp k) = k.take (commonPrefixLen cp k) := by
  obtain ⟨suffix, rfl⟩ := h
  rw [take_append_of_le_length (commonPrefixLen_le_left cp k), take_commonPrefixLen]

theorem drop_le_drop_iff {a b : Bytes} {n : ℕ} (h : a.take n = b.take n) :
    a.drop n ≤ b.drop n ↔ a ≤ b := by
  rw [← append_le_append_iff (a.take n), take_append_drop, h, take_append_drop]

/-- A key is compared with an item by what is behind their common prefix. -/
theorem drop_commonPrefixLen_le_iff (k : Bytes) (h : cp <+: item) :
    k.drop (commonPrefixLen cp k) ≤ item.drop (commonPrefixLen cp k) ↔ k ≤ item :=
  drop_le_drop_iff (take_commonPrefixLen_eq k h).symm

theorem drop_commonPrefixLen_lt_iff (k : Bytes) (h : cp <+: item) :
    item.drop (commonPrefixLen cp k) < k.drop (commonPrefixLen cp k) ↔ item < k := by
  rw [← not_le, ← not_le, drop_commonPrefixLen_le_iff k h]

theorem lt_drop_commonPrefixLen_iff (k : Bytes) (h : cp <+: item) :
    k.drop (commonPrefixLen cp k) < item.drop (commonPrefixLen cp k) ↔ k < item := by
  rw [← not_le, ← not_le, drop_le_drop_iff (take_commonPrefixLen_eq k h)]

/-- The items before the index are smaller than `k`, the others are not. -/
theorem binarySearchKey_spec {k : Bytes} {items : List Bytes} (hcp : ∀ item ∈ items, cp <+: item)
    (hsorted : items.Pairwise (· ≤ ·)) :
    let i := binarySearchKey items k (commonPrefixLen cp k)
    i ≤ items.length ∧ (∀ item ∈ items.take i, item < k) ∧ ∀ item ∈ items.drop i, k ≤ item := by
  match items, hcp, hsorted with
  | [], _, _ => exact ⟨le_rfl, by simp, by simp⟩
  | first :: items, hcp, hsorted =>
    obtain ⟨hfirst, hrest⟩ := pairwise_cons.mp hsorted
    simp only [binarySearchKey]
    by_cases hle : k.drop (commonPrefixLen cp k) ≤ first.drop (commonPrefixLen cp k)
    · rw [if_pos hle]
      have hk : k ≤ first := (drop_commonPrefixLen_le_iff k (hcp first mem_cons_self)).mp hle
      refine ⟨Nat.zero_le _, by simp, fun item hitem => ?_⟩
      rcases mem_cons.mp hitem with rfl | hitem
      · exact hk
      · exact hk.trans (hfirst item hitem)
    · rw [if_neg hle]
      have hk : first < k := by
        rw [← not_le, ← drop_commonPrefixLen_le_iff k (hcp first mem_cons_self)]
        exact hle
      have hiff : ∀ item ∈ items,
          decide (k.drop (commonPrefixLen cp k) > item.drop (commonPrefixLen cp k)) = true ↔
            id item < k := by
        intro item hitem
        rw [decide_eq_true_iff, gt_iff_lt]
        exact drop_commonPrefixLen_lt_iff k (hcp item (mem_cons_of_mem _ hitem))
      refine ⟨?_, ?_, ?_⟩
      · rw [length_cons]
        exact Nat.succ_le_succ (partitionPoint_le_length _ _)
      · intro item hitem
        rw [take_succ_cons] at hitem
        rcases mem_cons.mp hitem with rfl | hitem
        · exact hk
        · exact lt_of_mem_take_partitionPoint hiff hitem
      · intro item hitem
        rw [drop_succ_cons] at hitem
        exact le_of_mem_drop_partitionPoint hrest hiff hitem

/-- The group that may hold the first item that is at least `k`: the items of the groups before it
are smaller, those of the groups behind it are not. -/
theorem exists_group {η γ : Type} {firstItem : η → Bytes} {itemsOf : γ → List Bytes}
    {k : Bytes} {e : η} {es : List η} {gs : List γ}
    (h : List.Forall₂ (fun e g => (itemsOf g).head? = some (firstItem e)) (e :: es) gs)
    (hsorted : (gs.flatMap itemsOf).Pairwise (· ≤ ·)) (hfirst : firstItem e < k) :
    let n := partitionPoint (fun e => decide (firstItem e < k)) (e :: es)
    ∃ pre g post, n - 1 = pre.length ∧ gs = pre ++ g :: post ∧
      (∃ item, (itemsOf g).head? = some item ∧ item < k) ∧
      (∀ item ∈ pre.flatMap itemsOf, item < k) ∧ ∀ item ∈ post.flatMap itemsOf, k ≤ item := by
  induction es generalizing e gs with
  | nil =>
    obtain ⟨g, gs, hg, hgs, rfl⟩ := forall₂_cons_left_iff.mp h
    obtain rfl := forall₂_nil_left_iff.mp hgs
    refine ⟨[], g, [], ?_, rfl, ⟨_, hg, hfirst⟩, by simp, by simp⟩
    simp [partitionPoint, hfirst]
  | cons e' es ih =>
    obtain ⟨g, gs, hg, hgs, rfl⟩ := forall₂_cons_left_iff.mp h
    rw [flatMap_cons, pairwise_append] at hsorted
    obtain ⟨-, hrest, hle⟩ := hsorted
    have hn : partitionPoint (fun e => decide (firstItem e < k)) (e :: e' :: es) =
        partitionPoint (fun e => decide (firstItem e < k)) (e' :: es) + 1 := by
      rw [partitionPoint, takeWhile_cons, decide_eq_true hfirst]
      rfl
    obtain ⟨g', gs', hg', hgs', rfl⟩ := forall₂_cons_left_iff.mp hgs
    have hmem : firstItem e' ∈ (g' :: gs').flatMap itemsOf := by
      rw [flatMap_cons]
      exact mem_append_left _ (mem_of_head? hg')
    by_cases hfirst' : firstItem e' < k
    · obtain ⟨pre, g₁, post, hpre, heq, hhead, hsmall, hlarge⟩ := ih hgs hrest hfirst'
      have hpos : 0 < partitionPoint (fun e => decide (firstItem e < k)) (e' :: es) := by
        rw [partitionPoint, takeWhile_cons, decide_eq_true hfirst']
        exact Nat.succ_pos _
      refine ⟨g :: pre, g₁, post, ?_, ?_, hhead, ?_, hlarge⟩
      · rw [hn, length_cons, ← hpre]
        omega
      · rw [heq, cons_append]
      · intro item hitem
        rw [flatMap_cons] at hitem
        rcases mem_append.mp hitem with hitem | hitem
        · exact (hle item hitem _ hmem).trans_lt hfirst'
        · exact hsmall item hitem
    · refine ⟨[], g, g' :: gs', ?_, rfl, ⟨_, hg, hfirst⟩, by simp, ?_⟩
      · rw [hn, partitionPoint, takeWhile_cons, decide_eq_false hfirst']
        rfl
      · intro item hitem
        have hk : k ≤ firstItem e' := not_lt.mp hfirst'
        obtain ⟨items, hitems⟩ := head?_eq_some_iff.mp hg'
        rw [flatMap_cons, hitems, cons_append] at hrest hitem
        rcases mem_cons.mp hitem with rfl | hitem
        · exact hk
        · exact hk.trans ((pairwise_cons.mp hrest).1 item hitem)

/-! ### The items of a part -/

/-- A header of a part is that of a block with the given items. -/
structure Part.HoldsBlock (z : Zstd) (p : Part) (bh : BlockHeader) (items : List Bytes) : Prop where
  head_eq : items.head? = some bh.firstItem
  read_eq : ∃ cp, p.getInmemoryBlock z bh = .ok ⟨cp, items⟩ ∧ ∀ item ∈ items, cp <+: item

/-- A metaindex row of a part is that of an index block with the given blocks. -/
structure Part.HoldsRow (z : Zstd) (p : Part) (mr : MetaindexRow)
    (blocks : List (List Bytes)) : Prop where
  head_eq : blocks.flatten.head? = some mr.firstItem
  read_eq : ∃ bhs, p.readIndexBlock z mr = .ok bhs ∧ List.Forall₂ (p.HoldsBlock z) bhs blocks

/-- A part is a sorted sequence of items that is cut into blocks and index blocks. -/
structure Part.Holds (z : Zstd) (p : Part) (rows : List (List (List Bytes))) : Prop where
  holdsRow : List.Forall₂ (p.HoldsRow z) p.mrs rows
  sorted : rows.flatten.flatten.Pairwise (· ≤ ·)
  first_eq : rows.flatten.flatten.head? = some p.ph.firstItem
  last_eq : rows.flatten.flatten.getLast? = some p.ph.lastItem

namespace PartSearch

variable {z : Zstd} {p : Part} {rows : List (List (List Bytes))} {ps : PartSearch}

/-- The items that a search reads behind its current block. -/
def Reads (z : Zstd) (rows : List (List (List Bytes))) (ps : PartSearch)
    (later : List Bytes) : Prop :=
  ∃ blocks, List.Forall₂ (ps.p.HoldsBlock z) (ps.bhs.drop ps.bhNext) blocks ∧
    later = blocks.flatten ++ (rows.drop ps.mrNext).flatten.flatten

/-- The items of the current block. -/
def current (ps : PartSearch) : List Bytes := if ps.ibValid then ps.ib.items else []

/-- Where a search stands: behind the items `pre`, in its current block, before the items
`later`. -/
structure Position (z : Zstd) (p : Part) (rows : List (List (List Bytes))) (pre later : List Bytes)
    (ps : PartSearch) : Prop where
  part_eq : ps.p = p
  reads : ps.Reads z rows later
  split : rows.flatten.flatten = pre ++ ps.current ++ later
  common : ∀ item ∈ ps.current, ps.ib.commonPrefix <+: item
  idx_le : ps.ibItemIdx ≤ ps.current.length

/-- The search at the beginning of a block that was read. -/
def atBlock (ps : PartSearch) (ib : InmemoryBlock) : PartSearch :=
  { ps with bhNext := ps.bhNext + 1, ib, ibValid := true, ibItemIdx := 0 }

/-- The next block of the current index block. -/
theorem readNextBlock_spec {bh : BlockHeader} {bhs : List BlockHeader} {items : List Bytes}
    {blocks : List (List Bytes)} (hbhs : ps.bhs.drop ps.bhNext = bh :: bhs)
    (hbh : ps.p.HoldsBlock z bh items) (hrest : List.Forall₂ (ps.p.HoldsBlock z) bhs blocks) :
    ∃ cp, ps.readNextBlock z = .ok (none, ps.atBlock ⟨cp, items⟩) ∧ (∀ item ∈ items, cp <+: item) ∧
      (ps.atBlock ⟨cp, items⟩).Reads z rows
        (blocks.flatten ++ (rows.drop ps.mrNext).flatten.flatten) := by
  obtain ⟨cp, hread, hcp⟩ := hbh.read_eq
  have hget : ps.bhs[ps.bhNext]? = some bh := by
    rw [← head?_drop, hbhs]
    rfl
  refine ⟨cp, ?_, hcp, blocks, ?_, rfl⟩
  · simp only [readNextBlock, hget, index_some, ok_bind, hread]
    rfl
  · change List.Forall₂ _ (ps.bhs.drop (ps.bhNext + 1)) blocks
    rw [← drop_drop, hbhs]
    exact hrest

variable {pre later before : List Bytes} {k : Bytes}

/-- The next block of the current index block is the next one of the part. -/
theorem readNextBlock_position {bh : BlockHeader} {bhs : List BlockHeader}
    {blocks : List (List Bytes)}
    (hbhs : ps.bhs.drop ps.bhNext = bh :: bhs)
    (hblocks : List.Forall₂ (ps.p.HoldsBlock z) (bh :: bhs) blocks)
    (hlater : later = blocks.flatten ++ (rows.drop ps.mrNext).flatten.flatten)
    (hsplit : rows.flatten.flatten = pre ++ later) :
    ∃ ps' items later', ps.readNextBlock z = .ok (none, ps') ∧ items ≠ [] ∧
    later = items ++ later' ∧
      ps'.current = items ∧ ps'.ibValid = true ∧ ps'.ib.items = items ∧ ps'.ibItemIdx = 0 ∧
      ps'.err = ps.err ∧ ps'.Position z ps.p rows pre later' := by
  obtain ⟨items, blocks, hbh, hrest, rfl⟩ := forall₂_cons_left_iff.mp hblocks
  obtain ⟨cp, hread, hcp, hreads⟩ := readNextBlock_spec (z := z) hbhs hbh hrest
  rw [flatten_cons, append_assoc] at hlater
  refine ⟨_, items, _, hread, ?_, hlater, rfl, rfl, rfl, rfl, rfl, rfl, hreads, ?_, hcp,
    Nat.zero_le _⟩
  · rintro rfl
    exact absurd hbh.head_eq (by simp)
  · rw [hsplit, hlater, ← append_assoc]
    rfl

/-- The next block, if there is one: its items are the first of those behind the current block. -/
theorem nextBlock_spec (hp : p.Holds z rows) (h : ps.Position z p rows pre later) :
    (later = [] ∧ ps.nextBlock z = .ok (some .eof, ps)) ∨
    ∃ ps' items later', ps.nextBlock z = .ok (none, ps') ∧ items ≠ [] ∧ later = items ++ later' ∧
      ps'.current = items ∧ ps'.ibValid = true ∧ ps'.ib.items = items ∧ ps'.ibItemIdx = 0 ∧
      ps'.err = ps.err ∧ ps'.Position z p rows (pre ++ ps.current) later' := by
  obtain ⟨hpart, ⟨blocks, hblocks, hlater⟩, hsplit, -, -⟩ := h
  subst hpart
  rw [nextBlock]
  by_cases hle : ps.bhNext ≥ ps.bhs.length
  · -- the current index block is over
    rw [if_pos hle, nextBhs]
    rw [drop_eq_nil_of_le hle] at hblocks
    obtain rfl := forall₂_nil_left_iff.mp hblocks
    rw [flatten_nil, nil_append] at hlater
    have hrows := forall₂_drop ps.mrNext hp.holdsRow
    cases hsome : ps.p.mrs[ps.mrNext]? with
    | none =>
      rw [drop_eq_nil_of_le (getElem?_eq_none_iff.mp hsome)] at hrows
      rw [forall₂_nil_left_iff.mp hrows] at hlater
      exact .inl ⟨hlater, rfl⟩
    | some mr =>
      obtain ⟨hlt, hget⟩ := List.getElem?_eq_some_iff.mp hsome
      rw [drop_eq_getElem_cons hlt, hget] at hrows
      obtain ⟨row, rest, hmr, -, hdrop⟩ := forall₂_cons_left_iff.mp hrows
      obtain ⟨bhs, hread, hbhs⟩ := hmr.read_eq
      have hdrop' : rows.drop (ps.mrNext + 1) = rest := by
        rw [← drop_drop, hdrop]
        rfl
      match bhs, row, hbhs, hmr.head_eq with
      | [], [], .nil, hhead => exact absurd hhead (by simp)
      | bh :: bhs, row, hbhs, _ =>
        have hlater' : later = row.flatten ++ (rows.drop (ps.mrNext + 1)).flatten.flatten := by
          rw [hlater, hdrop, hdrop', flatten_cons, flatten_append]
        set ps₁ : PartSearch :=
          { ps with mrNext := ps.mrNext + 1, bhs := bh :: bhs, bhNext := 0 } with hps₁
        have hbhs₁ : ps₁.bhs.drop ps₁.bhNext = bh :: bhs := rfl
        refine .inr ?_
        simp only [hread, ok_bind, ← hps₁]
        exact readNextBlock_position hbhs₁ hbhs hlater' hsplit
  · rw [if_neg hle]
    rw [not_le] at hle
    have hbhs := drop_eq_getElem_cons hle
    rw [hbhs] at hblocks
    exact .inr (readNextBlock_position hbhs hblocks hlater hsplit)

/-- The items that are left in the current block, and those behind it. -/
def remaining (ps : PartSearch) (later : List Bytes) : List Bytes :=
  ps.current.drop ps.ibItemIdx ++ later

/-- The next item is the first of those that are left. -/
theorem nextItem_spec (hp : p.Holds z rows) (h : ps.Position z p rows pre later)
    (herr : ps.err = none) :
    (ps.remaining later = [] ∧ ps.nextItem z = .ok (false, { ps with err := some .eof })) ∨
    ∃ ps' item pre' later', ps.nextItem z = .ok (true, ps') ∧ ps'.item = item ∧ ps'.err = none ∧
      ps'.Position z p rows pre' later' ∧ ps.remaining later = item :: ps'.remaining later' := by
  rw [nextItem, herr]
  simp only [Option.isSome_none, Bool.false_eq_true, if_false]
  by_cases hlt : ps.ibItemIdx < ps.current.length
  · have hvalid : ps.ibValid = true := by
      by_contra hvalid
      rw [current, if_neg hvalid] at hlt
      exact absurd hlt (by simp)
    have hcur : ps.current = ps.ib.items := if_pos hvalid
    have hlt' : ps.ibItemIdx < ps.ib.items.length := hcur ▸ hlt
    refine .inr ⟨{ ps with curItem := ps.ib.items[ps.ibItemIdx], ibItemIdx := ps.ibItemIdx + 1 },
      ps.ib.items[ps.ibItemIdx], pre, later, ?_, rfl, herr,
      ⟨h.part_eq, h.reads, h.split, h.common, hlt⟩, ?_⟩
    · simp only [hvalid, decide_eq_true hlt', Bool.and_self, if_true, getElem?_eq_getElem hlt',
        index_some, ok_bind, herr]
    · change ps.current.drop ps.ibItemIdx ++ later =
        ps.ib.items[ps.ibItemIdx] :: (ps.current.drop (ps.ibItemIdx + 1) ++ later)
      rw [hcur, drop_eq_getElem_cons hlt', cons_append]
  · have hdrop : ps.current.drop ps.ibItemIdx = [] := drop_eq_nil_of_le (not_lt.mp hlt)
    have hcond : ¬ (ps.ibValid && decide (ps.ibItemIdx < ps.ib.items.length)) = true := by
      rw [Bool.and_eq_true, decide_eq_true_iff]
      rintro ⟨hvalid, hlt'⟩
      rw [current, if_pos hvalid] at hlt
      exact hlt hlt'
    rw [if_neg hcond, remaining, hdrop, nil_append]
    rcases nextBlock_spec hp h with ⟨hnil, hnext⟩ | ⟨ps', items, later', hnext, hne, hlater,
      hcur, hvalid, hitems, hidx, herr', hpos⟩
    · exact .inl ⟨hnil, by simp only [hnext, ok_bind]⟩
    · obtain ⟨first, rest, rfl⟩ := exists_cons_of_ne_nil hne
      refine .inr ⟨{ ps' with curItem := first, ibItemIdx := 1 }, first, pre ++ ps.current,
        later', ?_, rfl,
        herr'.trans herr, ⟨hpos.part_eq, hpos.reads, hpos.split, hpos.common, ?_⟩, ?_⟩
      · simp only [hnext, ok_bind, hitems, head?_cons, index_some]
      · change 1 ≤ ps'.current.length
        rw [hcur]
        exact Nat.succ_le_succ (Nat.zero_le _)
      · change later = first :: (ps'.current.drop 1 ++ later')
        rw [hlater, hcur]
        rfl

/-- A search gives the items that are left. -/
theorem delivers_remaining (hp : p.Holds z rows) (h : ps.Position z p rows pre later)
    (herr : ps.err = none) : (asSource z).Delivers ps (ps.remaining later) := by
  generalize hrem : ps.remaining later = rem
  induction rem generalizing ps pre later with
  | nil =>
    rcases nextItem_spec hp h herr with ⟨-, hnext⟩ | ⟨ps', item, pre', later', -, -, -, -, hcons⟩
    · exact ⟨_, hnext, rfl⟩
    · rw [hrem] at hcons
      cases hcons
  | cons item rem ih =>
    rcases nextItem_spec hp h herr with ⟨hnil, -⟩ | ⟨ps', item', pre', later', hnext, hitem,
      herr', hpos, hcons⟩
    · rw [hrem] at hnil
      cases hnil
    · rw [hrem] at hcons
      obtain ⟨rfl, hrem'⟩ := List.cons.inj hcons
      exact ⟨ps', hnext, hitem, ih hpos herr' hrem'.symm⟩

/-- A search that may be continued: it stands somewhere in its part, and has not failed. -/
structure Stands (z : Zstd) (p : Part) (rows : List (List (List Bytes)))
    (ps : PartSearch) : Prop where
  error_eq : ps.error = none
  position : ∃ pre later, ps.Position z p rows pre later

theorem Stands.nextItem (hp : p.Holds z rows) (h : ps.Stands z p rows) {has : Bool}
    {ps' : PartSearch}
    (hnext : ps.nextItem z = .ok (has, ps')) : ps'.Stands z p rows := by
  obtain ⟨pre, later, hpos⟩ := h.position
  cases herr : ps.err with
  | some err =>
    rw [PartSearch.nextItem, herr] at hnext
    obtain ⟨-, rfl⟩ := Prod.mk.inj (Outcome.ok.inj hnext)
    exact h
  | none =>
    rcases nextItem_spec hp hpos herr with ⟨-, hnext'⟩ | ⟨ps₁, item, pre', later', hnext', -,
      herr', hpos', -⟩
    · rw [hnext'] at hnext
      obtain ⟨-, rfl⟩ := Prod.mk.inj (Outcome.ok.inj hnext)
      exact ⟨rfl, pre, later, hpos.part_eq, hpos.reads, hpos.split, hpos.common, hpos.idx_le⟩
    · rw [hnext'] at hnext
      obtain ⟨-, rfl⟩ := Prod.mk.inj (Outcome.ok.inj hnext)
      exact ⟨by rw [error, herr'], pre', later', hpos'⟩

theorem Stands.exists_nextItem (hp : p.Holds z rows) (h : ps.Stands z p rows) :
    ∃ has ps', ps.nextItem z = .ok (has, ps') ∧ ps'.error = none := by
  obtain ⟨pre, later, hpos⟩ := h.position
  cases herr : ps.err with
  | some err =>
    refine ⟨false, ps, ?_, h.error_eq⟩
    rw [PartSearch.nextItem, herr]
    rfl
  | none =>
    rcases nextItem_spec hp hpos herr with ⟨-, hnext⟩ | ⟨ps', item, pre', later', hnext, -,
      herr', -, -⟩
    · exact ⟨false, _, hnext, rfl⟩
    · exact ⟨true, ps', hnext, by rw [error, herr']⟩

theorem stands_new (z : Zstd) {p : Part} {rows : List (List (List Bytes))} :
    (new p).Stands z p rows :=
  ⟨rfl, [], rows.flatten.flatten, rfl, ⟨[], .nil, rfl⟩, rfl, by simp [current, new], le_rfl⟩

/-! ### Seek -/

/-- The items of a search for `k`: a tail of all items, with those that are at least `k` and no
others. -/
structure TailFrom (k : Bytes) (all rem : List Bytes) : Prop where
  isSuffix : rem <:+ all
  le : ∀ item ∈ rem, k ≤ item
  mem : ∀ item ∈ all, k ≤ item → item ∈ rem

/-- A tail of sorted items may begin behind some of the items that are equal to `k`, if it has
one. -/
theorem tailFrom_append {rem : List Bytes} (hle : ∀ item ∈ rem, k ≤ item)
    (hbefore : ∀ item ∈ before, item ≤ k)
    (hmem : k ∈ before → k ∈ rem) :
    TailFrom k (before ++ rem) rem := by
  refine ⟨suffix_append before rem, hle, fun item hitem hk => ?_⟩
  rcases mem_append.mp hitem with hitem | hitem
  · obtain rfl : item = k := le_antisymm (hbefore item hitem) hk
    exact hmem hitem
  · exact hitem

theorem tailFrom_append_of_lt {rem : List Bytes} (hle : ∀ item ∈ rem, k ≤ item)
    (hbefore : ∀ item ∈ before, item < k) : TailFrom k (before ++ rem) rem :=
  tailFrom_append hle (fun item hitem => (hbefore item hitem).le)
    fun hk => absurd (hbefore k hk) (lt_irrefl k)

/-- A search after `seek`: it has ended, or it stands before the items that are at least `k`. -/
def Sought (z : Zstd) (p : Part) (rows : List (List (List Bytes))) (k : Bytes)
    (ps : PartSearch) : Prop :=
  ∃ pre later, ps.Position z p rows pre later ∧
    ((ps.err = some .eof ∧ TailFrom k rows.flatten.flatten []) ∨
      (ps.err = none ∧ TailFrom k rows.flatten.flatten (ps.remaining later)))

/-- Going to the next block for the items behind the current one. -/
theorem nextBlockOrErr_spec (hp : p.Holds z rows) (h : ps.Position z p rows pre later)
    (herr : ps.err = none)
    (htail : TailFrom k rows.flatten.flatten later) :
    ∃ ps', ps.nextBlockOrErr z = .ok ps' ∧ ps'.Sought z p rows k := by
  rcases nextBlock_spec hp h with ⟨rfl, hnext⟩ | ⟨ps', items, later', hnext, -, rfl,
    hcur, -, -, hidx, herr', hpos⟩
  · refine ⟨{ ps with err := some .eof }, ?_, pre, [],
      ⟨h.part_eq, h.reads, h.split, h.common, h.idx_le⟩, .inl ⟨rfl, htail⟩⟩
    simp only [nextBlockOrErr, hnext, ok_bind]
  · refine ⟨ps', ?_, _, later', hpos, .inr ⟨herr'.trans herr, ?_⟩⟩
    · simp only [nextBlockOrErr, hnext, ok_bind]
    · rwa [remaining, hcur, hidx, drop_zero]

/-- The key is looked up in a window of the current block that has an item which is at most `k`. -/
theorem sought_of_window {c : Bytes} {window behind : List Bytes}
    (hsorted : rows.flatten.flatten.Pairwise (· ≤ ·)) (h : ps.Position z p rows pre later)
    (herr : ps.err = none) (hcur : ps.current = before ++ (window ++ behind)) (hc : c ∈ window)
    (hck : c ≤ k)
    (hbefore : ∀ item ∈ pre ++ before, item ≤ c) (hbehind : ∀ item ∈ behind ++ later, k ≤ item) :
    Sought z p rows k { ps with ibItemIdx :=
      before.length + binarySearchKey window k (commonPrefixLen ps.ib.commonPrefix k) } := by
  have hwindow : window.Sublist rows.flatten.flatten := by
    rw [h.split, hcur]
    refine Sublist.trans ?_ (sublist_append_left _ later)
    refine Sublist.trans ?_ (sublist_append_right pre _)
    exact (sublist_append_left window behind).trans (sublist_append_right before _)
  have hcommon : ∀ item ∈ window, ps.ib.commonPrefix <+: item := by
    intro item hitem
    refine h.common item ?_
    rw [hcur]
    exact mem_append_right _ (mem_append_left _ hitem)
  obtain ⟨hle, hsmall, hlarge⟩ := binarySearchKey_spec hcommon (hsorted.sublist hwindow)
  set i := binarySearchKey window k (commonPrefixLen ps.ib.commonPrefix k) with hi
  have htake : ps.current = (before ++ window.take i) ++ (window.drop i ++ behind) := by
    rw [hcur, append_assoc, ← append_assoc (window.take i), take_append_drop]
  have hlen : (before ++ window.take i).length = before.length + i := by
    rw [length_append, length_take_of_le hle]
  have hdrop : ps.current.drop (before.length + i) = window.drop i ++ behind := by
    rw [htake, ← hlen, drop_left]
  refine ⟨pre, later, ⟨h.part_eq, h.reads, h.split, h.common, ?_⟩, .inr ⟨herr, ?_⟩⟩
  · change before.length + i ≤ ps.current.length
    rw [hcur, length_append, length_append]
    omega
  · change TailFrom k _ (ps.current.drop (before.length + i) ++ later)
    have hall : rows.flatten.flatten =
        (pre ++ (before ++ window.take i)) ++ ((window.drop i ++ behind) ++ later) := by
      rw [h.split, htake]
      simp only [append_assoc]
    rw [hdrop, hall]
    refine tailFrom_append ?_ ?_ ?_
    · intro item hitem
      rw [append_assoc] at hitem
      rcases mem_append.mp hitem with hitem | hitem
      · exact hlarge item hitem
      · exact hbehind item hitem
    · intro item hitem
      rw [← append_assoc] at hitem
      rcases mem_append.mp hitem with hitem | hitem
      · exact (hbefore item hitem).trans hck
      · exact (hsmall item hitem).le
    · intro hk
      rw [← append_assoc] at hk
      rcases mem_append.mp hk with hk | hk
      · -- an item before the window is equal to `k` only if `c` is, and then `c` stays
        obtain rfl : c = k := le_antisymm hck (hbefore k hk)
        rw [← take_append_drop i window] at hc
        rcases mem_append.mp hc with hc | hc
        · exact absurd (hsmall c hc) (lt_irrefl c)
        · exact mem_append_left _ (mem_append_left _ hc)
      · exact absurd (hsmall k hk) (lt_irrefl k)

/-- The key is in the current block. -/
theorem tryFastSeek_spec (hsorted : rows.flatten.flatten.Pairwise (· ≤ ·))
    (h : ps.Position z p rows pre later)
    (herr : ps.err = none) {ps' : PartSearch} (hseek : ps.tryFastSeek k = some ps') :
    ps'.Sought z p rows k := by
  rw [tryFastSeek] at hseek
  simp only [Bool.or_eq_true, Bool.not_eq_true', decide_eq_true_iff] at hseek
  by_cases hcond : ps.ibValid = false ∨ ps.ibItemIdx ≥ ps.ib.items.length
  · rw [if_pos hcond] at hseek
    cases hseek
  rw [if_neg hcond] at hseek
  rw [not_or, Bool.not_eq_false, not_le] at hcond
  obtain ⟨hvalid, hlt⟩ := hcond
  have hcur : ps.current = ps.ib.items := if_pos hvalid
  have hcommon := h.common
  have hsplit := hsorted
  rw [hcur] at hcommon
  rw [h.split, hcur, pairwise_append, pairwise_append] at hsplit
  obtain ⟨⟨-, hitems, hpre⟩, -, hlater⟩ := hsplit
  have hne : ps.ib.items ≠ [] := ne_nil_of_length_pos (by omega)
  by_cases hlast : k.drop (commonPrefixLen ps.ib.commonPrefix k) >
      (ps.ib.items.getLastD []).drop (commonPrefixLen ps.ib.commonPrefix k)
  · rw [if_pos hlast] at hseek
    cases hseek
  rw [if_neg hlast] at hseek
  have hkLast : k ≤ ps.ib.items.getLast hne := by
    rw [getLastD_eq_getLast?, getLast?_eq_some_getLast hne] at hlast
    exact (drop_commonPrefixLen_le_iff k (hcommon _ (getLast_mem hne))).mp (not_lt.mp hlast)
  have hkLater : ∀ item ∈ later, k ≤ item := fun item hitem =>
    hkLast.trans (hlater _ (mem_append_right pre (getLast_mem hne)) item hitem)
  set idx := ps.ibItemIdx - 1 with hidx
  have hidxLt : idx < ps.ib.items.length := by omega
  have hsuffix := drop_eq_getElem_cons hidxLt
  have hmem := getElem_mem hidxLt
  have hprevSorted := hitems.sublist (drop_sublist idx ps.ib.items)
  rw [getD_eq_getElem _ _ hidxLt] at hseek
  simp only [lt_drop_commonPrefixLen_iff k (hcommon _ hmem)] at hseek
  split_ifs at hseek with hk
  · -- the key is smaller than the item before the current one
    rw [hsuffix] at hprevSorted
    cases hwindow : ps.ib.items.take idx with
    | nil =>
      rw [hwindow] at hseek
      cases hseek
    | cons first window =>
      have hfirstMem : first ∈ ps.ib.items :=
        (take_sublist idx ps.ib.items).subset (hwindow ▸ mem_cons_self)
      simp only [hwindow, lt_drop_commonPrefixLen_iff k (hcommon first hfirstMem)] at hseek
      split_ifs at hseek with hfirst
      obtain rfl := Option.some.inj hseek
      have hcur' : ps.current = [] ++ ((first :: window) ++ ps.ib.items.drop idx) := by
        rw [hcur, ← hwindow, take_append_drop, nil_append]
      have hsought := sought_of_window hsorted h herr hcur' mem_cons_self (not_lt.mp hfirst)
        (fun item hitem => hpre item (by simpa using hitem) first hfirstMem) (fun item hitem => by
          rcases mem_append.mp hitem with hitem | hitem
          · rw [hsuffix] at hitem
            rcases mem_cons.mp hitem with rfl | hitem
            · exact hk.le
            · exact hk.le.trans ((pairwise_cons.mp hprevSorted).1 item hitem)
          · exact hkLater item hitem)
      rwa [length_nil, Nat.zero_add] at hsought
  · -- the key is not smaller, and it is looked up from there on
    obtain rfl := Option.some.inj hseek
    have hcur' : ps.current = ps.ib.items.take idx ++ (ps.ib.items.drop idx ++ []) := by
      rw [hcur, append_nil, take_append_drop]
    have hc : ps.ib.items[idx] ∈ ps.ib.items.drop idx := hsuffix ▸ mem_cons_self
    have htake := hitems
    rw [← take_append_drop idx ps.ib.items, pairwise_append] at htake
    have hsought := sought_of_window hsorted h herr hcur' hc (not_lt.mp hk) (fun item hitem => by
        rcases mem_append.mp hitem with hitem | hitem
        · exact hpre item hitem _ hmem
        · exact htake.2.2 item hitem _ hc) hkLater
    rwa [length_take_of_le hidxLt.le] at hsought

/-- The key is looked up in an index block: the items of the index blocks before it are smaller,
those of the index blocks behind it are not. -/
theorem seekInIndexBlock_spec (hp : p.Holds z rows) {c : Bytes}
    {preRows postRows : List (List (List Bytes))}
    {row : List (List Bytes)} (hpart : ps.p = p) (hrows : rows = preRows ++ row :: postRows)
    (hmrNext : ps.mrNext = preRows.length + 1) (hbhs : List.Forall₂ (p.HoldsBlock z) ps.bhs row)
    (herr : ps.err = none) (hhead : row.flatten.head? = some c) (hc : c < k)
    (hsmall : ∀ item ∈ preRows.flatten.flatten, item < k)
    (hlarge : ∀ item ∈ postRows.flatten.flatten, k ≤ item) :
    ∃ ps', ps.seekInIndexBlock z k = .ok ps' ∧ ps'.Sought z p rows k := by
  subst hpart
  have hall : rows.flatten.flatten = preRows.flatten.flatten ++
      (row.flatten ++ postRows.flatten.flatten) := by
    rw [hrows]
    simp
  have hsorted := hp.sorted
  rw [hall, pairwise_append, pairwise_append] at hsorted
  have hrowSorted : (row.flatMap id).Pairwise (· ≤ ·) := by
    rw [flatMap_id]
    exact hsorted.2.1.1
  obtain ⟨bh, bhs, hbhsEq⟩ : ∃ bh bhs, ps.bhs = bh :: bhs := by
    match hlist : ps.bhs, row, hbhs with
    | [], [], _ => exact absurd hhead (by simp)
    | bh :: bhs, _, _ => exact ⟨bh, bhs, rfl⟩
  have hheads : List.Forall₂ (fun (bh : BlockHeader) items => (id items).head? = some bh.firstItem)
      (bh :: bhs) row := by
    rw [← hbhsEq]
    exact hbhs.imp fun _ _ h => h.head_eq
  have hfirst : bh.firstItem < k := by
    obtain ⟨items, blocks, hitems, -, rfl⟩ := forall₂_cons_left_iff.mp hheads
    have hitems' : items.head? = some bh.firstItem := hitems
    rw [flatten_cons, head?_append, hitems'] at hhead
    obtain rfl : bh.firstItem = c := Option.some.inj hhead
    exact hc
  obtain ⟨preBlocks, items, postBlocks, hn, hrow, -, hsmallB, hlargeB⟩ :=
    exists_group hheads hrowSorted hfirst
  rw [flatMap_id] at hsmallB hlargeB
  -- the block that may hold the key is read
  set ps₁ : PartSearch := { ps with bhNext := preBlocks.length } with hps₁
  have hdropB : List.Forall₂ (ps.p.HoldsBlock z) (ps.bhs.drop preBlocks.length)
      (items :: postBlocks) := by
    have h := forall₂_drop preBlocks.length hbhs
    rwa [hrow, drop_left] at h
  obtain ⟨bh', bhs', hbh', hbhs', hdropEq⟩ := forall₂_cons_right_iff.mp hdropB
  have hdropEq₁ : ps₁.bhs.drop ps₁.bhNext = bh' :: bhs' := hdropEq
  obtain ⟨cp, hread, hcp, hreads⟩ := readNextBlock_spec hdropEq₁ hbh' hbhs'
  have hnext : ps₁.nextBlock z = .ok (none, ps₁.atBlock ⟨cp, items⟩) := by
    have hlt : ¬ ps₁.bhNext ≥ ps₁.bhs.length := by
      intro hle
      rw [drop_eq_nil_of_le hle] at hdropEq₁
      cases hdropEq₁
    rw [nextBlock, if_neg hlt, hread]
  set later := postBlocks.flatten ++ (rows.drop ps₁.mrNext).flatten.flatten with hlater
  have hlaterEq : later = postBlocks.flatten ++ postRows.flatten.flatten := by
    have hdrop : rows.drop (preRows.length + 1) = postRows := by
      rw [hrows, ← drop_drop, drop_left, drop_one, tail_cons]
    rw [hlater, ← hdrop, ← hmrNext]
  have hsplit : rows.flatten.flatten =
      (preRows.flatten.flatten ++ preBlocks.flatten) ++ items ++ later := by
    rw [hall, hrow, hlaterEq]
    simp only [flatten_append, flatten_cons, append_assoc]
  have hsmallAll : ∀ item ∈ preRows.flatten.flatten ++ preBlocks.flatten, item < k := by
    intro item hitem
    rcases mem_append.mp hitem with hitem | hitem
    · exact hsmall item hitem
    · exact hsmallB item hitem
  have hlargeAll : ∀ item ∈ later, k ≤ item := by
    intro item hitem
    rw [hlaterEq] at hitem
    rcases mem_append.mp hitem with hitem | hitem
    · exact hlargeB item hitem
    · exact hlarge item hitem
  -- and the key is looked up in the block
  have hitems : items.Pairwise (· ≤ ·) := by
    have h := hp.sorted
    rw [hsplit, pairwise_append, pairwise_append] at h
    exact h.1.2.1
  obtain ⟨hle, hsmallI, hlargeI⟩ := binarySearchKey_spec hcp hitems (k := k)
  set i := binarySearchKey items k (commonPrefixLen cp k) with hi
  set ps₂ : PartSearch := { ps₁.atBlock ⟨cp, items⟩ with ibItemIdx := i } with hps₂
  have hpos : ps₂.Position z ps.p rows (preRows.flatten.flatten ++ preBlocks.flatten) later :=
    ⟨rfl, hreads, hsplit, hcp, hle⟩
  have hseek : ps.seekInIndexBlock z k =
      if i < items.length then .ok ps₂ else ps₂.nextBlockOrErr z := by
    have hbhNext : partitionPoint (fun bh : BlockHeader => decide (bh.firstItem < k)) ps.bhs - 1 =
        preBlocks.length := by
      rw [hbhsEq]
      exact hn
    simp only [seekInIndexBlock, hbhNext, ← hps₁, hnext, ok_bind]
    rfl
  have htake : rows.flatten.flatten =
      ((preRows.flatten.flatten ++ preBlocks.flatten) ++ items.take i) ++
      (items.drop i ++ later) := by
    rw [hsplit, append_assoc _ (items.take i), ← append_assoc (items.take i),
      take_append_drop, append_assoc _ items]
  have htail : TailFrom k rows.flatten.flatten (items.drop i ++ later) := by
    rw [htake]
    refine tailFrom_append_of_lt (fun item hitem => ?_) (fun item hitem => ?_)
    · rcases mem_append.mp hitem with hitem | hitem
      · exact hlargeI item hitem
      · exact hlargeAll item hitem
    · rcases mem_append.mp hitem with hitem | hitem
      · exact hsmallAll item hitem
      · exact hsmallI item hitem
  rw [hseek]
  split_ifs with hlt
  · exact ⟨ps₂, rfl, _, later, hpos, .inr ⟨herr, htail⟩⟩
  · rw [drop_eq_nil_of_le (not_lt.mp hlt), nil_append] at htail
    exact nextBlockOrErr_spec hp hpos herr htail

/-- The search after the position was given up. -/
theorem position_restart (hpart : ps.p = p) :
    Position z p rows [] rows.flatten.flatten
      { ps with
        err := none, mrNext := 0, bhNext := ps.bhs.length, ibValid := false, ibItemIdx := 0 } where
  part_eq := hpart
  reads := ⟨[], by rw [drop_length]; exact .nil, rfl⟩
  split := rfl
  common := by simp [current]
  idx_le := Nat.zero_le _

/-- **Seek.** Wherever a search stands, it goes to the items that are at least `k`. -/
theorem seek_spec (hp : p.Holds z rows) (h : ps.Stands z p rows) (k : Bytes) :
    ∃ ps', ps.seek z k = .ok ps' ∧ ps'.Sought z p rows k := by
  obtain ⟨herror, pre, later, hpos⟩ := h
  obtain rfl := hpos.part_eq
  have hpos' : Position z ps.p rows pre later { ps with err := none } :=
    ⟨rfl, hpos.reads, hpos.split, hpos.common, hpos.idx_le⟩
  have hnone : ¬ ps.error.isSome := by simp [herror]
  obtain ⟨init, hinit⟩ := getLast?_eq_some_iff.mp hp.last_eq
  obtain ⟨rest, hrest⟩ := head?_eq_some_iff.mp hp.first_eq
  have hsorted := hp.sorted
  rw [seek, if_neg hnone]
  by_cases hlast : k > ps.p.ph.lastItem
  · -- no item of the part is large enough
    refine ⟨{ ps with err := some .eof }, by simp only [if_pos hlast], pre, later,
      ⟨rfl, hpos.reads, hpos.split, hpos.common, hpos.idx_le⟩, .inl ⟨rfl, ?_⟩⟩
    rw [← append_nil rows.flatten.flatten]
    refine tailFrom_append_of_lt (by simp) fun item hitem => lt_of_le_of_lt ?_ hlast
    rw [hinit] at hitem hsorted
    rcases mem_append.mp hitem with hitem | hitem
    · exact (pairwise_append.mp hsorted).2.2 item hitem _ (mem_singleton_self _)
    · exact (mem_singleton.mp hitem).le
  simp only [if_neg hlast]
  cases hfast : tryFastSeek { ps with err := none } k with
  | some ps' => exact ⟨ps', rfl, tryFastSeek_spec hp.sorted hpos' rfl hfast⟩
  | none =>
    have hrestart : Position z ps.p rows [] rows.flatten.flatten
      { ps with
        err := none, mrNext := 0, bhNext := ps.bhs.length, ibValid := false, ibItemIdx := 0 } :=
      position_restart rfl
    simp only
    by_cases hfirst : k ≤ ps.p.ph.firstItem
    · -- all items of the part are large enough
      rw [if_pos hfirst]
      refine nextBlockOrErr_spec hp hrestart rfl ⟨suffix_rfl, fun item hitem => ?_, fun _ h _ => h⟩
      rw [hrest] at hitem hsorted
      rcases mem_cons.mp hitem with rfl | hitem
      · exact hfirst
      · exact hfirst.trans ((pairwise_cons.mp hsorted).1 item hitem)
    · rw [if_neg hfirst]
      rw [not_le] at hfirst
      have hheads : List.Forall₂ (fun (mr : MetaindexRow) row =>
          row.flatten.head? = some mr.firstItem)
          ps.p.mrs rows := hp.holdsRow.imp fun _ _ h => h.head_eq
      have hflat : rows.flatMap List.flatten = rows.flatten.flatten := by
        rw [flatten_flatten, flatMap_def]
      obtain ⟨mr, mrs, hmrs⟩ : ∃ mr mrs, ps.p.mrs = mr :: mrs := by
        match hlist : ps.p.mrs, rows, hheads with
        | [], [], _ => exact absurd hp.first_eq (by simp)
        | mr :: mrs, _, _ => exact ⟨mr, mrs, rfl⟩
      have hmr : mr.firstItem < k := by
        rw [hmrs] at hheads
        obtain ⟨row, rows', hrow, -, rfl⟩ := forall₂_cons_left_iff.mp hheads
        have hhead := hp.first_eq
        rw [flatten_cons, flatten_append, head?_append, hrow] at hhead
        obtain heq : mr.firstItem = ps.p.ph.firstItem := Option.some.inj hhead
        rwa [heq]
      rw [hmrs] at hheads
      obtain ⟨preRows, row, postRows, hn, hrows, ⟨c, hhead, hc⟩, hsmall, hlarge⟩ :=
        exists_group hheads (hflat ▸ hp.sorted) hmr
      rw [flatMap_def, ← flatten_flatten] at hsmall hlarge
      -- the index block that may hold the key is read
      obtain ⟨mr', bhs, hget, hread, hbhs⟩ : ∃ mr' bhs, ps.p.mrs[preRows.length]? = some mr' ∧
          ps.p.readIndexBlock z mr' = .ok bhs ∧ List.Forall₂ (ps.p.HoldsBlock z) bhs row := by
        have hdrop := forall₂_drop preRows.length hp.holdsRow
        rw [hrows, drop_left] at hdrop
        obtain ⟨mr', mrs', hmr', -, heq⟩ := forall₂_cons_right_iff.mp hdrop
        obtain ⟨bhs, hread, hbhs⟩ := hmr'.read_eq
        refine ⟨mr', bhs, ?_, hread, hbhs⟩
        rw [← head?_drop, heq]
        rfl
      have hassert : Outcome.assert (ps.p.mrs ≠ [])
          "BUG: part without metaindex rows passed to PartSearch" = .ok () :=
        assert_of (by rw [hmrs]; exact cons_ne_nil _ _) _
      have hmrNext : partitionPoint (fun mr : MetaindexRow => decide (mr.firstItem < k))
          ps.p.mrs - 1 = preRows.length := by
        rw [hmrs]
        exact hn
      set ps₁ : PartSearch := { ps with
        err := none, mrNext := preRows.length + 1, bhs, bhNext := 0, ibValid := false,
        ibItemIdx := 0 } with hps₁
      obtain ⟨ps', hseek, hsought⟩ :
          ∃ ps', ps₁.seekInIndexBlock z k = .ok ps' ∧ ps'.Sought z ps.p rows k :=
        seekInIndexBlock_spec hp rfl hrows rfl hbhs rfl hhead hc hsmall hlarge
      refine ⟨ps', ?_, hsought⟩
      simp only [hassert, ok_bind, hmrNext, nextBhs, hget, hread]
      exact hseek

/-- A search after `seek` gives a tail of the items of its part, and may be continued. -/
theorem Sought.delivers (hp : p.Holds z rows) (h : ps.Sought z p rows k) :
    ps.Stands z p rows ∧ ∃ rem, (asSource z).Delivers ps rem ∧
    TailFrom k rows.flatten.flatten rem := by
  obtain ⟨pre, later, hpos, ⟨herr, htail⟩ | ⟨herr, htail⟩⟩ := h
  · refine ⟨⟨by rw [error, herr], pre, later, hpos⟩, [], ⟨ps, ?_, ?_⟩, htail⟩
    · change ps.nextItem z = .ok (false, ps)
      rw [nextItem, herr]
      rfl
    · change ps.error = none
      rw [error, herr]
  · exact ⟨⟨by rw [error, herr], pre, later, hpos⟩, _, delivers_remaining hp hpos herr, htail⟩

end PartSearch

end Esmetrics.Mergeset
