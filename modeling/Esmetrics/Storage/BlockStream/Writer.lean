import Esmetrics.Storage.Dedup
import Esmetrics.Storage.Part

/-!
# Writing a part

Model of `esm-storage/src/block_stream/writer.rs` over in-memory buffers: blocks are packed and
appended to the timestamps and values files, their headers are collected in index blocks, and
every index block gets a metaindex row. A block whose packed timestamps are those of the block
before it is not stored again; its header points to the earlier ones.

What the writer leaves behind is described by `IsLayoutOf`: the headers are cut into index blocks,
and a cursor over the data files (`DataCursor`) says where each header must point. Writing a list
of blocks gives a part with such a layout (`exists_writePart`).
-/

namespace Esmetrics

open List

/-- A writer of the four files of an in-memory part. -/
structure BlockStreamWriter where
  compressLevel : ℤ
  timestampsWriter : Bytes
  valuesWriter : Bytes
  indexWriter : Bytes
  metaindexWriter : Bytes
  /-- The metaindex row of the index block that is being filled. -/
  mr : MetaindexRow
  timestampsBlockOffset : UInt64
  valuesBlockOffset : UInt64
  indexBlockOffset : UInt64
  /-- The headers of the index block that is being filled. -/
  indexData : Bytes
  metaindexData : Bytes
  /-- The packed timestamps that were stored last. -/
  prevTimestampsData : Bytes
  prevTimestampsBlockOffset : UInt64
  deriving DecidableEq, Repr

/-- Counts a written block. -/
def updatePartHeader (b : Block) (ph : PartHeader) : PartHeader :=
  let ph := { ph with blocksCount := ph.blocksCount + 1 }
  let ph := { ph with rowsCount := ph.rowsCount + b.bh.rowsCount.toNat }
  let ph := if b.bh.minTimestamp < ph.minTimestamp then
    { ph with minTimestamp := b.bh.minTimestamp } else ph
  if b.bh.maxTimestamp > ph.maxTimestamp then
    { ph with maxTimestamp := b.bh.maxTimestamp } else ph

namespace BlockStreamWriter

/-- A writer that produces an in-memory part. -/
def newInmemoryPart (compressLevel : ℤ) : BlockStreamWriter :=
  ⟨compressLevel, [], [], [], [], default, 0, 0, 0, [], [], [], 0⟩

variable (z : Zstd)

/-- Closes the current index block and adds its metaindex row. -/
def flushIndexData (w : BlockStreamWriter) : Outcome BlockStreamWriter := do
  if w.indexData = [] then .ok w
  else
    let compressedIndexData := compressZstdLevel z [] w.indexData w.compressLevel
    let indexBlockSize := compressedIndexData.length
    Outcome.assert (indexBlockSize < 2 ^ 32)
      s!"BUG: indexBlock size must fit uint32; got {indexBlockSize}"
    let mr : MetaindexRow :=
      { w.mr with
        indexBlockOffset := w.indexBlockOffset, indexBlockSize := UInt32.ofNat indexBlockSize }
    .ok { w with
      indexWriter := w.indexWriter ++ compressedIndexData
      metaindexData := mr.marshal w.metaindexData
      indexBlockOffset := w.indexBlockOffset + UInt64.ofNat indexBlockSize
      indexData := []
      mr := default }

/-- Appends a packed block to the files, its timestamps unless they are stored already. -/
def appendPacked (w : BlockStreamWriter) (b : Block) (usePrevTimestamps : Bool) :
    BlockStreamWriter :=
  let w := { w with indexData := w.indexData ++ b.headerData }
  let w := if usePrevTimestamps then w
    else
      { w with
        prevTimestampsData := b.timestampsData
        prevTimestampsBlockOffset := w.timestampsBlockOffset
        timestampsWriter := w.timestampsWriter ++ b.timestampsData
        timestampsBlockOffset := w.timestampsBlockOffset + UInt64.ofNat b.timestampsData.length }
  { w with
    valuesWriter := w.valuesWriter ++ b.valuesData
    valuesBlockOffset := w.valuesBlockOffset + UInt64.ofNat b.valuesData.length
    mr := w.mr.registerBlockHeader b.bh }

/-- Writes `b`; returns the writer, the packed block, the part header and the number of merged
rows. -/
def writeExternalBlock (dedupInterval : Int64) (w : BlockStreamWriter) (b : Block)
    (ph : PartHeader) (rowsMerged : ℕ) : Outcome (BlockStreamWriter × Block × PartHeader × ℕ) := do
  let rowsMerged := rowsMerged + b.pendingRowsCount
  let b ← b.deduplicateSamplesDuringMerge z dedupInterval
  -- the first pass only tells whether the timestamps are the previous ones
  let b ← b.marshalData z w.timestampsBlockOffset w.valuesBlockOffset
  let usePrevTimestamps : Bool :=
    w.prevTimestampsData ≠ [] ∧ b.timestampsData = w.prevTimestampsData
  let timestampsBlockOffset :=
    if usePrevTimestamps then w.prevTimestampsBlockOffset else w.timestampsBlockOffset
  let b ← b.marshalData z timestampsBlockOffset w.valuesBlockOffset
  let w ← (if w.indexData.length + b.headerData.length > maxBlockSize then w.flushIndexData z
    else .ok w)
  .ok (w.appendPacked b usePrevTimestamps, b, updatePartHeader b ph, rowsMerged)

/-- Closes the writer; returns the timestamps, values, index and metaindex files. -/
def mustClose (w : BlockStreamWriter) : Outcome (Bytes × Bytes × Bytes × Bytes) := do
  let w ← w.flushIndexData z
  let compressedMetaindexData := compressZstdLevel z [] w.metaindexData w.compressLevel
  .ok (w.timestampsWriter, w.valuesWriter, w.indexWriter,
    w.metaindexWriter ++ compressedMetaindexData)

/-- Writes the blocks one by one. -/
def writeExternalBlocks (dedupInterval : Int64) (w : BlockStreamWriter) (ph : PartHeader)
    (rowsMerged : ℕ) : List Block → Outcome (BlockStreamWriter × PartHeader × ℕ)
  | [] => .ok (w, ph, rowsMerged)
  | b :: bs => do
    let (w, _, ph, rowsMerged) ← w.writeExternalBlock z dedupInterval b ph rowsMerged
    writeExternalBlocks dedupInterval w ph rowsMerged bs

end BlockStreamWriter

/-- An in-memory part of the given blocks. -/
def writePart (z : Zstd) (dedupInterval : Int64) (compressLevel : ℤ) (bs : List Block) :
    Outcome InmemoryPart := do
  let (w, ph, _) ← (BlockStreamWriter.newInmemoryPart compressLevel).writeExternalBlocks z
    dedupInterval default 0 bs
  let (timestampsData, valuesData, indexData, metaindexData) ← w.mustClose z
  .ok ⟨ph, timestampsData, valuesData, indexData, metaindexData⟩

/-! ### The layout of a part -/

/-- Where the next data goes, and the packed timestamps that were stored last. -/
structure DataCursor where
  timestampsOffset : UInt64
  valuesOffset : UInt64
  prevTimestampsOffset : UInt64
  prevTimestampsData : Bytes

namespace DataCursor

/-- The beginning of the data files. -/
def start : DataCursor := ⟨0, 0, 0, []⟩

/-- The packed block has the timestamps that were stored last. -/
def shares (c : DataCursor) (p : Block) : Bool :=
  c.prevTimestampsData ≠ [] ∧ p.timestampsData = c.prevTimestampsData

/-- What is added to the timestamps file for `p`. -/
def stored (c : DataCursor) (p : Block) : Bytes := if c.shares p then [] else p.timestampsData

/-- The cursor behind the data of `p`. -/
def next (c : DataCursor) (p : Block) : DataCursor :=
  let valuesOffset := c.valuesOffset + UInt64.ofNat p.valuesData.length
  if c.shares p then { c with valuesOffset }
  else
    ⟨c.timestampsOffset + UInt64.ofNat p.timestampsData.length, valuesOffset, c.timestampsOffset,
      p.timestampsData⟩

/-- The header of `p` points to its data. -/
def Locates (c : DataCursor) (p : Block) : Prop :=
  p.bh.timestampsBlockOffset =
      (if c.shares p then c.prevTimestampsOffset else c.timestampsOffset) ∧
    p.bh.valuesBlockOffset = c.valuesOffset

/-- The headers of the packed blocks point to their data, one behind the other. -/
def LocatesAll (c : DataCursor) : List Block → Prop
  | [] => True
  | p :: ps => c.Locates p ∧ (c.next p).LocatesAll ps

/-- The timestamps file from the cursor on. -/
def timestampsFile (c : DataCursor) : List Block → Bytes
  | [] => []
  | p :: ps => c.stored p ++ (c.next p).timestampsFile ps

theorem locatesAll_concat (c : DataCursor) (ps : List Block) (p : Block) :
    c.LocatesAll (ps ++ [p]) ↔ c.LocatesAll ps ∧ (ps.foldl next c).Locates p := by
  induction ps generalizing c with
  | nil => simp [LocatesAll]
  | cons q ps ih => simp [LocatesAll, ih, and_assoc]

theorem timestampsFile_concat (c : DataCursor) (ps : List Block) (p : Block) :
    c.timestampsFile (ps ++ [p]) =
      c.timestampsFile ps ++ (ps.foldl next c).stored p := by
  induction ps generalizing c with
  | nil => simp [timestampsFile]
  | cons q ps ih => simp [timestampsFile, ih]

end DataCursor

section IndexBlocks

variable (z : Zstd) (compressLevel : ℤ)

/-- The compressed headers of an index block. -/
def indexBlock (g : List Block) : Bytes :=
  compressZstdLevel z [] (g.flatMap fun p => p.bh.marshal []) compressLevel

/-- The metaindex row of an index block, without its place in the file. -/
def registeredRow (g : List Block) : MetaindexRow :=
  g.foldl (fun mr p => mr.registerBlockHeader p.bh) default

/-- The offset behind the index blocks. -/
def indexOffset (offset : UInt64) (gs : List (List Block)) : UInt64 :=
  gs.foldl (fun off g => off + UInt64.ofNat (indexBlock z compressLevel g).length) offset

/-- The metaindex row of the index block at an offset. -/
def indexRow (offset : UInt64) (g : List Block) : MetaindexRow :=
  { registeredRow g with
    indexBlockOffset := offset
    indexBlockSize := UInt32.ofNat (indexBlock z compressLevel g).length }

/-- The metaindex rows of consecutive index blocks. -/
def indexRows (offset : UInt64) : List (List Block) → List MetaindexRow
  | [] => []
  | g :: gs =>
    indexRow z compressLevel offset g ::
      indexRows (offset + UInt64.ofNat (indexBlock z compressLevel g).length) gs

theorem indexRows_concat (offset : UInt64) (gs : List (List Block)) (g : List Block) :
    indexRows z compressLevel offset (gs ++ [g]) =
      indexRows z compressLevel offset gs ++
        [indexRow z compressLevel (indexOffset z compressLevel offset gs) g] := by
  induction gs generalizing offset with
  | nil => simp [indexRows, indexOffset]
  | cons g' gs ih => simp [indexRows, indexOffset, ih]

end IndexBlocks

/-- An index block that the writer closes: it has a header, and the headers fit a block. -/
def IsIndexGroup (g : List Block) : Prop :=
  g ≠ [] ∧ g.length * marshaledBlockHeaderSize ≤ maxBlockSize

/-- The part holds the blocks `bs`, with the headers of their packed forms cut into the index
blocks `gs`. -/
structure IsLayoutOf (z : Zstd) (compressLevel : ℤ) (bs : List Block) (gs : List (List Block))
    (part : InmemoryPart) : Prop where
  packs : List.Forall₂ (Block.Packs z) bs gs.flatten
  isIndexGroup : ∀ g ∈ gs, IsIndexGroup g
  locatesAll : DataCursor.start.LocatesAll gs.flatten
  ph_eq : part.ph = gs.flatten.foldl (fun ph p => updatePartHeader p ph) default
  timestampsData_eq : part.timestampsData = DataCursor.start.timestampsFile gs.flatten
  valuesData_eq : part.valuesData = gs.flatten.flatMap Block.valuesData
  indexData_eq : part.indexData = gs.flatMap (indexBlock z compressLevel)
  metaindexData_eq : part.metaindexData = compressZstdLevel z []
    ((indexRows z compressLevel 0 gs).flatMap fun mr => mr.marshal []) compressLevel

/-! ### The writer produces the layout -/

/-- What the writer relies on: index blocks do not outgrow twice the size of a block. -/
def Zstd.IndexBlocksFit (z : Zstd) : Prop :=
  ∀ (src : Bytes) (compressLevel : ℤ), src.length ≤ maxBlockSize →
    (compressZstdLevel z [] src compressLevel).length ≤ 2 * maxBlockSize

theorem length_flatMap_marshal (g : List Block) :
    (g.flatMap fun p => p.bh.marshal []).length = g.length * marshaledBlockHeaderSize := by
  induction g with
  | nil => simp
  | cons p g ih =>
    rw [flatMap_cons, length_append, ih, BlockHeader.length_marshal, length_cons]
    simp
    ring

namespace BlockStreamWriter

variable {z : Zstd} {compressLevel : ℤ}

/-- The state of a writer that has closed the index blocks `gs` and has the headers of `cur` in
the open one. -/
def writing (z : Zstd) (compressLevel : ℤ) (gs : List (List Block)) (cur : List Block) :
    BlockStreamWriter :=
  let c := (gs.flatten ++ cur).foldl DataCursor.next .start
  ⟨compressLevel, DataCursor.start.timestampsFile (gs.flatten ++ cur),
    (gs.flatten ++ cur).flatMap Block.valuesData, gs.flatMap (indexBlock z compressLevel), [],
    registeredRow cur, c.timestampsOffset, c.valuesOffset, indexOffset z compressLevel 0 gs,
    cur.flatMap fun p => p.bh.marshal [],
    (indexRows z compressLevel 0 gs).flatMap fun mr => mr.marshal [], c.prevTimestampsData,
    c.prevTimestampsOffset⟩

theorem newInmemoryPart_eq : newInmemoryPart compressLevel = writing z compressLevel [] [] := rfl

variable {gs : List (List Block)} {cur : List Block}

/-- Closing the open index block moves it to the closed ones. -/
theorem flushIndexData_writing (hfit : z.IndexBlocksFit) (hcur : IsIndexGroup cur) :
    (writing z compressLevel gs cur).flushIndexData z =
      .ok (writing z compressLevel (gs ++ [cur]) []) := by
  obtain ⟨hne, hsize⟩ := hcur
  have hlen : (cur.flatMap fun p => p.bh.marshal []).length ≤ maxBlockSize := by
    rwa [length_flatMap_marshal]
  have hdata : ¬ (writing z compressLevel gs cur).indexData = [] := by
    intro h
    have h0 := congrArg List.length h
    rw [writing, length_flatMap_marshal, length_nil, Nat.mul_eq_zero] at h0
    rcases h0 with h0 | h0
    · exact hne (length_eq_zero_iff.mp h0)
    · cases h0
  have hblock : (compressZstdLevel z [] (writing z compressLevel gs cur).indexData
      (writing z compressLevel gs cur).compressLevel).length < 2 ^ 32 :=
    Nat.lt_of_le_of_lt (hfit _ compressLevel hlen) (by decide)
  simp only [flushIndexData, if_neg hdata, Outcome.assert_of hblock, Outcome.ok_bind]
  rw [MetaindexRow.marshal_eq]
  simp [writing, indexRows_concat, indexRow, indexOffset, registeredRow, indexBlock]

/-- A packed block goes to the open index block. -/
theorem appendPacked_writing {p : Block} (hheader : p.headerData = p.bh.marshal []) :
    (writing z compressLevel gs cur).appendPacked p
        (((gs.flatten ++ cur).foldl DataCursor.next .start).shares p) =
      writing z compressLevel gs (cur ++ [p]) := by
  rw [writing, writing, ← append_assoc]
  set c := (gs.flatten ++ cur).foldl DataCursor.next .start with hc
  rw [DataCursor.timestampsFile_concat, foldl_concat, ← hc, DataCursor.next, DataCursor.stored]
  cases c.shares p <;> simp [appendPacked, registeredRow, hheader]

/-- What writing one block does to the layout: its packed form is placed behind the others, in the
open index block or in a new one. -/
theorem writeExternalBlock_writing (compressLevel : ℤ) (hz : z.RoundTrips) (hfit : z.IndexBlocksFit)
    (hgs : ∀ g ∈ gs, IsIndexGroup g) (hcur : cur = [] ∨ IsIndexGroup cur) {b : Block}
    (hb : b.Writable) (ph : PartHeader) (rowsMerged : ℕ) :
    ∃ p gs' cur', Block.Packs z b p ∧
      ((gs.flatten ++ cur).foldl DataCursor.next .start).Locates p ∧
      gs'.flatten ++ cur' = gs.flatten ++ cur ++ [p] ∧ (∀ g ∈ gs', IsIndexGroup g) ∧
      IsIndexGroup cur' ∧
      (writing z compressLevel gs cur).writeExternalBlock z 0 b ph rowsMerged =
        .ok (writing z compressLevel gs' cur', p, updatePartHeader p ph,
          rowsMerged + b.unreadValues.length) := by
  obtain ⟨p, hp, hpack, hmove⟩ := hb.exists_packs z hz
  set c := (gs.flatten ++ cur).foldl DataCursor.next .start with hc
  set q := p.placedAt (if c.shares p then c.prevTimestampsOffset else c.timestampsOffset)
    c.valuesOffset with hq
  have hshares : c.shares q = c.shares p := rfl
  have hne : b.values ≠ [] := ne_nil_of_length_pos (by have := hb.nextIdx_lt; omega)
  have hrows : b.pendingRowsCount = b.unreadValues.length := by
    rw [Block.pendingRowsCount, if_neg hne, Block.unreadValues, length_drop]
  have hdedup : b.deduplicateSamplesDuringMerge z 0 = .ok b := rfl
  have hwrite : (writing z compressLevel gs cur).writeExternalBlock z 0 b ph rowsMerged =
      (if cur.length * marshaledBlockHeaderSize + marshaledBlockHeaderSize > maxBlockSize then
        (writing z compressLevel gs cur).flushIndexData z else
        .ok (writing z compressLevel gs cur)) >>= fun w =>
      .ok (w.appendPacked q (c.shares q), q, updatePartHeader q ph,
        rowsMerged + b.unreadValues.length) := by
    have hlen : (writing z compressLevel gs cur).indexData.length + q.headerData.length =
        cur.length * marshaledBlockHeaderSize + marshaledBlockHeaderSize := by
      rw [writing, length_flatMap_marshal, hq, Block.placedAt, BlockHeader.length_marshal]
      simp
    simp only [writeExternalBlock, hdedup, Outcome.ok_bind, hpack, hmove, hrows]
    rw [← hlen]
    rfl
  have hpacks : Block.Packs z b q := hp.placedAt z _ _
  have hlocates : c.Locates q := ⟨rfl, rfl⟩
  by_cases hflush :
      cur.length * marshaledBlockHeaderSize + marshaledBlockHeaderSize > maxBlockSize
  · have hgroup : IsIndexGroup cur := by
      refine hcur.resolve_left fun h => ?_
      rw [h] at hflush
      exact absurd hflush (by decide)
    have hone : [q].length * marshaledBlockHeaderSize ≤ maxBlockSize := by
      rw [length_singleton]
      decide
    refine ⟨q, gs ++ [cur], [q], hpacks, hlocates, by simp, ?_, ⟨by simp, hone⟩, ?_⟩
    · intro g hg
      rcases mem_append.mp hg with hg | hg
      · exact hgs g hg
      · rwa [mem_singleton.mp hg]
    · rw [hwrite, if_pos hflush, flushIndexData_writing hfit hgroup, Outcome.ok_bind]
      have happend : (writing z compressLevel (gs ++ [cur]) []).appendPacked q _ = _ :=
        appendPacked_writing rfl
      rw [flatten_concat, append_nil, ← hc, nil_append] at happend
      rw [happend]
  · refine ⟨q, gs, cur ++ [q], hpacks, hlocates, by simp, hgs, ⟨by simp, ?_⟩, ?_⟩
    · rw [length_append, length_singleton, Nat.add_mul, Nat.one_mul]
      exact Nat.le_of_not_lt hflush
    · rw [hwrite, if_neg hflush, Outcome.ok_bind, hc, appendPacked_writing rfl]

/-- Writing a list of blocks lays their packed forms out one behind the other. -/
theorem writeExternalBlocks_writing (compressLevel : ℤ) (hz : z.RoundTrips)
    (hfit : z.IndexBlocksFit)
    {bs : List Block} (hbs : ∀ b ∈ bs, b.Writable) (hgs : ∀ g ∈ gs, IsIndexGroup g)
    (hcur : cur = [] ∨ IsIndexGroup cur) (hloc : DataCursor.start.LocatesAll (gs.flatten ++ cur))
    (ph : PartHeader) (rowsMerged : ℕ) :
    ∃ ps gs' cur', List.Forall₂ (Block.Packs z) bs ps ∧
      gs'.flatten ++ cur' = gs.flatten ++ cur ++ ps ∧ (∀ g ∈ gs', IsIndexGroup g) ∧
      (cur' = [] ∨ IsIndexGroup cur') ∧ DataCursor.start.LocatesAll (gs'.flatten ++ cur') ∧
      (writing z compressLevel gs cur).writeExternalBlocks z 0 ph rowsMerged bs =
        .ok (writing z compressLevel gs' cur', ps.foldl (fun ph p => updatePartHeader p ph) ph,
          rowsMerged + (bs.map fun b => b.unreadValues.length).sum) := by
  induction bs generalizing gs cur ph rowsMerged with
  | nil => exact ⟨[], gs, cur, .nil, by simp, hgs, hcur, hloc, by simp [writeExternalBlocks]⟩
  | cons b bs ih =>
    obtain ⟨p, gs1, cur1, hp, hlocates, hall1, hgs1, hcur1, hwrite⟩ :=
      writeExternalBlock_writing compressLevel hz hfit hgs hcur (hbs b mem_cons_self) ph rowsMerged
    have hloc1 : DataCursor.start.LocatesAll (gs1.flatten ++ cur1) := by
      rw [hall1, DataCursor.locatesAll_concat]
      exact ⟨hloc, hlocates⟩
    obtain ⟨ps, gs', cur', hps, hall, hgs', hcur', hloc', hrun⟩ :=
      ih (fun b hb => hbs b (mem_cons_of_mem _ hb)) hgs1 (.inr hcur1) hloc1
        (updatePartHeader p ph) (rowsMerged + b.unreadValues.length)
    refine ⟨p :: ps, gs', cur', .cons hp hps, ?_, hgs', hcur', hloc', ?_⟩
    · rw [hall, hall1, append_assoc, singleton_append]
    · simp only [writeExternalBlocks, hwrite, Outcome.ok_bind, hrun, foldl_cons,
        map_cons, sum_cons, Nat.add_assoc]

end BlockStreamWriter

/-- Writing blocks gives a part that holds them. -/
theorem exists_writePart {z : Zstd} (hz : z.RoundTrips) (hfit : z.IndexBlocksFit)
    (compressLevel : ℤ) {bs : List Block} (hbs : ∀ b ∈ bs, b.Writable) :
    ∃ part gs, writePart z 0 compressLevel bs = .ok part ∧
      IsLayoutOf z compressLevel bs gs part := by
  obtain ⟨ps, gs, cur, hps, hall, hgs, hcur, hloc, hrun⟩ :=
    BlockStreamWriter.writeExternalBlocks_writing compressLevel hz hfit hbs
      (forall_mem_nil IsIndexGroup) (.inl rfl) trivial default 0
  rw [flatten_nil, nil_append, nil_append] at hall
  obtain ⟨gs', hgs', hflat, hclose⟩ : ∃ gs', (∀ g ∈ gs', IsIndexGroup g) ∧ gs'.flatten = ps ∧
      (BlockStreamWriter.writing z compressLevel gs cur).flushIndexData z =
        .ok (.writing z compressLevel gs' []) := by
    rcases hcur with rfl | hcur
    · exact ⟨gs, hgs, by simpa using hall, rfl⟩
    · refine ⟨gs ++ [cur], ?_, by simpa using hall,
        BlockStreamWriter.flushIndexData_writing hfit hcur⟩
      intro g hg
      rcases mem_append.mp hg with hg | hg
      · exact hgs g hg
      · rwa [mem_singleton.mp hg]
  subst hflat
  refine ⟨⟨gs'.flatten.foldl (fun ph p => updatePartHeader p ph) default,
    DataCursor.start.timestampsFile gs'.flatten, gs'.flatten.flatMap Block.valuesData,
    gs'.flatMap (indexBlock z compressLevel), compressZstdLevel z []
      ((indexRows z compressLevel 0 gs').flatMap fun mr => mr.marshal []) compressLevel⟩, gs', ?_,
    hps, hgs', hall ▸ hloc, rfl, rfl, rfl, rfl, rfl⟩
  rw [writePart, BlockStreamWriter.newInmemoryPart_eq, hrun]
  simp only [Outcome.ok_bind, BlockStreamWriter.mustClose, hclose]
  simp [BlockStreamWriter.writing]

end Esmetrics
