import Esmetrics.Mergeset.BlockHeader

/-!
# Streams of blocks of index items

Model of `esm-mergeset/src/block_stream_writer.rs`, `block_stream_reader.rs`, `part_header.rs` and
`inmemory_part.rs`. A writer stores sorted blocks behind each other, their headers in index blocks,
and a metaindex row for every index block. A reader gives the blocks of a part, or a single block,
one after the other.

The merge of block streams relies on readers through `BlockStreamReader.Yields`: the blocks that a
reader gives until it ends without an error.
-/

namespace Esmetrics.Mergeset

/-- The metadata of a part. -/
structure PartHeader where
  itemsCount : ℕ
  blocksCount : ℕ
  firstItem : Bytes
  lastItem : Bytes
deriving DecidableEq, Repr

instance : Inhabited PartHeader := ⟨⟨0, 0, [], []⟩⟩

/-! ### Writer -/

/-- A writer of the four streams of a part. -/
structure BlockStreamWriter where
  compressLevel : ℤ
  metaindexWriter : Bytes
  indexWriter : Bytes
  itemsWriter : Bytes
  lensWriter : Bytes
  /-- The row of the index block that is being filled. -/
  mr : MetaindexRow
  unpackedIndexBlockBuf : Bytes
  unpackedMetaindexBuf : Bytes
  itemsBlockOffset : UInt64
  lensBlockOffset : UInt64
  indexBlockOffset : UInt64
  /-- The first item of the row is known. -/
  mrFirstItemCaught : Bool
deriving DecidableEq, Repr

namespace BlockStreamWriter

/-- A writer of a part, in memory or in files. -/
def new (compressLevel : ℤ) : BlockStreamWriter :=
  ⟨compressLevel, [], [], [], [], default, [], [], 0, 0, 0, false⟩

variable (z : Zstd)

/-- Closes the current index block and adds its metaindex row. -/
def flushIndexData (w : BlockStreamWriter) : BlockStreamWriter :=
  if w.unpackedIndexBlockBuf = [] then w
  else
    let packedIndexBlockBuf := compressZstdLevel z [] w.unpackedIndexBlockBuf w.compressLevel
    let mr : MetaindexRow :=
      { w.mr with
        indexBlockSize := UInt32.ofNat packedIndexBlockBuf.length
        indexBlockOffset := w.indexBlockOffset }
    { w with
      indexWriter := w.indexWriter ++ packedIndexBlockBuf
      indexBlockOffset := w.indexBlockOffset + mr.indexBlockSize.toUInt64
      unpackedIndexBlockBuf := []
      unpackedMetaindexBuf := mr.marshal w.unpackedMetaindexBuf
      mr := default
      mrFirstItemCaught := false }

/-- The header of a stored block at the end of the streams. -/
def blockHeader (w : BlockStreamWriter) (m : InmemoryBlock.Marshaled) : BlockHeader where
  commonPrefix := m.commonPrefix
  firstItem := m.firstItem
  marshalType := m.marshalType
  itemsCount := m.itemsCount
  itemsBlockOffset := w.itemsBlockOffset
  lensBlockOffset := w.lensBlockOffset
  itemsBlockSize := UInt32.ofNat m.sb.itemsData.length
  lensBlockSize := UInt32.ofNat m.sb.lensData.length

/-- Writes the stored form of a block. -/
def writeMarshaled (w : BlockStreamWriter) (m : InmemoryBlock.Marshaled) : BlockStreamWriter :=
  let bh := w.blockHeader m
  let w := { w with
    itemsWriter := w.itemsWriter ++ m.sb.itemsData
    itemsBlockOffset := w.itemsBlockOffset + bh.itemsBlockSize.toUInt64
    lensWriter := w.lensWriter ++ m.sb.lensData
    lensBlockOffset := w.lensBlockOffset + bh.lensBlockSize.toUInt64 }
  -- a header that does not fit opens the next index block
  let w :=
    if (bh.marshal w.unpackedIndexBlockBuf).length > maxIndexBlockSize then w.flushIndexData z
      else w
  let w := { w with unpackedIndexBlockBuf := bh.marshal w.unpackedIndexBlockBuf }
  let w :=
    if w.mrFirstItemCaught then w
    else { w with mr := { w.mr with firstItem := bh.firstItem }, mrFirstItemCaught := true }
  { w with mr := { w.mr with blockHeadersCount := w.mr.blockHeadersCount + 1 } }

/-- Writes a sorted block; returns the writer, the stored form and the block with its common
prefix. -/
def writeBlock (w : BlockStreamWriter) (ib : InmemoryBlock) :
    Outcome (BlockStreamWriter × InmemoryBlock.Marshaled × InmemoryBlock) := do
  let (m, ib) ← ib.marshalSortedData z w.compressLevel
  .ok (w.writeMarshaled z m, m, ib)

/-- Closes the writer; returns the metaindex, index, items and lens streams. -/
def mustClose (w : BlockStreamWriter) : Bytes × Bytes × Bytes × Bytes :=
  let w := w.flushIndexData z
  let packedMetaindexBuf := compressZstdLevel z [] w.unpackedMetaindexBuf w.compressLevel
  (w.metaindexWriter ++ packedMetaindexBuf, w.indexWriter, w.itemsWriter, w.lensWriter)

end BlockStreamWriter

/-! ### Reader -/

/-- A stream of bytes that is read from its beginning. -/
structure StreamReader where
  buf : Bytes
  pos : ℕ
deriving DecidableEq, Repr

/-- Reads `n` bytes. -/
def StreamReader.mustRead (r : StreamReader) (n : ℕ) : Outcome (Bytes × StreamReader) := do
  let size := r.buf.length
  let pos := r.pos
  Outcome.assert (pos + n ≤ size)
    s!"BUG: cannot read {n} bytes at offset {pos} from in-memory stream of size {size}"
  .ok ((r.buf.drop r.pos).take n, { r with pos := r.pos + n })

/-- Why a reader has stopped. -/
inductive BsrError where
  | eof
  | other (msg : String)
deriving DecidableEq, Repr

/-- A reader of the blocks of a part, or of a single block. -/
structure BlockStreamReader where
  /-- The current block. -/
  block : InmemoryBlock
  isInmemoryBlock : Bool
  /-- The index of the current item in the block. -/
  currItemIdx : ℕ
  ph : PartHeader
  mrs : List MetaindexRow
  mrIdx : ℕ
  bhs : List BlockHeader
  /-- The index of the next block header. -/
  bhIdx : ℕ
  indexReader : StreamReader
  itemsReader : StreamReader
  lensReader : StreamReader
  itemsRead : ℕ
  blocksRead : ℕ
  firstItemChecked : Bool
  err : Option BsrError
deriving DecidableEq, Repr

namespace BlockStreamReader

def newEmpty : BlockStreamReader :=
  ⟨.reset, false, 0, default, [], 0, [], 0, ⟨[], 0⟩, ⟨[], 0⟩, ⟨[], 0⟩, 0, 0, false, none⟩

instance : Inhabited BlockStreamReader := ⟨newEmpty⟩

/-- A reader of a single block, which it sorts. -/
def fromInmemoryBlock (ib : InmemoryBlock) : BlockStreamReader :=
  { newEmpty with block := ib.sortItems, isInmemoryBlock := true }

/-- The current item. -/
def currItem (r : BlockStreamReader) : Outcome Bytes := Outcome.index r.block.items[r.currItemIdx]?

/-- The last error, unless it is the end. -/
def error (r : BlockStreamReader) : Option String :=
  match r.err with
  | some (.other msg) => some msg
  | _ => none

variable (z : Zstd)

/-- Reads the next index block; the error stands beside the reader. -/
def readNextBhs (r : BlockStreamReader) : Outcome (Option BsrError × BlockStreamReader) := do
  match r.mrs[r.mrIdx]? with
  | none => .ok (some .eof, r)
  | some mr =>
    let (packedBuf, indexReader) ← r.indexReader.mustRead mr.indexBlockSize.toNat
    let r := { r with mrIdx := r.mrIdx + 1, indexReader }
    match decompressZstd z [] packedBuf with
    | .panic msg => .panic msg
    | .err e => .ok (some (.other s!"cannot decompress index block: {e}"), r)
    | .ok unpackedBuf =>
      match unmarshalBlockHeaders unpackedBuf mr.blockHeadersCount.toNat with
      | .panic msg => .panic msg
      | .err e =>
        let mrIdx := r.mrIdx
        .ok (some (.other s!"cannot unmarshal blockHeaders in the index block #{mrIdx}: {e}"), r)
      | .ok bhs => .ok (none, { r with bhs, bhIdx := 0 })

/-- The error with which a reader stops before a new index block. -/
def indexError (r : BlockStreamReader) : BsrError → Outcome BsrError
  | .eof => do
    let lastItem ← Outcome.index r.block.items.getLast?
    if r.ph.lastItem ≠ lastItem then
      let got := InmemoryBlock.hexEncode lastItem
      let want := InmemoryBlock.hexEncode r.ph.lastItem
      .ok (.other s!"unexpected last item; got {got}; want {want}")
    else .ok .eof
  | .other msg => .ok (.other s!"cannot read the next index block: {msg}")

/-- The checks on a block that was read, with what is counted. -/
def checkBlock (r : BlockStreamReader) : Outcome (Bool × BlockStreamReader) := do
  let r := { r with blocksRead := r.blocksRead + 1 }
  let blocksRead := r.blocksRead
  let blocksCount := r.ph.blocksCount
  if blocksRead > blocksCount then
    .ok (false, { r with err := some (.other (s!"too many blocks read: {blocksRead}; " ++
      s!"must be smaller than partHeader.blocksCount {blocksCount}")) })
  else
    let r := { r with currItemIdx := 0, itemsRead := r.itemsRead + r.block.items.length }
    let itemsRead := r.itemsRead
    let itemsCount := r.ph.itemsCount
    if itemsRead > itemsCount then
      .ok (false, { r with err := some (.other (s!"too many items read: {itemsRead}; " ++
        s!"must be smaller than partHeader.itemsCount {itemsCount}")) })
    else if r.firstItemChecked then .ok (true, r)
    else
      let r := { r with firstItemChecked := true }
      let firstItem ← Outcome.index r.block.items.head?
      if r.ph.firstItem ≠ firstItem then
        let got := InmemoryBlock.hexEncode firstItem
        let want := InmemoryBlock.hexEncode r.ph.firstItem
        .ok (false,
          { r with err := some (.other s!"unexpected first item; got {got}; want {want}") })
      else .ok (true, r)

/-- Reads the block of the next header. -/
def readBlock (r : BlockStreamReader) : Outcome (Bool × BlockStreamReader) := do
  let bh ← Outcome.index r.bhs[r.bhIdx]?
  let (itemsData, itemsReader) ← r.itemsReader.mustRead bh.itemsBlockSize.toNat
  let (lensData, lensReader) ← r.lensReader.mustRead bh.lensBlockSize.toNat
  let r := { r with bhIdx := r.bhIdx + 1, itemsReader, lensReader }
  match InmemoryBlock.unmarshalData z
    ⟨⟨itemsData, lensData⟩, bh.firstItem, bh.commonPrefix, bh.itemsCount, bh.marshalType⟩ with
  | .panic msg => .panic msg
  | .err e =>
    let firstItem := InmemoryBlock.hexEncode bh.firstItem
    let cp := InmemoryBlock.hexEncode bh.commonPrefix
    let itemsCount := bh.itemsCount
    let marshalType := bh.marshalType.asU8
    .ok (false, { r with err := some (.other
      (s!"cannot unmarshal inmemoryBlock from storageBlock with firstItem={firstItem}, " ++
      s!"commonPrefix={cp}, itemsCount={itemsCount}, marshalType={marshalType}: {e}")) })
  | .ok block => checkBlock { r with block }

/-- Goes to the next block, and tells whether there is one. -/
def next (r : BlockStreamReader) : Outcome (Bool × BlockStreamReader) := do
  if r.err.isSome then .ok (false, r)
  else if r.isInmemoryBlock then .ok (true, { r with err := some .eof })
  else if r.bhIdx ≥ r.bhs.length then
    match ← r.readNextBhs z with
    | (some err, r) => do
      let err ← r.indexError err
      .ok (false, { r with err := some err })
    | (none, r) => r.readBlock z
  else r.readBlock z

/-- The blocks that a reader gives until it ends without an error. It stands at the first item of
every one of them, and goes on from any item. -/
def Yields (r : BlockStreamReader) : List (List Bytes) → Prop
  | [] => ∃ r', r.next z = .ok (false, r') ∧ r'.error = none
  | items :: blocks => ∃ r', r.next z = .ok (true, r') ∧ r'.error = none ∧ r'.currItemIdx = 0 ∧
    r'.block.items = items ∧ ∀ idx, Yields { r' with currItemIdx := idx } blocks

/-- A reader of a single block gives the block, sorted. -/
theorem yields_fromInmemoryBlock (ib : InmemoryBlock) :
    (fromInmemoryBlock ib).Yields z [ib.sortItems.items] := by
  refine ⟨{ fromInmemoryBlock ib with err := some .eof }, rfl, rfl, rfl, rfl, fun idx => ?_⟩
  exact ⟨_, rfl, rfl⟩

end BlockStreamReader

end Esmetrics.Mergeset
