import Esmetrics.Mergeset.InmemoryBlock

/-!
# Headers of blocks and of index blocks

Model of `esm-mergeset/src/block_header.rs` and `metaindex_row.rs`. A block header holds the first
item and the common prefix of a block and the place of its data; an index block is a list of block
headers, sorted by their first items. A metaindex row holds the first item of an index block and its
place.
-/

namespace Esmetrics.Mergeset

/-- The maximum size of an index block with several headers. -/
def maxIndexBlockSize : ℕ := 64 * 1024

namespace MarshalType

def fromU8 (v : UInt8) : Except String MarshalType :=
  if v = 0 then .ok .plain
  else if v = 1 then .ok .zstd
  else .error s!"marshalType must be in the range [0..1]; got {v}"

def asU8 : MarshalType → UInt8
  | .plain => 0
  | .zstd => 1

end MarshalType

/-- The header of a block. -/
structure BlockHeader where
  commonPrefix : Bytes
  firstItem : Bytes
  marshalType : MarshalType
  /-- The number of items, with the first one. -/
  itemsCount : UInt32
  itemsBlockOffset : UInt64
  lensBlockOffset : UInt64
  itemsBlockSize : UInt32
  lensBlockSize : UInt32
deriving DecidableEq, Repr

namespace BlockHeader

instance : Inhabited BlockHeader := ⟨⟨[], [], .plain, 0, 0, 0, 0, 0⟩⟩

/-- Appends the marshaled header. -/
def marshal (bh : BlockHeader) (dst : Bytes) : Bytes :=
  let dst := marshalBytes dst bh.commonPrefix
  let dst := marshalBytes dst bh.firstItem
  let dst := dst ++ [bh.marshalType.asU8]
  let dst := marshalUint32 dst bh.itemsCount
  let dst := marshalUint64 dst bh.itemsBlockOffset
  let dst := marshalUint64 dst bh.lensBlockOffset
  let dst := marshalUint32 dst bh.itemsBlockSize
  marshalUint32 dst bh.lensBlockSize

/-- The checks on a header that was read. -/
def validate (bh : BlockHeader) : Except String Unit :=
  let itemsSize := bh.itemsBlockSize
  let lensSize := bh.lensBlockSize
  let maxItemsSize := 2 * maxInmemoryBlockSize
  let maxLensSize := 2 * 8 * maxInmemoryBlockSize
  if bh.itemsCount = 0 then .error "itemsCount must be bigger than 0; got 0"
  else if itemsSize.toNat > maxItemsSize then
    .error s!"too big itemsBlockSize; got {itemsSize}; cannot exceed {maxItemsSize}"
  else if lensSize.toNat > maxLensSize then
    .error s!"too big lensBlockSize; got {lensSize}; cannot exceed {maxLensSize}"
  else .ok ()

/-- The number of bytes that a field needs is there. -/
def need (src : Bytes) (n : ℕ) (field : String) : Except String Unit :=
  if src.length < n then
    let len := src.length
    .error s!"cannot unmarshal {field} from {len} bytes; need at least {n} bytes"
  else .ok ()

/-- An optional field, with the error for its absence. -/
def field (o : Option (Bytes × ℕ)) (msg : String) : Except String (Bytes × ℕ) :=
  match o with
  | some r => .ok r
  | none => .error msg

/-- Reads a header; returns it with the rest of `src`. -/
def unmarshal (src : Bytes) : Except String (BlockHeader × Bytes) := do
  let (commonPrefix, nSize) ← field (unmarshalBytes src) "cannot unmarshal commonPrefix"
  let src := src.drop nSize
  let (firstItem, nSize) ← field (unmarshalBytes src) "cannot unmarshal firstItem"
  let src := src.drop nSize
  match src with
  | [] => .error "cannot unmarshal marshalType from zero bytes"
  | v :: src =>
    match MarshalType.fromU8 v with
    | .error err => .error s!"unexpected marshalType: {err}"
    | .ok marshalType =>
      need src 4 "itemsCount"
      let itemsCount := unmarshalUint32 src
      let src := src.drop 4
      need src 8 "itemsBlockOffset"
      let itemsBlockOffset := unmarshalUint64 src
      let src := src.drop 8
      need src 8 "lensBlockOffset"
      let lensBlockOffset := unmarshalUint64 src
      let src := src.drop 8
      need src 4 "itemsBlockSize"
      let itemsBlockSize := unmarshalUint32 src
      let src := src.drop 4
      need src 4 "lensBlockSize"
      let lensBlockSize := unmarshalUint32 src
      let bh : BlockHeader :=
        ⟨commonPrefix, firstItem, marshalType, itemsCount, itemsBlockOffset, lensBlockOffset,
          itemsBlockSize, lensBlockSize⟩
      bh.validate
      .ok (bh, src.drop 4)

end BlockHeader

/-- The headers from number `i` on to `total`. -/
def readBlockHeaders (total : ℕ) : ℕ → ℕ → Bytes → Except String (List BlockHeader × Bytes)
  | _, 0, src => .ok ([], src)
  | i, n + 1, src =>
    match BlockHeader.unmarshal src with
    | .error err => .error s!"cannot unmarshal block header #{i} out of {total}: {err}"
    | .ok (bh, src) =>
      match readBlockHeaders total (i + 1) n src with
      | .error err => .error err
      | .ok (bhs, src) => .ok (bh :: bhs, src)

/-- Reads the headers of an index block. -/
def unmarshalBlockHeaders (src : Bytes) (blockHeadersCount : ℕ) : Outcome (List BlockHeader) := do
  Outcome.assert (blockHeadersCount > 0)
    s!"BUG: blockHeadersCount must be greater than 0; got {blockHeadersCount}"
  let (bhs, tail) ← Outcome.ofExcept (readBlockHeaders blockHeadersCount 0 blockHeadersCount src)
  if tail ≠ [] then
    let len := tail.length
    .err
      (s!"unexpected non-zero tail left after unmarshaling {blockHeadersCount} block headers; " ++
      s!"len(tail)={len}")
  else if InmemoryBlock.itemsSorted (bhs.map BlockHeader.firstItem) then .ok bhs
  else .err "block headers must be sorted by firstItem; unmarshaled unsorted block headers"

/-- A metaindex row. -/
structure MetaindexRow where
  /-- The first item of the first block. -/
  firstItem : Bytes
  blockHeadersCount : UInt32
  indexBlockOffset : UInt64
  indexBlockSize : UInt32
deriving DecidableEq, Repr

namespace MetaindexRow

instance : Inhabited MetaindexRow := ⟨⟨[], 0, 0, 0⟩⟩

/-- Appends the marshaled row. -/
def marshal (mr : MetaindexRow) (dst : Bytes) : Bytes :=
  let dst := marshalBytes dst mr.firstItem
  let dst := marshalUint32 dst mr.blockHeadersCount
  let dst := marshalUint64 dst mr.indexBlockOffset
  marshalUint32 dst mr.indexBlockSize

end MetaindexRow

end Esmetrics.Mergeset
