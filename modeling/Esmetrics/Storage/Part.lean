import Esmetrics.Storage.MetaindexRow

/-!
# Parts

Model of `esm-storage/src/part/header.rs`, of the buffers in `esm-storage/src/part/inmemory.rs` and
of what a search reads of a part in `esm-storage/src/part/mod.rs`: the header with the counts and
the range of the timestamps, the rows of the metaindex, and the index blocks that the rows point to.
-/

namespace Esmetrics

/-- The header of a part. The two counters are natural numbers: a part has fewer than `2 ^ 64`
rows. -/
structure PartHeader where
  rowsCount : ℕ
  blocksCount : ℕ
  /-- The minimum timestamp in the part. -/
  minTimestamp : Int64
  /-- The maximum timestamp in the part. -/
  maxTimestamp : Int64
  minDedupInterval : Int64
  deriving DecidableEq, Repr

namespace PartHeader

instance : Inhabited PartHeader := ⟨⟨0, 0, Int64.maxValue, Int64.minValue, 0⟩⟩

/-- The `Display` of a header. -/
def display (ph : PartHeader) : String :=
  let a := ph.rowsCount
  let b := ph.blocksCount
  let c := ph.minTimestamp
  let d := ph.maxTimestamp
  s!"partHeader\x7browsCount={a},blocksCount={b},minTimestamp={c},maxTimestamp={d}\x7d"

/-- The derived `Debug`. -/
def debug (ph : PartHeader) : String :=
  let a := ph.rowsCount
  let b := ph.blocksCount
  let c := ph.minTimestamp
  let d := ph.maxTimestamp
  let e := ph.minDedupInterval
  s!"PartHeader \x7b rows_count: {a}, blocks_count: {b}, min_timestamp: {c}, " ++
    s!"max_timestamp: {d}, min_dedup_interval: {e} \x7d"

end PartHeader

/-- An in-memory part: its header and the contents of its four files. -/
structure InmemoryPart where
  ph : PartHeader
  timestampsData : Bytes
  valuesData : Bytes
  indexData : Bytes
  metaindexData : Bytes
  deriving DecidableEq, Repr

/-- Reads `size` bytes of an in-memory stream. -/
def mustReadAt (buf : Bytes) (size : ℕ) (off : UInt64) : Outcome Bytes := do
  let len := buf.length
  Outcome.assert (off.toNat + size ≤ len)
    s!"BUG: off={off}+len={size} is out of range for in-memory part stream of size {len}"
  return (buf.drop off.toNat).take size

/-- What a search uses of a part. -/
structure Part where
  ph : PartHeader
  indexFile : Bytes
  metaindex : List MetaindexRow

/-- Reads the block headers of a metaindex row. -/
def Part.readIndexBlock (z : Zstd) (p : Part) (mr : MetaindexRow) : Outcome (List BlockHeader) := do
  let ph := p.ph.debug
  let offset := mr.indexBlockOffset
  let size := mr.indexBlockSize
  let compressedIndexBuf ← mustReadAt p.indexFile size.toNat offset
  let indexBuf ← (decompressZstd z [] compressedIndexBuf).mapErr fun err =>
    s!"cannot read index block for part {ph} at offset {offset} with size {size}: " ++
      s!"cannot decompress index block: {err}"
  (unmarshalBlockHeaders [] indexBuf mr.blockHeadersCount.toNat).mapErr fun err =>
    s!"cannot read index block for part {ph} at offset {offset} with size {size}: " ++
      s!"cannot unmarshal index block: {err}"

/-- An index block that was written at an offset of the file is read back. -/
theorem Part.readIndexBlock_eq {z : Zstd} (hz : z.RoundTrips) {p : Part} {mr : MetaindexRow}
    {bhs : List BlockHeader} {before after : Bytes} {compressLevel : ℤ} (hne : bhs ≠ [])
    (hbhs : ∀ bh ∈ bhs, bh.validate = .ok ())
    (hsorted : (bhs.map BlockHeader.tsid).Pairwise (· ≤ ·))
    (hfile : p.indexFile = before ++
      compressZstdLevel z [] (bhs.flatMap fun bh => bh.marshal []) compressLevel ++ after)
    (hoffset : mr.indexBlockOffset.toNat = before.length)
    (hsize : mr.indexBlockSize.toNat =
      (compressZstdLevel z [] (bhs.flatMap fun bh => bh.marshal []) compressLevel).length)
    (hcount : mr.blockHeadersCount.toNat = bhs.length) :
    p.readIndexBlock z mr = .ok bhs := by
  have hread : mustReadAt p.indexFile mr.indexBlockSize.toNat mr.indexBlockOffset =
      .ok (compressZstdLevel z [] (bhs.flatMap fun bh => bh.marshal []) compressLevel) := by
    rw [mustReadAt, hoffset, hsize]
    rw [Outcome.assert_of (by rw [hfile, List.length_append, List.length_append]; omega),
      Outcome.ok_bind, hfile, List.append_assoc, List.drop_left, List.take_left, Outcome.pure_eq_ok]
  rw [readIndexBlock]
  rw [hread, Outcome.ok_bind, hz, Outcome.mapErr_ok, Outcome.ok_bind, hcount,
    unmarshalBlockHeaders_marshal hne hbhs hsorted, Outcome.mapErr_ok, List.nil_append]

end Esmetrics
