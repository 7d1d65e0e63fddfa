import Esmetrics.Storage.BlockHeader

/-!
# Metaindex rows

Model of `esm-storage/src/metaindex_row.rs`: a metaindex row points to one index block of block
headers, and holds the first series and the range of the timestamps of its headers.

The rows of a part are read back from their compressed form (`unmarshalMetaindexRows_marshal`).
-/

namespace Esmetrics

/-- The size of a marshaled `MetaindexRow`. -/
def marshaledMetaindexRowSize : ℕ := 56

/-- A metaindex row. -/
structure MetaindexRow where
  /-- The first series in the index block. -/
  tsid : Tsid
  /-- The minimum timestamp in the index block. -/
  minTimestamp : Int64
  /-- The maximum timestamp in the index block. -/
  maxTimestamp : Int64
  indexBlockOffset : UInt64
  /-- The number of block headers in the index block. -/
  blockHeadersCount : UInt32
  /-- The size of the compressed index block. -/
  indexBlockSize : UInt32
  deriving DecidableEq, Repr

namespace MetaindexRow

instance : Inhabited MetaindexRow := ⟨⟨default, Int64.maxValue, Int64.minValue, 0, 0, 0⟩⟩

/-- Registers a block header. -/
def registerBlockHeader (mr : MetaindexRow) (bh : BlockHeader) : MetaindexRow :=
  let mr := { mr with blockHeadersCount := mr.blockHeadersCount + 1 }
  if mr.blockHeadersCount = 1 then
    { mr with tsid := bh.tsid, minTimestamp := bh.minTimestamp, maxTimestamp := bh.maxTimestamp }
  else
    let mr := if bh.minTimestamp < mr.minTimestamp then { mr with minTimestamp := bh.minTimestamp }
      else mr
    if bh.maxTimestamp > mr.maxTimestamp then { mr with maxTimestamp := bh.maxTimestamp } else mr

/-- Appends the marshaled row; the count comes right after the series. -/
def marshal (mr : MetaindexRow) (dst : Bytes) : Bytes :=
  let dst := mr.tsid.marshal dst
  let dst := marshalUint32 dst mr.blockHeadersCount
  let dst := marshalInt64 dst mr.minTimestamp
  let dst := marshalInt64 dst mr.maxTimestamp
  let dst := marshalUint64 dst mr.indexBlockOffset
  marshalUint32 dst mr.indexBlockSize

/-- The checks on a row that was read. -/
def validate (mr : MetaindexRow) : Except String Unit :=
  let size := mr.indexBlockSize
  let maxSize := 2 * maxBlockSize
  if mr.blockHeadersCount = 0 then .error "BlockHeadersCount must be greater than 0"
  else if size.toNat > maxSize then
    .error s!"too big IndexBlockSize; got {size}; cannot exceed {maxSize}"
  else .ok ()

/-- Reads a row; returns it with the rest of `src`. The length check keeps all the reads in
range. -/
def unmarshal (src : Bytes) : Except String (MetaindexRow × Bytes) :=
  if src.length < marshaledMetaindexRowSize then
    let len := src.length
    .error (s!"cannot unmarshal metaindexRow from {len} bytes; " ++
      s!"want at least {marshaledMetaindexRowSize} bytes")
  else
    match Tsid.unmarshal src with
    | .error err => .error s!"cannot unmarshal TSID: {err}"
    | .ok (tsid, src) =>
      let blockHeadersCount := unmarshalUint32 src
      let src := src.drop 4
      let minTimestamp := unmarshalInt64 src
      let src := src.drop 8
      let maxTimestamp := unmarshalInt64 src
      let src := src.drop 8
      let indexBlockOffset := unmarshalUint64 src
      let src := src.drop 8
      let indexBlockSize := unmarshalUint32 src
      let mr : MetaindexRow :=
        ⟨tsid, minTimestamp, maxTimestamp, indexBlockOffset, blockHeadersCount, indexBlockSize⟩
      match mr.validate with
      | .error err => .error err
      | .ok () => .ok (mr, src.drop 4)

/-- The derived `Debug`. -/
def debug (mr : MetaindexRow) : String :=
  let tsid := mr.tsid.debug
  let a := mr.minTimestamp
  let b := mr.maxTimestamp
  let c := mr.indexBlockOffset
  let d := mr.blockHeadersCount
  let e := mr.indexBlockSize
  s!"MetaindexRow \x7b tsid: {tsid}, min_timestamp: {a}, max_timestamp: {b}, " ++
    s!"index_block_offset: {c}, block_headers_count: {d}, index_block_size: {e} \x7d"

/-! ### Round trip -/

theorem marshal_eq (mr : MetaindexRow) (dst : Bytes) : mr.marshal dst = dst ++ mr.marshal [] := by
  simp only [marshal]
  rw [Tsid.marshal_eq]
  simp [marshalInt64, marshalUint64, marshalUint32]

@[simp]
theorem length_marshal (mr : MetaindexRow) (dst : Bytes) :
    (mr.marshal dst).length = dst.length + marshaledMetaindexRowSize := by
  simp [marshal, marshalInt64, marshalUint64, marshalUint32, marshaledTsidSize,
    marshaledMetaindexRowSize]

/-- A valid row is read back, whatever follows it. -/
theorem unmarshal_marshal {mr : MetaindexRow} (hmr : mr.validate = .ok ()) (tail : Bytes) :
    unmarshal (mr.marshal [] ++ tail) = .ok (mr, tail) := by
  have hlen : ¬ (mr.marshal [] ++ tail).length < marshaledMetaindexRowSize := by
    rw [List.length_append, length_marshal]
    omega
  have hsrc : mr.marshal [] ++ tail = mr.tsid.marshal [] ++
      (marshalUint32 [] mr.blockHeadersCount ++ (marshalInt64 [] mr.minTimestamp ++
      (marshalInt64 [] mr.maxTimestamp ++ (marshalUint64 [] mr.indexBlockOffset ++
      (marshalUint32 [] mr.indexBlockSize ++ tail))))) := by
    simp [marshal, marshalInt64, marshalUint64, marshalUint32]
  rw [unmarshal, if_neg hlen, hsrc, Tsid.unmarshal_marshal]
  simp only [drop_marshalInt64, drop_marshalUint64, drop_marshalUint32,
    unmarshalInt64_marshalInt64, unmarshalUint64_marshalUint64, unmarshalUint32_marshalUint32]
  rw [hmr]

theorem length_of_unmarshal {src rest : Bytes} {mr : MetaindexRow}
    (h : unmarshal src = .ok (mr, rest)) : rest.length < src.length := by
  unfold unmarshal at h
  split_ifs at h with hlen
  rw [marshaledMetaindexRowSize] at hlen
  cases ht : Tsid.unmarshal src with
  | error err => simp [ht] at h
  | ok p =>
    have hrest : p.2 = src.drop 24 := by
      unfold Tsid.unmarshal at ht
      split_ifs at ht
      cases ht
      simp
    simp only [ht] at h
    split at h
    · cases h
    · cases h
      simp only [hrest, List.length_drop]
      omega

end MetaindexRow

/-- The loop of `unmarshalMetaindexRows`, behind `n` rows. -/
def unmarshalMetaindexRowsLoop (n : ℕ) (src : Bytes) : Except String (List MetaindexRow) :=
  if src = [] then .ok []
  else
    match h : MetaindexRow.unmarshal src with
    | .error err => .error s!"cannot unmarshal metaindexRow #{n} from metaindex data: {err}"
    | .ok (mr, rest) =>
      have := MetaindexRow.length_of_unmarshal h
      match unmarshalMetaindexRowsLoop (n + 1) rest with
      | .error err => .error err
      | .ok mrs => .ok (mr :: mrs)
termination_by src.length

/-- Reads all the rows of a compressed metaindex; they must be sorted by series. -/
def unmarshalMetaindexRows (z : Zstd) (compressedData : Bytes) : Outcome (List MetaindexRow) := do
  let data ← (decompressZstd z [] compressedData).mapErr fun err =>
    s!"cannot decompress metaindex rows: {err}"
  let dst ← Outcome.ofExcept (unmarshalMetaindexRowsLoop 0 data)
  if dst = [] then .err "expecting non-zero metaindex rows; got zero"
  else if ¬ (dst.map MetaindexRow.tsid).Pairwise (· ≤ ·) then
    let text := String.intercalate ", " (dst.map MetaindexRow.debug)
    .err s!"metaindexRow values must be sorted by TSID; got [{text}]"
  else .ok dst

theorem unmarshalMetaindexRowsLoop_marshal {mrs : List MetaindexRow}
    (hmrs : ∀ mr ∈ mrs, mr.validate = .ok ()) (n : ℕ) :
    unmarshalMetaindexRowsLoop n (mrs.flatMap fun mr => mr.marshal []) = .ok mrs := by
  induction mrs generalizing n with
  | nil =>
    rw [unmarshalMetaindexRowsLoop]
    simp
  | cons mr mrs ih =>
    have hread := MetaindexRow.unmarshal_marshal (hmrs mr List.mem_cons_self)
      (mrs.flatMap fun mr => mr.marshal [])
    have hne : mr.marshal [] ++ mrs.flatMap (fun mr => mr.marshal []) ≠ [] := by
      intro h
      have := congrArg List.length h
      simp [marshaledMetaindexRowSize] at this
    rw [List.flatMap_cons, unmarshalMetaindexRowsLoop, if_neg hne]
    split
    · rename_i h
      rw [hread] at h
      cases h
    · rename_i h
      rw [hread] at h
      cases h
      rw [ih fun mr hmr => hmrs mr (List.mem_cons_of_mem _ hmr)]

/-- The valid rows of a part, sorted by series, are read back. -/
theorem unmarshalMetaindexRows_marshal {z : Zstd} (hz : z.RoundTrips) {mrs : List MetaindexRow}
    (hne : mrs ≠ []) (hmrs : ∀ mr ∈ mrs, mr.validate = .ok ())
    (hsorted : (mrs.map MetaindexRow.tsid).Pairwise (· ≤ ·)) (compressLevel : ℤ) :
    unmarshalMetaindexRows z
      (compressZstdLevel z [] (mrs.flatMap fun mr => mr.marshal []) compressLevel) = .ok mrs := by
  rw [unmarshalMetaindexRows, hz, Outcome.mapErr_ok, Outcome.ok_bind,
    unmarshalMetaindexRowsLoop_marshal hmrs, Outcome.ofExcept_ok, Outcome.ok_bind]
  simp [hne, hsorted]

end Esmetrics
