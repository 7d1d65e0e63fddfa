import Esmetrics.Encoding.Int64Array
import Esmetrics.Storage.Tsid

/-!
# Block headers

Model of `esm-storage/src/block_header.rs`: the header of a block of rows of one series, its
fixed-width form in an index block and its portable varint form.

A header that passes `validate` is read back from its fixed-width form
(`BlockHeader.unmarshal_marshal`), and so is an index block of headers sorted by series
(`unmarshalBlockHeaders_marshal`).
-/

namespace Esmetrics

/-- The maximum number of rows per block. -/
def maxRowsPerBlock : ℕ := 8 * 1024

/-- The maximum size of values in the block. -/
def maxBlockSize : ℕ := 8 * maxRowsPerBlock

/-- The size of a marshaled `BlockHeader`. -/
def marshaledBlockHeaderSize : ℕ := 81

/-- The header of a block. -/
structure BlockHeader where
  tsid : Tsid
  minTimestamp : Int64
  maxTimestamp : Int64
  firstValue : Int64
  timestampsBlockOffset : UInt64
  valuesBlockOffset : UInt64
  timestampsBlockSize : UInt32
  valuesBlockSize : UInt32
  rowsCount : UInt32
  scale : Int16
  timestampsMarshalType : UInt8
  valuesMarshalType : UInt8
  precisionBits : UInt8
  deriving DecidableEq, Repr, Inhabited

/-- The range `&src[n..]`, which panics past the end. -/
def sliceFrom (src : Bytes) (n : ℕ) : Outcome Bytes :=
  if n ≤ src.length then .ok (src.drop n)
  else
    let len := src.length
    .panic s!"range start index {n} out of range for slice of length {len}"

/-- The derived `Debug`. -/
def Tsid.debug (t : Tsid) : String :=
  let a := t.metricGroupId
  let b := t.jobId
  let c := t.instanceId
  let d := t.metricId
  s!"Tsid \x7b metric_group_id: {a}, job_id: {b}, instance_id: {c}, metric_id: {d} \x7d"

namespace BlockHeader

/-- The order of blocks in a stream: by series, then by the first timestamp. -/
def less (a b : BlockHeader) : Bool :=
  if a.tsid.metricId = b.tsid.metricId then a.minTimestamp < b.minTimestamp else a.tsid < b.tsid

/-- Appends the marshaled header. -/
def marshal (bh : BlockHeader) (dst : Bytes) : Bytes :=
  let dst := bh.tsid.marshal dst
  let dst := marshalInt64 dst bh.minTimestamp
  let dst := marshalInt64 dst bh.maxTimestamp
  let dst := marshalInt64 dst bh.firstValue
  let dst := marshalUint64 dst bh.timestampsBlockOffset
  let dst := marshalUint64 dst bh.valuesBlockOffset
  let dst := marshalUint32 dst bh.timestampsBlockSize
  let dst := marshalUint32 dst bh.valuesBlockSize
  let dst := marshalUint32 dst bh.rowsCount
  let dst := marshalInt16 dst bh.scale
  dst ++ [bh.timestampsMarshalType, bh.valuesMarshalType, bh.precisionBits]

/-- Checks the fields one by one. -/
def validate (bh : BlockHeader) : Except String Unit :=
  let rows := bh.rowsCount
  let maxRows := 2 * maxRowsPerBlock
  let maxSize := 2 * maxBlockSize
  let tsSize := bh.timestampsBlockSize
  let valSize := bh.valuesBlockSize
  if rows = 0 then .error "RowsCount in block header cannot be zero"
  else if rows.toNat > maxRows then
    .error s!"too big RowsCount; got {rows}; cannot exceed {maxRows}"
  else
    match checkMarshalType bh.timestampsMarshalType with
    | .error err => .error s!"unsupported TimestampsMarshalType: {err}"
    | .ok () =>
      match checkMarshalType bh.valuesMarshalType with
      | .error err => .error s!"unsupported ValuesMarshalType: {err}"
      | .ok () =>
        match checkPrecisionBits bh.precisionBits with
        | .error err => .error err
        | .ok () =>
          if tsSize.toNat > maxSize then
            .error s!"too big TimestampsBlockSize; got {tsSize}; cannot exceed {maxSize}"
          else if valSize.toNat > maxSize then
            .error s!"too big ValuesBlockSize; got {valSize}; cannot exceed {maxSize}"
          else .ok ()

/-- Reads a header; returns it with the rest of `src`. The length check keeps all the reads in
range. -/
def unmarshal (src : Bytes) : Except String (BlockHeader × Bytes) :=
  if src.length < marshaledBlockHeaderSize then
    let len := src.length
    .error s!"too short block header; got {len} bytes; want {marshaledBlockHeaderSize} bytes"
  else
    match Tsid.unmarshal src with
    | .error err => .error s!"cannot unmarshal TSID: {err}"
    | .ok (tsid, src) =>
      let minTimestamp := unmarshalInt64 src
      let src := src.drop 8
      let maxTimestamp := unmarshalInt64 src
      let src := src.drop 8
      let firstValue := unmarshalInt64 src
      let src := src.drop 8
      let timestampsBlockOffset := unmarshalUint64 src
      let src := src.drop 8
      let valuesBlockOffset := unmarshalUint64 src
      let src := src.drop 8
      let timestampsBlockSize := unmarshalUint32 src
      let src := src.drop 4
      let valuesBlockSize := unmarshalUint32 src
      let src := src.drop 4
      let rowsCount := unmarshalUint32 src
      let src := src.drop 4
      let scale := unmarshalInt16 src
      let src := src.drop 2
      let bh : BlockHeader :=
        ⟨tsid, minTimestamp, maxTimestamp, firstValue, timestampsBlockOffset, valuesBlockOffset,
          timestampsBlockSize, valuesBlockSize, rowsCount, scale, src.getD 0 0, src.getD 1 0,
          src.getD 2 0⟩
      match bh.validate with
      | .error err => .error err
      | .ok () => .ok (bh, src.drop 3)

/-- Reads the portable form into `bh`; returns it with the rest of `src`. -/
def unmarshalPortable (bh : BlockHeader) (src : Bytes) : Outcome (BlockHeader × Bytes) := do
  let (minTimestamp, nSize) ←
    Outcome.ofOption (unmarshalVarInt64 src) "cannot unmarshal firstTimestamp from varint"
  let src ← sliceFrom src nSize
  let (maxTimestamp, nSize) ←
    Outcome.ofOption (unmarshalVarInt64 src) "cannot unmarshal maxTimestamp from varint"
  let src ← sliceFrom src nSize
  let (firstValue, nSize) ←
    Outcome.ofOption (unmarshalVarInt64 src) "cannot unmarshal firstValue from varint"
  let src ← sliceFrom src nSize
  let (rowsCount, nSize) ←
    Outcome.ofOption (unmarshalVarUint64 src) "cannot unmarshal rowsCount from varuint"
  let src ← sliceFrom src nSize
  if rowsCount > 0xffffffff then
    .err s!"got too big rowsCount={rowsCount}; it mustn't exceed 4294967295"
  else
    let (scale, nSize) ←
      Outcome.ofOption (unmarshalVarInt64 src) "cannot unmarshal scale from varint"
    let src ← sliceFrom src nSize
    if scale < -32768 then
      .err s!"got too small scale={scale}; it mustn't be smaller than -32768"
    else if scale > 32767 then
      .err s!"got too big scale={scale}; it mustn't exceed 32767"
    else
      match src with
      | timestampsMarshalType :: valuesMarshalType :: precisionBits :: src =>
        .ok ({ bh with
          minTimestamp, maxTimestamp, firstValue, rowsCount := rowsCount.toUInt32,
          scale := scale.toInt16, timestampsMarshalType, valuesMarshalType, precisionBits }, src)
      | _ =>
        let len := src.length
        .err
          s!"cannot unmarshal marshalTypes and precisionBits from {len} bytes; need at least 3 bytes"

/-- The derived `Debug`. -/
def debug (bh : BlockHeader) : String :=
  let tsid := bh.tsid.debug
  let a := bh.minTimestamp
  let b := bh.maxTimestamp
  let c := bh.firstValue
  let d := bh.timestampsBlockOffset
  let e := bh.valuesBlockOffset
  let f := bh.timestampsBlockSize
  let g := bh.valuesBlockSize
  let h := bh.rowsCount
  let i := bh.scale
  let j := bh.timestampsMarshalType
  let k := bh.valuesMarshalType
  let l := bh.precisionBits
  s!"BlockHeader \x7b tsid: {tsid}, min_timestamp: {a}, max_timestamp: {b}, " ++
    s!"first_value: {c}, timestamps_block_offset: {d}, values_block_offset: {e}, " ++
    s!"timestamps_block_size: {f}, values_block_size: {g}, rows_count: {h}, scale: {i}, " ++
    s!"timestamps_marshal_type: {j}, values_marshal_type: {k}, precision_bits: {l} \x7d"

/-! ### Round trip of the fixed-width form -/

@[simp]
theorem length_marshal (bh : BlockHeader) (dst : Bytes) :
    (bh.marshal dst).length = dst.length + marshaledBlockHeaderSize := by
  simp [marshal, marshalInt64, marshalInt16, marshalUint64, marshalUint32, marshalUint16,
    marshaledTsidSize, marshaledBlockHeaderSize]

/-- A valid header is read back, whatever follows it. -/
theorem unmarshal_marshal {bh : BlockHeader} (hbh : bh.validate = .ok ()) (tail : Bytes) :
    unmarshal (bh.marshal [] ++ tail) = .ok (bh, tail) := by
  have hlen : ¬ (bh.marshal [] ++ tail).length < marshaledBlockHeaderSize := by
    rw [List.length_append, length_marshal]
    omega
  have hsrc : bh.marshal [] ++ tail = bh.tsid.marshal [] ++ (marshalInt64 [] bh.minTimestamp ++
      (marshalInt64 [] bh.maxTimestamp ++ (marshalInt64 [] bh.firstValue ++
      (marshalUint64 [] bh.timestampsBlockOffset ++ (marshalUint64 [] bh.valuesBlockOffset ++
      (marshalUint32 [] bh.timestampsBlockSize ++ (marshalUint32 [] bh.valuesBlockSize ++
      (marshalUint32 [] bh.rowsCount ++ (marshalInt16 [] bh.scale ++
      (bh.timestampsMarshalType :: bh.valuesMarshalType :: bh.precisionBits :: tail)))))))))) := by
    simp [marshal, marshalInt64, marshalInt16, marshalUint64, marshalUint32, marshalUint16]
  rw [unmarshal, if_neg hlen, hsrc, Tsid.unmarshal_marshal]
  simp only [drop_marshalInt64, drop_marshalUint64, drop_marshalUint32, drop_marshalInt16,
    unmarshalInt64_marshalInt64, unmarshalUint64_marshalUint64, unmarshalUint32_marshalUint32,
    unmarshalInt16_marshalInt16, List.getD_cons_zero, List.getD_cons_succ]
  rw [hbh]
  rfl

theorem length_of_unmarshal {src rest : Bytes} {bh : BlockHeader}
    (h : unmarshal src = .ok (bh, rest)) : rest.length < src.length := by
  unfold unmarshal at h
  split_ifs at h with hlen
  rw [marshaledBlockHeaderSize] at hlen
  cases ht : Tsid.unmarshal src with
  | error err => simp [ht] at h
  | ok p =>
    have hrest : p.2 = src.drop 24 := by
      unfold Tsid.unmarshal at ht
      split_ifs at ht
      cases ht
      simp
    simp only [ht] at h
    split at h
    · cases h
    · cases h
      simp only [hrest, List.length_drop]
      omega

end BlockHeader

/-- The loop of `unmarshalBlockHeaders`. -/
def unmarshalBlockHeadersLoop (src : Bytes) : Except String (List BlockHeader) :=
  if src = [] then .ok []
  else
    match h : BlockHeader.unmarshal src with
    | .error err => .error s!"cannot unmarshal block header: {err}"
    | .ok (bh, rest) =>
      have := BlockHeader.length_of_unmarshal h
      match unmarshalBlockHeadersLoop rest with
      | .error err => .error err
      | .ok bhs => .ok (bh :: bhs)
termination_by src.length

/-- Whether the headers are sorted by series. -/
def sortedByTsid : List BlockHeader → Bool
  | a :: b :: bhs => decide (a.tsid ≤ b.tsid) && sortedByTsid (b :: bhs)
  | _ => true

/-- Appends the headers in `src`, which must be `blockHeadersCount` many and sorted by series. -/
def unmarshalBlockHeaders (dst : List BlockHeader) (src : Bytes) (blockHeadersCount : ℕ) :
    Outcome (List BlockHeader) := do
  Outcome.assert (blockHeadersCount > 0)
    s!"BUG: blockHeadersCount must be greater than zero; got {blockHeadersCount}"
  let newBhs ← Outcome.ofExcept (unmarshalBlockHeadersLoop src)
  let n := newBhs.length
  if n ≠ blockHeadersCount then
    .err s!"invalid number of block headers found: {n}; want {blockHeadersCount} block headers"
  else if ¬ sortedByTsid newBhs then
    let text := String.intercalate ", " (newBhs.map BlockHeader.debug)
    .err s!"block headers must be sorted by tsid; unmarshaled unsorted block headers: [{text}]"
  else .ok (dst ++ newBhs)

theorem sortedByTsid_iff (bhs : List BlockHeader) :
    sortedByTsid bhs ↔ (bhs.map BlockHeader.tsid).Pairwise (· ≤ ·) := by
  rw [← List.isChain_iff_pairwise]
  induction bhs with
  | nil => simp [sortedByTsid]
  | cons a bhs ih =>
    cases bhs with
    | nil => simp [sortedByTsid]
    | cons b bhs =>
      rw [sortedByTsid, Bool.and_eq_true, decide_eq_true_iff, ih]
      simp

/-- The headers of an index block are read back one by one. -/
theorem unmarshalBlockHeadersLoop_marshal {bhs : List BlockHeader}
    (hbhs : ∀ bh ∈ bhs, bh.validate = .ok ()) :
    unmarshalBlockHeadersLoop (bhs.flatMap fun bh => bh.marshal []) = .ok bhs := by
  induction bhs with
  | nil =>
    rw [unmarshalBlockHeadersLoop]
    simp
  | cons bh bhs ih =>
    have hread := BlockHeader.unmarshal_marshal (hbhs bh List.mem_cons_self)
      (bhs.flatMap fun bh => bh.marshal [])
    have hne : bh.marshal [] ++ bhs.flatMap (fun bh => bh.marshal []) ≠ [] := by
      intro h
      have := congrArg List.length h
      simp [marshaledBlockHeaderSize] at this
    rw [List.flatMap_cons, unmarshalBlockHeadersLoop, if_neg hne]
    split
    · rename_i h
      rw [hread] at h
      cases h
    · rename_i h
      rw [hread] at h
      cases h
      rw [ih fun bh hbh => hbhs bh (List.mem_cons_of_mem _ hbh)]

/-- An index block of valid headers sorted by series is read back. -/
theorem unmarshalBlockHeaders_marshal {bhs : List BlockHeader} (hne : bhs ≠ [])
    (hbhs : ∀ bh ∈ bhs, bh.validate = .ok ())
    (hsorted : (bhs.map BlockHeader.tsid).Pairwise (· ≤ ·)) (dst : List BlockHeader) :
    unmarshalBlockHeaders dst (bhs.flatMap fun bh => bh.marshal []) bhs.length =
      .ok (dst ++ bhs) := by
  rw [unmarshalBlockHeaders, Outcome.assert_of (List.length_pos_iff.mpr hne), Outcome.ok_bind,
    unmarshalBlockHeadersLoop_marshal hbhs, Outcome.ofExcept_ok, Outcome.ok_bind]
  simp [(sortedByTsid_iff bhs).mpr hsorted]

end Esmetrics
