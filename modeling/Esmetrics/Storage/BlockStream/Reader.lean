import Esmetrics.Storage.BlockStream.Writer

/-!
# Reading a part

Model of `esm-storage/src/block_stream/reader.rs` and `mod.rs` over in-memory buffers: the reader
goes through the index blocks in the order of the metaindex, checks every header against the part
header and against its own offsets into the data files, and unpacks the blocks one by one.

`BlockStreamReader.Yields` says which blocks a reader returns until the end of its stream. A part
that was written from a list of blocks sorted by series yields their rows, and its header holds
their true counts and range (`yields_writePart`).
-/

namespace Esmetrics

open List Outcome

/-- An in-memory stream and the position of the next read. -/
structure StreamReader where
  buf : Bytes
  pos : ℕ
  deriving DecidableEq, Repr

/-- Reads the next `n` bytes. -/
def StreamReader.mustRead (r : StreamReader) (n : ℕ) : Outcome (Bytes × StreamReader) := do
  let pos := r.pos
  let len := r.buf.length
  Outcome.assert (pos + n ≤ len)
    s!"BUG: cannot read {n} bytes at offset {pos} from in-memory stream of size {len}"
  .ok ((r.buf.drop pos).take n, ⟨r.buf, pos + n⟩)

/-- Why a reader has stopped. -/
inductive BsrError where
  | eof
  | other (msg : String)
  deriving DecidableEq, Repr

/-- Unpacks a block from its header and its packed data. -/
def unmarshalBlockData (z : Zstd) (bh : BlockHeader) (timestampsData valuesData : Bytes) :
    Outcome Block :=
  if bh.rowsCount = 0 then .err "RowsCount must be greater than 0; got 0"
  else do
    let tsType := bh.timestampsMarshalType
    let valType := bh.valuesMarshalType
    let timestampsMarshalType ←
      Outcome.ofOption (MarshalType.fromU8 tsType) s!"unsupported TimestampsMarshalType: {tsType}"
    let timestamps ← unmarshalTimestamps z [] timestampsData timestampsMarshalType
      bh.minTimestamp bh.rowsCount.toNat
    let timestamps ← Block.restoreTimestamps bh timestampsMarshalType timestamps
    let valuesMarshalType ←
      Outcome.ofOption (MarshalType.fromU8 valType) s!"unsupported ValuesMarshalType: {valType}"
    let values ← unmarshalValues z [] valuesData valuesMarshalType bh.firstValue
      bh.rowsCount.toNat
    let tsCount := timestamps.length
    let valCount := values.length
    if tsCount ≠ valCount then
      .err s!"timestamps and values count mismatch; got {tsCount} vs {valCount}"
    else .ok { Block.reset with bh, timestamps, values }

/-- A reader over an in-memory part. -/
structure BlockStreamReader where
  /-- The current block. -/
  block : Block
  /-- The series of the previous block. -/
  tsidPrev : Tsid
  ph : PartHeader
  timestampsReader : StreamReader
  valuesReader : StreamReader
  indexReader : StreamReader
  mrs : List MetaindexRow
  /-- The index of the next metaindex row. -/
  mrIdx : ℕ
  /-- The index of the metaindex row of the current index block. -/
  curMr : Option ℕ
  /-- The rows read so far. -/
  rowsCount : ℕ
  /-- The blocks read so far. -/
  blocksCount : ℕ
  /-- The headers read from the current index block. -/
  indexBlockHeadersCount : UInt32
  timestampsBlockOffset : UInt64
  valuesBlockOffset : UInt64
  indexBlockOffset : UInt64
  prevTimestampsBlockOffset : UInt64
  prevTimestampsData : Bytes
  indexData : Bytes
  /-- The position of the next header in `indexData`. -/
  indexCursor : ℕ
  err : Option BsrError
  deriving DecidableEq, Repr

namespace BlockStreamReader

variable (z : Zstd)

/-- A reader over the buffers of a part. -/
def fromInmemoryPart (mp : InmemoryPart) : Outcome BlockStreamReader :=
  match unmarshalMetaindexRows z mp.metaindexData with
  | .ok mrs =>
    .ok ⟨Block.reset, default, mp.ph, ⟨mp.timestampsData, 0⟩, ⟨mp.valuesData, 0⟩,
      ⟨mp.indexData, 0⟩, mrs, 0, none, 0, 0, 0, 0, 0, 0, 0, [], [], 0, none⟩
  | .err err => .panic s!"BUG: cannot unmarshal metaindex rows from inmemoryPart: {err}"
  | .panic msg => .panic msg

/-- The last error, unless it is the end of the stream. The description of an in-memory part is
its header. -/
def error (r : BlockStreamReader) : Option String :=
  match r.err with
  | some (.other msg) =>
    let description := r.ph.display
    some s!"error when reading part \"{description}\": {msg}"
  | _ => none

/-- The offset of the current index block. -/
def prevIndexBlockOffset (r : BlockStreamReader) : UInt64 :=
  match r.curMr with
  | some cur => r.indexBlockOffset - (r.mrs.getD cur default).indexBlockSize.toUInt64
  | none => 0

/-- Loads the index block of the next metaindex row; `none` is the end of the stream. -/
def readIndexBlock (r : BlockStreamReader) : Outcome (Option BlockStreamReader) :=
  if r.mrIdx ≥ r.mrs.length then .ok none
  else do
    let mr ← Outcome.index r.mrs[r.mrIdx]?
    let offset := r.indexBlockOffset
    let mrOffset := mr.indexBlockOffset
    let mrMin := mr.minTimestamp
    let mrMax := mr.maxTimestamp
    let phMin := r.ph.minTimestamp
    let phMax := r.ph.maxTimestamp
    if offset ≠ mrOffset then
      .err s!"invalid IndexBlockOffset in metaindex row; got {mrOffset}; want {offset}"
    else if mrMin < phMin then
      .err (s!"invalid MinTimestamp in metaindex row; got {mrMin}; " ++
        s!"cannot be smaller than {phMin}")
    else if mrMax > phMax then
      .err s!"invalid MaxTimestamp in metaindex row; got {mrMax}; cannot be bigger than {phMax}"
    else
      let (compressedIndexData, indexReader) ← r.indexReader.mustRead mr.indexBlockSize.toNat
      let indexData ← (decompressZstd z [] compressedIndexData).mapErr fun err =>
        s!"cannot decompress index block at offset {offset}: {err}"
      .ok (some { r with
        curMr := some r.mrIdx
        mrIdx := r.mrIdx + 1
        indexReader
        indexData
        indexCursor := 0
        indexBlockOffset := offset + mr.indexBlockSize.toUInt64 })

/-- The number of headers that the current index block must have had. -/
def wantHeadersCount (r : BlockStreamReader) : Outcome UInt32 :=
  match r.curMr with
  | none => .ok r.indexBlockHeadersCount
  | some cur => do
    let mr ← Outcome.index r.mrs[cur]?
    .ok mr.blockHeadersCount

/-- Makes sure that there are headers left in the current index block; `none` is the end of the
stream. -/
def ensureIndexBlock (r : BlockStreamReader) : Outcome (Option BlockStreamReader) :=
  if r.indexCursor ≥ r.indexData.length then do
    let got := r.indexBlockHeadersCount
    let offset := r.prevIndexBlockOffset
    let want ← r.wantHeadersCount
    if got ≠ want then
      .err ("invalid number of block headers in the previous index block at offset " ++
        s!"{offset}; got {got}; want {want}")
    else
      ({ r with indexBlockHeadersCount := 0 }.readIndexBlock z).mapErr fun err =>
        s!"cannot read index block: {err}"
  else .ok (some r)

/-- The next header in the index block. -/
def readBlockHeader (r : BlockStreamReader) : Outcome BlockHeader :=
  let indexTail := r.indexData.drop r.indexCursor
  let len := indexTail.length
  let offset := r.prevIndexBlockOffset
  if len < marshaledBlockHeaderSize then
    .err (s!"too short index data for reading block header at offset {offset}; " ++
      s!"got {len} bytes; want {marshaledBlockHeaderSize} bytes")
  else
    match BlockHeader.unmarshal (indexTail.take marshaledBlockHeaderSize) with
    | .error err =>
      .err s!"cannot parse block header read from index data at offset {offset}: {err}"
    | .ok (bh, _) => .ok bh

/-- Checks a header against the counters, the part header and the offsets of the reader, which has
counted the block already. -/
def checkBlockHeader (r : BlockStreamReader) (bh : BlockHeader) (usePrevTimestamps : Bool) :
    Except String Unit :=
  let offset := r.prevIndexBlockOffset
  let blocks := r.blocksCount
  let phBlocks := r.ph.blocksCount
  let rows := r.rowsCount
  let phRows := r.ph.rowsCount
  let bhMin := bh.minTimestamp
  let phMin := r.ph.minTimestamp
  let bhMax := bh.maxTimestamp
  let phMax := r.ph.maxTimestamp
  let tsSize := bh.timestampsBlockSize
  let prevLen := r.prevTimestampsData.length
  let tsOffset := bh.timestampsBlockOffset
  let tsWant := r.timestampsBlockOffset
  let valOffset := bh.valuesBlockOffset
  let valWant := r.valuesBlockOffset
  if blocks > phBlocks then
    .error (s!"too many blocks found in the block stream; got {blocks}; " ++
      s!"cannot be bigger than {phBlocks}")
  else if rows > phRows then
    .error s!"too many rows found in the block stream; got {rows}; cannot be bigger than {phRows}"
  else if bhMin < phMin then
    .error (s!"invalid MinTimestamp at block header at offset {offset}; got {bhMin}; " ++
      s!"cannot be smaller than {phMin}")
  else if bhMax > phMax then
    .error (s!"invalid MaxTimestamp at block header at offset {offset}; got {bhMax}; " ++
      s!"cannot be bigger than {phMax}")
  else if usePrevTimestamps ∧ tsSize.toNat ≠ prevLen then
    .error (s!"invalid TimestampsBlockSize at block header at offset {offset}; got {tsSize}; " ++
      s!"want {prevLen}")
  else if ¬ usePrevTimestamps ∧ tsOffset ≠ tsWant then
    .error (s!"invalid TimestampsBlockOffset at block header at offset {offset}; " ++
      s!"got {tsOffset}; want {tsWant}")
  else if valOffset ≠ valWant then
    .error (s!"invalid ValuesBlockOffset at block header at offset {offset}; got {valOffset}; " ++
      s!"want {valWant}")
  else .ok ()

/-- The packed timestamps of a header: the previous ones, or the next bytes of the file, which
are remembered. -/
def readTimestampsData (r : BlockStreamReader) (bh : BlockHeader) (usePrevTimestamps : Bool) :
    Outcome (Bytes × BlockStreamReader) :=
  if usePrevTimestamps then .ok (r.prevTimestampsData, r)
  else do
    let (timestampsBuf, timestampsReader) ←
      r.timestampsReader.mustRead bh.timestampsBlockSize.toNat
    .ok (timestampsBuf, { r with
      timestampsReader
      prevTimestampsBlockOffset := r.timestampsBlockOffset
      prevTimestampsData := timestampsBuf
      timestampsBlockOffset := r.timestampsBlockOffset + bh.timestampsBlockSize.toUInt64 })

/-- Reads the block of the next header. -/
def readBlockData (r : BlockStreamReader) : Outcome BlockStreamReader := do
  let bh ← r.readBlockHeader
  let r := { r with
    indexCursor := r.indexCursor + marshaledBlockHeaderSize
    blocksCount := r.blocksCount + 1
    rowsCount := r.rowsCount + bh.rowsCount.toNat }
  let usePrevTimestamps : Bool :=
    r.prevTimestampsData ≠ [] ∧ bh.timestampsBlockOffset = r.prevTimestampsBlockOffset
  Outcome.ofExcept (r.checkBlockHeader bh usePrevTimestamps)
  let (timestampsBuf, r) ← r.readTimestampsData bh usePrevTimestamps
  let (valuesBuf, valuesReader) ← r.valuesReader.mustRead bh.valuesBlockSize.toNat
  let block ← (unmarshalBlockData z bh timestampsBuf valuesBuf).mapErr fun err =>
    s!"cannot unmarshal block: {err}"
  .ok { r with
    valuesReader
    valuesBlockOffset := r.valuesBlockOffset + bh.valuesBlockSize.toUInt64
    indexBlockHeadersCount := r.indexBlockHeadersCount + 1
    block }

/-- Reads the next block; `none` is the end of the stream. -/
def readBlock (r : BlockStreamReader) : Outcome (Option BlockStreamReader) := do
  match ← r.ensureIndexBlock z with
  | none => .ok none
  | some r => do
    let r ← r.readBlockData z
    .ok (some r)

/-- Advances the reader, and tells whether there is a block. A reader that has stopped is not
read again, so only the reason is kept of a failed step. -/
def nextBlock (r : BlockStreamReader) : Outcome (Bool × BlockStreamReader) :=
  if r.err.isSome then .ok (false, r)
  else
    let r := { r with tsidPrev := r.block.bh.tsid, block := Block.reset }
    match r.readBlock z with
    | .ok (some r) =>
      let tsid := r.block.bh.tsid.debug
      let tsidPrev := r.tsidPrev.debug
      if r.block.bh.tsid < r.tsidPrev then
        .ok (false, { r with err := some (.other
          (s!"possible data corruption: the next TSID={tsid} is smaller than the " ++
            s!"previous TSID={tsidPrev}")) })
      else .ok (true, r)
    | .ok none => .ok (false, { r with err := some .eof })
    | .err msg => .ok (false, { r with err := some (.other s!"cannot read next block: {msg}") })
    | .panic msg => .panic msg

/-- The blocks that a reader returns until it ends without an error. -/
def Yields (r : BlockStreamReader) : List Block → Prop
  | [] => ∃ r', r.nextBlock z = .ok (false, r') ∧ r'.error = none
  | b :: bs => ∃ r', r.nextBlock z = .ok (true, r') ∧ r'.block = b ∧ r'.Yields bs

end BlockStreamReader

/-! ### Reading the layout -/

/-- What is left of a stream. -/
def StreamReader.HasLeft (r : StreamReader) (rest : Bytes) : Prop :=
  r.pos ≤ r.buf.length ∧ r.buf.drop r.pos = rest

theorem StreamReader.HasLeft.exists_mustRead {r : StreamReader} {data rest : Bytes}
    (h : r.HasLeft (data ++ rest)) :
    ∃ r', r.mustRead data.length = .ok (data, r') ∧ r'.HasLeft rest := by
  obtain ⟨hpos, hdrop⟩ := h
  have hlen := congrArg List.length hdrop
  rw [length_drop, length_append] at hlen
  have hle : r.pos + data.length ≤ r.buf.length := by omega
  refine ⟨⟨r.buf, r.pos + data.length⟩, ?_, hle, ?_⟩
  · rw [mustRead, assert_of hle, ok_bind, hdrop, take_left]
  · rw [← drop_drop, hdrop, drop_left]

/-- The block that is read back from the packed form `p` of `b`. -/
def Block.readBack (b p : Block) : Block :=
  { Block.reset with bh := p.bh, timestamps := b.unreadTimestamps, values := b.unreadValues }

theorem Block.Packs.unmarshalBlockData_eq {z : Zstd} {b p : Block} (h : Block.Packs z b p) :
    unmarshalBlockData z p.bh p.timestampsData p.valuesData = .ok (b.readBack p) := by
  obtain ⟨tsType, htsType, hts, hrestore⟩ := h.unmarshal_timestamps
  obtain ⟨valType, hvalType, hvals⟩ := h.unmarshal_values
  rw [unmarshalBlockData, if_neg (Block.rowsCount_ne_zero h.validate_eq)]
  simp only [htsType, ofOption_some, ok_bind, hts, hrestore, hvalType, hvals]
  rw [if_neg (not_not.mpr h.length_eq)]
  rfl

/-- There are fewer headers in an index block than its counter can hold. -/
theorem IsIndexGroup.length_lt {g : List Block} (hg : IsIndexGroup g) : g.length < 2 ^ 32 := by
  have hsize := hg.2
  have h81 : marshaledBlockHeaderSize = 81 := rfl
  have hmax : maxBlockSize = 65536 := rfl
  rw [h81, hmax] at hsize
  omega

/-- The metaindex row of an index block: the number of its headers, its first series, and a range
that its headers attain. -/
theorem registeredRow_spec {g : List Block} (hne : g ≠ []) (hlen : g.length < 2 ^ 32) :
    (registeredRow g).blockHeadersCount.toNat = g.length ∧
      (g.map fun p => p.bh.tsid).head? = some (registeredRow g).tsid ∧
      (∃ p ∈ g, (registeredRow g).minTimestamp = p.bh.minTimestamp) ∧
      ∃ p ∈ g, (registeredRow g).maxTimestamp = p.bh.maxTimestamp := by
  induction g using List.reverseRecOn with
  | nil => exact absurd rfl hne
  | append_singleton g p ih =>
    rw [length_append, length_singleton] at hlen
    rw [registeredRow, foldl_concat]
    by_cases hg : g = []
    · subst hg
      refine ⟨rfl, rfl, ⟨p, mem_cons_self, rfl⟩, p, mem_cons_self, rfl⟩
    obtain ⟨hcount, htsid, ⟨q, hq, hmin⟩, q', hq', hmax⟩ := ih hg (by omega)
    have hpos := length_pos_iff.mpr hg
    have hcount' : ((registeredRow g).blockHeadersCount + 1).toNat = g.length + 1 := by
      rw [UInt32.toNat_add, hcount]
      exact Nat.mod_eq_of_lt hlen
    have hne1 : ¬ (registeredRow g).blockHeadersCount + 1 = 1 := by
      intro h
      rw [h] at hcount'
      have h1 : (1 : UInt32).toNat = 1 := rfl
      omega
    rw [← registeredRow, MetaindexRow.registerBlockHeader]
    simp only [hne1, if_false]
    refine ⟨?_, ?_, ?_, ?_⟩
    · split_ifs <;> simpa using hcount'
    · have hhead : ((g ++ [p]).map fun p => p.bh.tsid).head? =
          (g.map fun p => p.bh.tsid).head? := by
        rw [map_append, head?_append_of_ne_nil _ (by simpa using hg)]
      rw [hhead, htsid]
      split_ifs <;> rfl
    · split_ifs
      · exact ⟨p, by simp, rfl⟩
      · exact ⟨p, by simp, rfl⟩
      · exact ⟨q, by simp [hq], hmin⟩
      · exact ⟨q, by simp [hq], hmin⟩
    · split_ifs
      · exact ⟨p, by simp, rfl⟩
      · exact ⟨q', by simp [hq'], hmax⟩
      · exact ⟨p, by simp, rfl⟩
      · exact ⟨q', by simp [hq'], hmax⟩

namespace DataCursor

/-- The timestamps that were stored last end where the next ones begin. -/
def WF (c : DataCursor) : Prop :=
  c.prevTimestampsData ≠ [] →
    c.timestampsOffset = c.prevTimestampsOffset + UInt64.ofNat c.prevTimestampsData.length ∧
      c.prevTimestampsData.length < 2 ^ 64

theorem wf_start : start.WF := fun h => absurd rfl h

theorem WF.next {c : DataCursor} (hc : c.WF) {p : Block} (hp : p.timestampsData.length < 2 ^ 64) :
    (c.next p).WF := by
  rw [DataCursor.next]
  split_ifs with hshares
  · exact hc
  · exact fun _ => ⟨rfl, hp⟩

/-- Where the timestamps begin tells a reader whether they are shared. -/
theorem WF.shares_iff {c : DataCursor} (hc : c.WF) {p : Block} (hp : c.Locates p) :
    c.shares p ↔
      c.prevTimestampsData ≠ [] ∧ p.bh.timestampsBlockOffset = c.prevTimestampsOffset := by
  obtain ⟨hoffset, -⟩ := hp
  refine ⟨fun h => ?_, fun ⟨hne, heq⟩ => ?_⟩
  · rw [if_pos h] at hoffset
    exact ⟨(decide_eq_true_iff.mp h).1, hoffset⟩
  · by_contra hshares
    obtain ⟨hnext, hlen⟩ := hc hne
    have hpos := length_pos_iff.mpr hne
    rw [if_neg hshares, heq, hnext] at hoffset
    have hzero : UInt64.ofNat c.prevTimestampsData.length = 0 := by
      have h := UInt64.add_right_inj c.prevTimestampsOffset |>.mp
        (hoffset.symm.trans (UInt64.add_zero _).symm)
      exact h
    have := congrArg UInt64.toNat hzero
    rw [UInt64.toNat_ofNat', Nat.mod_eq_of_lt hlen] at this
    have h0 : (0 : UInt64).toNat = 0 := rfl
    omega

end DataCursor

/-- The part header admits the packed blocks. -/
structure PartHeader.Admits (ph : PartHeader) (blocksCount rowsCount : ℕ) (ps : List Block) :
    Prop where
  blocksCount_le : blocksCount + ps.length ≤ ph.blocksCount
  rowsCount_le : rowsCount + (ps.map fun p => p.bh.rowsCount.toNat).sum ≤ ph.rowsCount
  minTimestamp_le : ∀ p ∈ ps, ph.minTimestamp ≤ p.bh.minTimestamp
  le_maxTimestamp : ∀ p ∈ ps, p.bh.maxTimestamp ≤ ph.maxTimestamp

namespace BlockStreamReader

variable {z : Zstd} {compressLevel : ℤ}

/-- The offsets of a reader into the data files. -/
def dataCursor (r : BlockStreamReader) : DataCursor :=
  ⟨r.timestampsBlockOffset, r.valuesBlockOffset, r.prevTimestampsBlockOffset,
    r.prevTimestampsData⟩

/-- The reader stands before the packed blocks `cur` of the current index block and the index
blocks `gs` behind it. -/
structure Before (z : Zstd) (compressLevel : ℤ) (cur : List Block) (gs : List (List Block))
    (r : BlockStreamReader) : Prop where
  err_eq : r.err = none
  wf : r.dataCursor.WF
  locatesAll : r.dataCursor.LocatesAll (cur ++ gs.flatten)
  timestamps_left : r.timestampsReader.HasLeft (r.dataCursor.timestampsFile (cur ++ gs.flatten))
  values_left : r.valuesReader.HasLeft ((cur ++ gs.flatten).flatMap Block.valuesData)
  index_left : r.indexReader.HasLeft (gs.flatMap (indexBlock z compressLevel))
  indexData_left : r.indexData.drop r.indexCursor = cur.flatMap fun p => p.bh.marshal []
  rows_left : r.mrs.drop r.mrIdx = indexRows z compressLevel r.indexBlockOffset gs
  headersCount_eq : ∀ i, r.curMr = some i → ∃ mr, r.mrs[i]? = some mr ∧
    r.indexBlockHeadersCount + UInt32.ofNat cur.length = mr.blockHeadersCount
  isIndexGroup : ∀ g ∈ gs, IsIndexGroup g
  admits : r.ph.Admits r.blocksCount r.rowsCount (cur ++ gs.flatten)

variable {r : BlockStreamReader} {p b : Block} {cur ps : List Block}

/-- The header of the next block is read back. -/
theorem Before.readBlockHeader_eq {gs : List (List Block)}
    (h : r.Before z compressLevel (p :: cur) gs)
    (hp : p.bh.validate = .ok ()) : r.readBlockHeader = .ok p.bh := by
  have hleft := h.indexData_left
  have hsize : marshaledBlockHeaderSize = (p.bh.marshal []).length := by
    rw [BlockHeader.length_marshal, length_nil, Nat.zero_add]
  have hread := BlockHeader.unmarshal_marshal hp []
  rw [append_nil] at hread
  rw [flatMap_cons] at hleft
  simp only [readBlockHeader, hleft]
  rw [if_neg (by rw [length_append, ← hsize]; omega), hsize, take_left, hread]

/-- The header of the next block passes the checks. -/
theorem Before.checkBlockHeader_eq {gs : List (List Block)}
    (h : r.Before z compressLevel (p :: cur) gs)
    (hp : Block.Packs z b p) :
    { r with
      indexCursor := r.indexCursor + marshaledBlockHeaderSize
      blocksCount := r.blocksCount + 1
      rowsCount := r.rowsCount + p.bh.rowsCount.toNat }.checkBlockHeader p.bh
        (r.dataCursor.shares p) = .ok () := by
  obtain ⟨hblocks, hrows, hmin, hmax⟩ := h.admits
  obtain ⟨hts, hvals⟩ := h.locatesAll.1
  rw [cons_append, length_cons] at hblocks
  rw [cons_append, map_cons, sum_cons] at hrows
  have hmin := not_lt.mpr (hmin p (by simp))
  have hmax := not_lt.mpr (hmax p (by simp))
  have hsize : ¬ (r.dataCursor.shares p ∧
      p.bh.timestampsBlockSize.toNat ≠ r.prevTimestampsData.length) := by
    rintro ⟨hshares, hne⟩
    refine hne ?_
    rw [hp.timestampsBlockSize_eq, (decide_eq_true_iff.mp hshares).2]
    rfl
  have hoffset : ¬ (¬ r.dataCursor.shares p ∧
      p.bh.timestampsBlockOffset ≠ r.timestampsBlockOffset) := by
    rintro ⟨hshares, hne⟩
    rw [if_neg hshares] at hts
    exact hne hts
  have hvals : ¬ p.bh.valuesBlockOffset ≠ r.valuesBlockOffset := not_not.mpr hvals
  simp only [checkBlockHeader]
  rw [if_neg (by omega), if_neg (by omega), if_neg hmin, if_neg hmax, if_neg hsize, if_neg hoffset,
    if_neg hvals]

private theorem toUInt64_eq_ofNat {u : UInt32} {n : ℕ} (h : u.toNat = n) :
    u.toUInt64 = UInt64.ofNat n := by
  rw [← h]
  exact UInt64.toNat_inj.mp (by simp)

/-- The packed timestamps of the next block are read, from the file or from memory. -/
theorem exists_readTimestampsData (hp : Block.Packs z b p)
    (hleft : r.timestampsReader.HasLeft (r.dataCursor.timestampsFile (p :: ps))) :
    ∃ timestampsReader,
      r.readTimestampsData p.bh (r.dataCursor.shares p) = .ok (p.timestampsData,
        { r with
          timestampsReader
          prevTimestampsBlockOffset := (r.dataCursor.next p).prevTimestampsOffset
          prevTimestampsData := (r.dataCursor.next p).prevTimestampsData
          timestampsBlockOffset := (r.dataCursor.next p).timestampsOffset }) ∧
      timestampsReader.HasLeft ((r.dataCursor.next p).timestampsFile ps) := by
  rw [DataCursor.timestampsFile, DataCursor.stored] at hleft
  by_cases hshares : r.dataCursor.shares p = true
  · have hdata : p.timestampsData = r.prevTimestampsData := (decide_eq_true_iff.mp hshares).2
    rw [if_pos hshares, nil_append] at hleft
    refine ⟨r.timestampsReader, ?_, hleft⟩
    rw [readTimestampsData, if_pos hshares, hdata, DataCursor.next, if_pos hshares]
    rfl
  · rw [if_neg hshares] at hleft
    obtain ⟨timestampsReader, hread, hrest⟩ := hleft.exists_mustRead
    refine ⟨timestampsReader, ?_, hrest⟩
    rw [readTimestampsData, if_neg hshares, hp.timestampsBlockSize_eq, hread, ok_bind,
      toUInt64_eq_ofNat hp.timestampsBlockSize_eq, DataCursor.next, if_neg hshares]
    rfl

/-- The next block of the current index block is read back. -/
theorem Before.exists_readBlockData {gs : List (List Block)}
    (h : r.Before z compressLevel (p :: cur) gs)
    (hp : Block.Packs z b p) :
    ∃ r', r.readBlockData z = .ok r' ∧ r'.block = b.readBack p ∧ r'.tsidPrev = r.tsidPrev ∧
      r'.Before z compressLevel cur gs := by
  have hsize : p.timestampsData.length < 2 ^ 64 := by
    rw [← hp.timestampsBlockSize_eq]
    exact Nat.lt_trans (UInt32.toNat_lt_size _) (by decide)
  have hshares : (decide (r.prevTimestampsData ≠ [] ∧
      p.bh.timestampsBlockOffset = r.prevTimestampsBlockOffset) :
      Bool) = r.dataCursor.shares p := by
    rw [Bool.eq_iff_iff, decide_eq_true_iff]
    exact (h.wf.shares_iff h.locatesAll.1).symm
  set r1 : BlockStreamReader := { r with
    indexCursor := r.indexCursor + marshaledBlockHeaderSize
    blocksCount := r.blocksCount + 1
    rowsCount := r.rowsCount + p.bh.rowsCount.toNat } with hr1
  have hleft1 : r1.timestampsReader.HasLeft
      (r1.dataCursor.timestampsFile (p :: (cur ++ gs.flatten))) := h.timestamps_left
  obtain ⟨timestampsReader, htimestamps, htsLeft⟩ := exists_readTimestampsData hp hleft1
  have hvaluesLeft := h.values_left
  rw [cons_append, flatMap_cons] at hvaluesLeft
  obtain ⟨valuesReader, hvalues, hvalsLeft⟩ := hvaluesLeft.exists_mustRead
  have hindex : r.indexData.drop (r.indexCursor + marshaledBlockHeaderSize) =
      cur.flatMap fun p => p.bh.marshal [] := by
    have hlen : marshaledBlockHeaderSize = (p.bh.marshal []).length := by
      rw [BlockHeader.length_marshal, length_nil, Nat.zero_add]
    rw [← drop_drop, h.indexData_left, flatMap_cons, hlen, drop_left]
  have hadmits := h.admits
  have hnext : r.valuesBlockOffset + p.bh.valuesBlockSize.toUInt64 =
      (r.dataCursor.next p).valuesOffset := by
    rw [toUInt64_eq_ofNat hp.valuesBlockSize_eq, DataCursor.next]
    split_ifs <;> rfl
  refine ⟨{ r1 with
    timestampsReader
    prevTimestampsBlockOffset := (r.dataCursor.next p).prevTimestampsOffset
    prevTimestampsData := (r.dataCursor.next p).prevTimestampsData
    timestampsBlockOffset := (r.dataCursor.next p).timestampsOffset
    valuesReader
    valuesBlockOffset := (r.dataCursor.next p).valuesOffset
    indexBlockHeadersCount := r.indexBlockHeadersCount + 1
    block := b.readBack p }, ?_, rfl, rfl, ?_⟩
  · simp only [readBlockData, h.readBlockHeader_eq hp.validate_eq, ok_bind, hshares,
      h.checkBlockHeader_eq hp, ofExcept_ok]
    rw [← hr1, show r.dataCursor.shares p = r1.dataCursor.shares p from rfl, htimestamps]
    simp only [ok_bind, hp.valuesBlockSize_eq]
    rw [show r1.valuesReader = r.valuesReader from rfl, hvalues]
    simp only [ok_bind, hp.unmarshalBlockData_eq, mapErr_ok]
    rw [← hnext]
    rfl
  · refine ⟨h.err_eq, h.wf.next hsize, h.locatesAll.2, htsLeft, hvalsLeft, h.index_left, hindex,
      h.rows_left, ?_, h.isIndexGroup, ?_⟩
    · intro i hi
      obtain ⟨mr, hmr, hcount⟩ := h.headersCount_eq i hi
      refine ⟨mr, hmr, ?_⟩
      rw [← hcount, length_cons]
      simp only [UInt32.ofNat_add]
      grind
    · refine ⟨?_, ?_, fun q hq => hadmits.minTimestamp_le q (mem_cons_of_mem _ hq),
        fun q hq => hadmits.le_maxTimestamp q (mem_cons_of_mem _ hq)⟩
      · have hblocks := hadmits.blocksCount_le
        rw [cons_append, length_cons] at hblocks
        simp only [hr1]
        omega
      · have hrows := hadmits.rowsCount_le
        rw [cons_append, map_cons, sum_cons] at hrows
        simp only [hr1]
        omega

/-- The size of an index block fits its field in the metaindex row. -/
theorem toNat_indexBlockSize (compressLevel : ℤ) (hfit : z.IndexBlocksFit) {g : List Block}
    (hg : IsIndexGroup g)
    (offset : UInt64) : (indexRow z compressLevel offset g).indexBlockSize.toNat =
      (indexBlock z compressLevel g).length := by
  have hlen : (g.flatMap fun p => p.bh.marshal []).length ≤ maxBlockSize := by
    rw [length_flatMap_marshal]
    exact hg.2
  have hlt : (indexBlock z compressLevel g).length < 2 ^ 32 :=
    Nat.lt_of_le_of_lt (hfit _ compressLevel hlen) (by decide)
  rw [indexRow, UInt32.toNat_ofNat', Nat.mod_eq_of_lt hlt]

/-- The headers of the current index block have all been counted. -/
theorem Before.wantHeadersCount_eq {gs : List (List Block)} (h : r.Before z compressLevel [] gs) :
    r.wantHeadersCount = .ok r.indexBlockHeadersCount := by
  cases hcur : r.curMr with
  | none => simp only [wantHeadersCount, hcur]
  | some i =>
    obtain ⟨mr, hmr, hcount⟩ := h.headersCount_eq i hcur
    have hzero : r.indexBlockHeadersCount + UInt32.ofNat 0 = r.indexBlockHeadersCount :=
      UInt32.add_zero _
    rw [length_nil, hzero] at hcount
    simp only [wantHeadersCount, hcur, hmr, index_some, ok_bind, hcount]

/-- At the end of an index block the next one is loaded. -/
theorem Before.exists_ensureIndexBlock (hz : z.RoundTrips) (hfit : z.IndexBlocksFit)
    {g : List Block} {gs : List (List Block)} (h : r.Before z compressLevel [] (g :: gs)) :
    ∃ r', r.ensureIndexBlock z = .ok (some r') ∧ r'.tsidPrev = r.tsidPrev ∧
      r'.Before z compressLevel g gs := by
  have hg := h.isIndexGroup g mem_cons_self
  obtain ⟨hcount, -, ⟨p, hp, hpmin⟩, q, hq, hqmax⟩ := registeredRow_spec hg.1 hg.length_lt
  have hend : r.indexCursor ≥ r.indexData.length := by
    rw [ge_iff_le, ← drop_eq_nil_iff]
    exact h.indexData_left
  have hrows := h.rows_left
  rw [indexRows] at hrows
  have hrow : r.mrs[r.mrIdx]? = some (indexRow z compressLevel r.indexBlockOffset g) := by
    rw [← Nat.add_zero r.mrIdx, ← getElem?_drop, hrows]
    rfl
  have hidx : ¬ r.mrIdx ≥ r.mrs.length := by
    intro hge
    rw [getElem?_eq_none hge] at hrow
    cases hrow
  have hmin : ¬ (registeredRow g).minTimestamp < r.ph.minTimestamp := by
    rw [hpmin]
    exact not_lt.mpr (h.admits.minTimestamp_le p (by simp [hp]))
  have hmax : ¬ (registeredRow g).maxTimestamp > r.ph.maxTimestamp := by
    rw [hqmax]
    exact not_lt.mpr (h.admits.le_maxTimestamp q (by simp [hq]))
  have hindexLeft := h.index_left
  rw [flatMap_cons] at hindexLeft
  obtain ⟨indexReader, hread, hleft⟩ := hindexLeft.exists_mustRead
  have hsize := toNat_indexBlockSize compressLevel hfit hg r.indexBlockOffset
  refine ⟨{ r with
    indexBlockHeadersCount := 0
    curMr := some r.mrIdx
    mrIdx := r.mrIdx + 1
    indexReader
    indexData := g.flatMap fun p => p.bh.marshal []
    indexCursor := 0
    indexBlockOffset :=
      r.indexBlockOffset + UInt64.ofNat (indexBlock z compressLevel g).length }, ?_, rfl, ?_⟩
  · rw [ensureIndexBlock, if_pos hend]
    simp only [h.wantHeadersCount_eq, ok_bind, ne_eq, not_true_eq_false, if_false]
    rw [readIndexBlock, if_neg hidx]
    simp only [hrow, index_some, ok_bind, hsize, hread]
    rw [show (indexRow z compressLevel r.indexBlockOffset g).indexBlockOffset = r.indexBlockOffset
      from rfl, show (indexRow z compressLevel r.indexBlockOffset g).minTimestamp =
      (registeredRow g).minTimestamp from rfl, show (indexRow z compressLevel r.indexBlockOffset
      g).maxTimestamp = (registeredRow g).maxTimestamp from rfl, if_neg (not_not.mpr rfl),
      if_neg hmin, if_neg hmax, toUInt64_eq_ofNat hsize, indexBlock, hz, mapErr_ok,
      ok_bind, mapErr_ok]
  · refine ⟨h.err_eq, h.wf, h.locatesAll, h.timestamps_left, h.values_left, hleft, rfl, ?_, ?_,
      fun g hg => h.isIndexGroup g (mem_cons_of_mem _ hg), h.admits⟩
    · rw [← drop_drop, hrows]
      rfl
    · intro i hi
      obtain rfl : r.mrIdx = i := Option.some.inj hi
      refine ⟨_, hrow, ?_⟩
      refine UInt32.toNat_inj.mp ?_
      rw [UInt32.zero_add, UInt32.toNat_ofNat', Nat.mod_eq_of_lt hg.length_lt]
      exact hcount.symm

/-- Inside an index block nothing is loaded. -/
theorem Before.ensureIndexBlock_eq {gs : List (List Block)}
    (h : r.Before z compressLevel (p :: cur) gs) :
    r.ensureIndexBlock z = .ok (some r) := by
  refine if_neg fun hge => ?_
  have hlen := congrArg List.length h.indexData_left
  rw [drop_eq_nil_iff.mpr hge, length_flatMap_marshal, length_cons] at hlen
  have h81 : marshaledBlockHeaderSize = 81 := rfl
  rw [length_nil, h81] at hlen
  omega

/-- The next block is read back, from the current index block or from the next one. -/
theorem Before.exists_readBlock (hz : z.RoundTrips) (hfit : z.IndexBlocksFit)
    {gs : List (List Block)}
    (h : r.Before z compressLevel cur gs) (hps : cur ++ gs.flatten = p :: ps)
    (hp : Block.Packs z b p) :
    ∃ r' cur' gs', r.readBlock z = .ok (some r') ∧ r'.block = b.readBack p ∧
      r'.tsidPrev = r.tsidPrev ∧ cur' ++ gs'.flatten = ps ∧ r'.Before z compressLevel cur' gs' := by
  match cur, gs with
  | [], [] => simp at hps
  | [], [] :: gs => exact absurd rfl (h.isIndexGroup [] mem_cons_self).1
  | [], (q :: g) :: gs =>
    obtain ⟨rfl, rfl⟩ : q = p ∧ g ++ gs.flatten = ps := by simpa using hps
    obtain ⟨r1, hensure, htsid, h1⟩ := h.exists_ensureIndexBlock hz hfit
    obtain ⟨r', hread, hblock, htsid', h'⟩ := h1.exists_readBlockData hp
    refine ⟨r', g, gs, ?_, hblock, htsid'.trans htsid, rfl, h'⟩
    simp only [readBlock, hensure, ok_bind, hread]
  | q :: cur, gs =>
    obtain ⟨rfl, rfl⟩ : q = p ∧ cur ++ gs.flatten = ps := by simpa using hps
    obtain ⟨r', hread, hblock, htsid', h'⟩ := h.exists_readBlockData hp
    refine ⟨r', cur, gs, ?_, hblock, htsid', rfl, h'⟩
    simp only [readBlock, h.ensureIndexBlock_eq, ok_bind, hread]

/-- Behind the last index block is the end of the stream. -/
theorem Before.readBlock_eq_none (h : r.Before z compressLevel [] []) :
    r.readBlock z = .ok none := by
  have hend : r.indexCursor ≥ r.indexData.length := by
    rw [ge_iff_le, ← drop_eq_nil_iff]
    exact h.indexData_left
  have hidx : r.mrIdx ≥ r.mrs.length := by
    rw [ge_iff_le, ← drop_eq_nil_iff]
    exact h.rows_left
  have hensure : r.ensureIndexBlock z = .ok none := by
    rw [ensureIndexBlock, if_pos hend]
    simp only [h.wantHeadersCount_eq, ok_bind, ne_eq, not_true_eq_false, if_false]
    rw [readIndexBlock, if_pos hidx, mapErr_ok]
  simp only [readBlock, hensure, ok_bind]

/-- The current block is not part of what the reader has ahead. -/
theorem Before.setBlock {gs : List (List Block)} (h : r.Before z compressLevel cur gs)
    (tsidPrev : Tsid) (block : Block) :
    { r with tsidPrev, block }.Before z compressLevel cur gs :=
  ⟨h.err_eq, h.wf, h.locatesAll, h.timestamps_left, h.values_left, h.index_left, h.indexData_left,
    h.rows_left, h.headersCount_eq, h.isIndexGroup, h.admits⟩

theorem Before.not_stopped {gs : List (List Block)} (h : r.Before z compressLevel cur gs) :
    ¬ r.err.isSome = true := by
  rw [h.err_eq]
  decide

/-- A reader returns the blocks that it has ahead. -/
theorem Before.yields (hz : z.RoundTrips) (hfit : z.IndexBlocksFit) {bs : List Block}
    (hpacks : List.Forall₂ (Block.Packs z) bs ps) {gs : List (List Block)}
    (h : r.Before z compressLevel cur gs)
    (hps : cur ++ gs.flatten = ps)
    (hsorted : (r.block.bh.tsid :: ps.map fun p => p.bh.tsid).Pairwise (· ≤ ·)) :
    r.Yields z (List.zipWith Block.readBack bs ps) := by
  induction hpacks generalizing r cur gs with
  | nil =>
    have hgo := h.not_stopped
    obtain ⟨rfl, hflat⟩ := append_eq_nil_iff.mp hps
    obtain rfl : gs = [] := by
      rw [eq_nil_iff_forall_not_mem]
      intro g hg
      exact (h.isIndexGroup g hg).1 (flatten_eq_nil_iff.mp hflat g hg)
    refine ⟨{ r with tsidPrev := r.block.bh.tsid, block := Block.reset, err := some .eof }, ?_, rfl⟩
    have hread := (h.setBlock r.block.bh.tsid Block.reset).readBlock_eq_none
    simp only [nextBlock, if_neg hgo, hread]
  | @cons b p bs ps hp hpacks ih =>
    have hgo := h.not_stopped
    obtain ⟨r', cur', gs', hread, hblock, htsid, hps', h'⟩ :=
      (h.setBlock r.block.bh.tsid Block.reset).exists_readBlock hz hfit hps hp
    obtain ⟨hfirst, hrest⟩ := pairwise_cons.mp hsorted
    refine ⟨r', ?_, hblock, ih h' hps' ?_⟩
    · have hlt : ¬ r'.block.bh.tsid < r'.tsidPrev := by
        rw [hblock, htsid]
        exact not_lt.mpr (hfirst _ mem_cons_self)
      simp only [nextBlock, if_neg hgo, hread, if_neg hlt]
    · rw [hblock]
      exact hrest

end BlockStreamReader

/-! ### Round trip -/

private theorem foldl_min_spec {α : Type} [LinearOrder α] (a : α) (l : List α) :
    l.foldl min a ∈ a :: l ∧ ∀ x ∈ a :: l, l.foldl min a ≤ x := by
  induction l generalizing a with
  | nil => simp
  | cons b l ih =>
    obtain ⟨hmem, hle⟩ := ih (min a b)
    have hmin := hle (min a b) mem_cons_self
    refine ⟨?_, fun x hx => ?_⟩
    · rcases mem_cons.mp hmem with h | h
      · rw [foldl_cons, h]
        rcases min_choice a b with h | h <;> simp [h]
      · exact mem_cons_of_mem _ (mem_cons_of_mem _ h)
    · rcases mem_cons.mp hx with rfl | hx
      · exact hmin.trans (min_le_left _ _)
      · rcases mem_cons.mp hx with rfl | hx
        · exact hmin.trans (min_le_right _ _)
        · exact hle x (mem_cons_of_mem _ hx)

/-- The least item of a list, by a loop that starts from an upper bound. -/
private theorem isLeast_foldl_min {α : Type} [LinearOrder α] {a : α} {l : List α} (hne : l ≠ [])
    (ha : ∀ x ∈ l, x ≤ a) : IsLeast {x | x ∈ l} (l.foldl min a) := by
  obtain ⟨hmem, hle⟩ := foldl_min_spec a l
  refine ⟨?_, fun x hx => hle x (mem_cons_of_mem _ hx)⟩
  rcases mem_cons.mp hmem with h | h
  · obtain ⟨x, hx⟩ := exists_mem_of_ne_nil l hne
    have hxa : l.foldl min a = x := le_antisymm (hle x (mem_cons_of_mem _ hx))
      ((ha x hx).trans_eq h.symm)
    rw [hxa]
    exact hx
  · exact h

/-- The header of a part counts its blocks and rows and has the ends of their range. -/
theorem foldl_updatePartHeader (ps : List Block) (ph : PartHeader) :
    let ph' := ps.foldl (fun ph p => updatePartHeader p ph) ph
    ph'.blocksCount = ph.blocksCount + ps.length ∧
      ph'.rowsCount = ph.rowsCount + (ps.map fun p => p.bh.rowsCount.toNat).sum ∧
      ph'.minTimestamp = (ps.map fun p => p.bh.minTimestamp).foldl min ph.minTimestamp ∧
      ph'.maxTimestamp = (ps.map fun p => p.bh.maxTimestamp).foldl max ph.maxTimestamp := by
  induction ps generalizing ph with
  | nil => simp
  | cons p ps ih =>
    obtain ⟨hblocks, hrows, hmin, hmax⟩ := ih (updatePartHeader p ph)
    have hb : (updatePartHeader p ph).blocksCount = ph.blocksCount + 1 := by
      simp only [updatePartHeader]
      split_ifs <;> rfl
    have hr : (updatePartHeader p ph).rowsCount = ph.rowsCount + p.bh.rowsCount.toNat := by
      simp only [updatePartHeader]
      split_ifs <;> rfl
    have hmn : (updatePartHeader p ph).minTimestamp = min ph.minTimestamp p.bh.minTimestamp := by
      simp only [updatePartHeader]
      split_ifs with h1 h2 h2
      · exact (min_eq_right h1.le).symm
      · exact (min_eq_right h1.le).symm
      · exact (min_eq_left (not_lt.mp h1)).symm
      · exact (min_eq_left (not_lt.mp h1)).symm
    have hmx : (updatePartHeader p ph).maxTimestamp = max ph.maxTimestamp p.bh.maxTimestamp := by
      simp only [updatePartHeader]
      split_ifs with h1 h2 h2
      · exact (max_eq_right (le_of_lt h2)).symm
      · exact (max_eq_left (not_lt.mp h2)).symm
      · exact (max_eq_right (le_of_lt h2)).symm
      · exact (max_eq_left (not_lt.mp h2)).symm
    simp only [foldl_cons, length_cons, map_cons, sum_cons]
    refine ⟨?_, ?_, ?_, ?_⟩
    · rw [hblocks, hb]
      omega
    · rw [hrows, hr]
      omega
    · rw [hmin, hmn]
    · rw [hmax, hmx]

/-- What a block says: its series, its scale and its unread rows. -/
def Block.content (b : Block) : Tsid × Int16 × List Int64 × List Int64 :=
  (b.bh.tsid, b.bh.scale, b.unreadTimestamps, b.unreadValues)

private theorem map_eq_map_of_forall₂ {α β γ : Type} {R : α → β → Prop} {f : α → γ} {g : β → γ}
    (hR : ∀ a b, R a b → f a = g b) {as : List α} {bs : List β} (h : List.Forall₂ R as bs) :
    as.map f = bs.map g := by
  induction h with
  | nil => rfl
  | cons hab _ ih => rw [map_cons, map_cons, hR _ _ hab, ih]

section Layout

variable {z : Zstd} {compressLevel : ℤ} {bs : List Block} {gs : List (List Block)}
  {part : InmemoryPart}

/-- The first series of the index blocks are among those of the blocks, in their order. -/
theorem pairwise_tsid_indexRows (hgs : ∀ g ∈ gs, IsIndexGroup g)
    (hsorted : (gs.flatten.map fun p => p.bh.tsid).Pairwise (· ≤ ·)) (offset : UInt64) :
    ((indexRows z compressLevel offset gs).map MetaindexRow.tsid).Pairwise (· ≤ ·) ∧
      ∀ mr ∈ indexRows z compressLevel offset gs,
        mr.tsid ∈ gs.flatten.map fun p => p.bh.tsid := by
  induction gs generalizing offset with
  | nil => simp [indexRows]
  | cons g gs ih =>
    have hg := hgs g mem_cons_self
    obtain ⟨-, hhead, -, -⟩ := registeredRow_spec hg.1 hg.length_lt
    have hfirst : (registeredRow g).tsid ∈ g.map fun p => p.bh.tsid := mem_of_mem_head? hhead
    rw [flatten_cons, map_append] at hsorted ⊢
    obtain ⟨-, hrest, hacross⟩ := pairwise_append.mp hsorted
    obtain ⟨ihsorted, ihmem⟩ := ih (fun g hg => hgs g (mem_cons_of_mem _ hg)) hrest
      (offset + UInt64.ofNat (indexBlock z compressLevel g).length)
    refine ⟨pairwise_cons.mpr ⟨?_, ihsorted⟩, fun mr hmr => ?_⟩
    · intro t ht
      obtain ⟨mr, hmr, rfl⟩ := mem_map.mp ht
      exact hacross _ hfirst _ (ihmem mr hmr)
    · rcases mem_cons.mp hmr with rfl | hmr
      · exact mem_append_left _ hfirst
      · exact mem_append_right _ (ihmem mr hmr)

theorem validate_of_mem_indexRows (hfit : z.IndexBlocksFit) (hgs : ∀ g ∈ gs, IsIndexGroup g)
    (offset : UInt64) : ∀ mr ∈ indexRows z compressLevel offset gs, mr.validate = .ok () := by
  induction gs generalizing offset with
  | nil => simp [indexRows]
  | cons g gs ih =>
    intro mr hmr
    rcases mem_cons.mp hmr with rfl | hmr
    · have hg := hgs g mem_cons_self
      have hsize := BlockStreamReader.toNat_indexBlockSize compressLevel hfit hg offset
      have hbound := hfit (g.flatMap fun p => p.bh.marshal []) compressLevel
        (by rw [length_flatMap_marshal]; exact hg.2)
      obtain ⟨hcount, -⟩ := registeredRow_spec hg.1 hg.length_lt
      have hzero : ¬ (indexRow z compressLevel offset g).blockHeadersCount = 0 := by
        intro h
        rw [show (indexRow z compressLevel offset g).blockHeadersCount =
          (registeredRow g).blockHeadersCount from rfl] at h
        rw [h] at hcount
        exact hg.1 (length_eq_zero_iff.mp hcount.symm)
      simp only [MetaindexRow.validate, if_neg hzero]
      rw [if_neg (by rw [hsize]; exact Nat.not_lt.mpr hbound)]
    · exact ih (fun g hg => hgs g (mem_cons_of_mem _ hg)) _ mr hmr

/-- A reader over the buffers stands before all the blocks. -/
theorem IsLayoutOf.exists_before (hz : z.RoundTrips) (hfit : z.IndexBlocksFit)
    (h : IsLayoutOf z compressLevel bs gs part) (hne : bs ≠ [])
    (hsorted : (bs.map fun b => b.bh.tsid).Pairwise (· ≤ ·)) :
    ∃ r, BlockStreamReader.fromInmemoryPart z part = .ok r ∧ r.block = Block.reset ∧
      r.Before z compressLevel [] gs := by
  have htsid : (bs.map fun b => b.bh.tsid) = gs.flatten.map fun p => p.bh.tsid :=
    map_eq_map_of_forall₂ (fun _ _ hp => hp.tsid_eq.symm) h.packs
  rw [htsid] at hsorted
  have hrows : indexRows z compressLevel 0 gs ≠ [] := by
    intro hnil
    match gs, h.packs, hnil with
    | [], hpacks, _ => exact hne (forall₂_nil_right_iff.mp hpacks)
  have hmrs := unmarshalMetaindexRows_marshal hz hrows
    (validate_of_mem_indexRows hfit h.isIndexGroup 0)
    (pairwise_tsid_indexRows h.isIndexGroup hsorted 0).1 compressLevel
  rw [← h.metaindexData_eq] at hmrs
  refine ⟨_, by rw [BlockStreamReader.fromInmemoryPart, hmrs], rfl, ?_⟩
  obtain ⟨hblocks, hrowsCount, hmin, hmax⟩ := foldl_updatePartHeader gs.flatten default
  rw [← h.ph_eq] at hblocks hrowsCount hmin hmax
  have hzero : (default : PartHeader).blocksCount = 0 ∧ (default : PartHeader).rowsCount = 0 :=
    ⟨rfl, rfl⟩
  refine ⟨rfl, DataCursor.wf_start, h.locatesAll, ⟨Nat.zero_le _, h.timestampsData_eq⟩,
    ⟨Nat.zero_le _, h.valuesData_eq⟩, ⟨Nat.zero_le _, h.indexData_eq⟩, rfl, rfl,
    fun i hi => (nomatch hi), h.isIndexGroup, ?_, ?_, ?_, ?_⟩
  · rw [hblocks, hzero.1, nil_append]
  · rw [hrowsCount, hzero.2, nil_append]
  · intro p hp
    rw [hmin]
    exact (foldl_min_spec _ _).2 _ (mem_cons_of_mem _ (mem_map_of_mem hp))
  · intro p hp
    rw [hmax]
    exact (foldl_min_spec (α := Int64ᵒᵈ) _ _).2 _ (mem_cons_of_mem _ (mem_map_of_mem hp))

/-- The blocks that are read back say what the written ones say. -/
theorem map_content_readBack {ps : List Block} (h : List.Forall₂ (Block.Packs z) bs ps) :
    (List.zipWith Block.readBack bs ps).map Block.content = bs.map Block.content := by
  induction h with
  | nil => rfl
  | cons hp _ ih =>
    rw [zipWith_cons_cons, map_cons, map_cons, ih, Block.content, Block.content,
      ← hp.tsid_eq, ← hp.scale_eq]
    rfl

theorem exists_of_mem_left {α β : Type} {R : α → β → Prop} {as : List α} {bs : List β}
    (h : List.Forall₂ R as bs) {a : α} (ha : a ∈ as) : ∃ b ∈ bs, R a b := by
  induction h with
  | nil => cases ha
  | cons hab _ ih =>
    rcases mem_cons.mp ha with rfl | ha
    · exact ⟨_, mem_cons_self, hab⟩
    · obtain ⟨b, hb, hR⟩ := ih ha
      exact ⟨b, mem_cons_of_mem _ hb, hR⟩

/-- The header of the part holds the true counts and the true range. -/
theorem IsLayoutOf.ph_spec (h : IsLayoutOf z compressLevel bs gs part) (hne : bs ≠ [])
    (hbs : ∀ b ∈ bs, b.Writable) :
    part.ph.blocksCount = bs.length ∧
      part.ph.rowsCount = (bs.map fun b => b.unreadValues.length).sum ∧
      IsLeast {t | ∃ b ∈ bs, t ∈ b.unreadTimestamps} part.ph.minTimestamp ∧
      IsGreatest {t | ∃ b ∈ bs, t ∈ b.unreadTimestamps} part.ph.maxTimestamp := by
  obtain ⟨hblocks, hrows, hmin, hmax⟩ := foldl_updatePartHeader gs.flatten default
  rw [← h.ph_eq] at hblocks hrows hmin hmax
  have hlen := h.packs.length_eq
  have hflat : gs.flatten ≠ [] := by
    rw [← length_pos_iff, ← hlen]
    exact length_pos_iff.mpr hne
  have hsum : (bs.map fun b => b.unreadValues.length) =
      gs.flatten.map fun p => p.bh.rowsCount.toNat :=
    map_eq_map_of_forall₂ (fun _ _ hp => hp.rowsCount_eq.symm) h.packs
  have hmap : ∀ f : Block → Int64, gs.flatten.map f ≠ [] := fun f h => hflat (map_eq_nil_iff.mp h)
  have hleast := isLeast_foldl_min (a := Int64.maxValue)
    (l := gs.flatten.map fun p => p.bh.minTimestamp) (hmap _) fun x _ => Int64.le_maxValue x
  have hgreatest := isLeast_foldl_min (α := Int64ᵒᵈ) (a := Int64.minValue)
    (l := gs.flatten.map fun p => p.bh.maxTimestamp) (hmap _) fun x _ => Int64.minValue_le x
  refine ⟨?_, ?_, ⟨?_, ?_⟩, ?_, ?_⟩
  · rw [hblocks, hlen]
    exact Nat.zero_add _
  · rw [hrows, hsum]
    exact Nat.zero_add _
  · obtain ⟨p, hp, heq⟩ := mem_map.mp hleast.1
    obtain ⟨b, hb, hpacks⟩ := exists_of_mem_left h.packs.flip hp
    refine ⟨b, hb, mem_of_mem_head? ?_⟩
    rw [hpacks.minTimestamp_eq, hmin]
    exact congrArg some heq
  · rintro t ⟨b, hb, ht⟩
    obtain ⟨p, hp, hpacks⟩ := exists_of_mem_left h.packs hb
    have hle : part.ph.minTimestamp ≤ p.bh.minTimestamp := by
      rw [hmin]
      exact hleast.2 (mem_map.mpr ⟨p, hp, rfl⟩)
    refine hle.trans ?_
    have hhead := hpacks.minTimestamp_eq
    have hsort := (hbs b hb).sorted
    match hts : b.unreadTimestamps with
    | [] => simp [hts] at ht
    | first :: rest =>
      rw [hts] at hhead hsort ht
      obtain rfl : first = p.bh.minTimestamp := by simpa using hhead
      rcases mem_cons.mp ht with rfl | ht
      · exact le_rfl
      · exact (pairwise_cons.mp hsort).1 t ht
  · obtain ⟨p, hp, heq⟩ := mem_map.mp hgreatest.1
    obtain ⟨b, hb, hpacks⟩ := exists_of_mem_left h.packs.flip hp
    refine ⟨b, hb, mem_of_getLast? ?_⟩
    rw [hpacks.maxTimestamp_eq, hmax]
    exact congrArg some heq
  · rintro t ⟨b, hb, ht⟩
    obtain ⟨p, hp, hpacks⟩ := exists_of_mem_left h.packs hb
    have hle : p.bh.maxTimestamp ≤ part.ph.maxTimestamp := by
      rw [hmax]
      exact hgreatest.2 (mem_map.mpr ⟨p, hp, rfl⟩)
    refine le_trans ?_ hle
    obtain ⟨front, hfront⟩ := getLast?_eq_some_iff.mp hpacks.maxTimestamp_eq
    have hsort := (hbs b hb).sorted
    rw [hfront] at hsort ht
    rcases mem_append.mp ht with ht | ht
    · exact (pairwise_append.mp hsort).2.2 t ht _ mem_cons_self
    · exact (mem_singleton.mp ht).le

end Layout

/-- The format of a part: blocks sorted by series that are written and closed are read back, with
nothing lost, added or reordered, and the part header holds their true counts and range. -/
theorem yields_writePart {z : Zstd} (hz : z.RoundTrips) (hfit : z.IndexBlocksFit)
    (compressLevel : ℤ) (bs : List Block) (hne : bs ≠ []) (hbs : ∀ b ∈ bs, b.Writable)
    (hsorted : (bs.map fun b => b.bh.tsid).Pairwise (· ≤ ·)) :
    ∃ part r blocks, writePart z 0 compressLevel bs = .ok part ∧
      BlockStreamReader.fromInmemoryPart z part = .ok r ∧ r.Yields z blocks ∧
      blocks.map Block.content = bs.map Block.content ∧
      part.ph.blocksCount = bs.length ∧
      part.ph.rowsCount = (bs.map fun b => b.unreadValues.length).sum ∧
      IsLeast {t | ∃ b ∈ bs, t ∈ b.unreadTimestamps} part.ph.minTimestamp ∧
      IsGreatest {t | ∃ b ∈ bs, t ∈ b.unreadTimestamps} part.ph.maxTimestamp := by
  obtain ⟨part, gs, hwrite, hlayout⟩ := exists_writePart hz hfit compressLevel hbs
  obtain ⟨r, hreader, hblock, hbefore⟩ := hlayout.exists_before hz hfit hne hsorted
  have htsid : (bs.map fun b => b.bh.tsid) = gs.flatten.map fun p => p.bh.tsid :=
    map_eq_map_of_forall₂ (fun _ _ hp => hp.tsid_eq.symm) hlayout.packs
  have hyields := hbefore.yields hz hfit hlayout.packs (nil_append _) (by
    rw [hblock, ← htsid]
    exact pairwise_cons.mpr ⟨fun t _ => Tsid.default_le t, hsorted⟩)
  exact ⟨part, r, _, hwrite, hreader, hyields, map_content_readBack hlayout.packs,
    hlayout.ph_spec hne hbs⟩

theorem Zstd.indexBlocksFit_stored : Zstd.stored.IndexBlocksFit := by
  intro src compressLevel hsrc
  have hlen : (compressZstdLevel Zstd.stored [] src compressLevel).length = src.length + 1 := by
    simp [compressZstdLevel, Zstd.stored]
  have hmax : maxBlockSize = 65536 := rfl
  omega

/-- An unpacked block of rows at full precision, before its header is completed. -/
def Block.ofRows (tsid : Tsid) (timestamps values : List Int64) : Block :=
  { Block.reset with
    bh := { Block.reset.bh with tsid, precisionBits := 64 }
    timestamps
    values }

/-- Two series that share their timestamps. -/
theorem yields_writePart_shared :
    ∃ part r blocks, writePart Zstd.stored 0 1
          [.ofRows ⟨1, 2, 3, 4⟩ [10, 20, 40] [5, 6, 9],
            .ofRows ⟨1, 2, 3, 5⟩ [10, 20, 40] [7, 7, 7]] =
        .ok part ∧
      BlockStreamReader.fromInmemoryPart Zstd.stored part = .ok r ∧ r.Yields Zstd.stored blocks ∧
      blocks.map Block.content =
        [(⟨1, 2, 3, 4⟩, 0, [10, 20, 40], [5, 6, 9]),
          (⟨1, 2, 3, 5⟩, 0, [10, 20, 40], [7, 7, 7])] := by
  obtain ⟨part, r, blocks, hwrite, hreader, hyields, hcontent, -⟩ :=
    yields_writePart Zstd.roundTrips_stored Zstd.indexBlocksFit_stored 1
      [.ofRows ⟨1, 2, 3, 4⟩ [10, 20, 40] [5, 6, 9], .ofRows ⟨1, 2, 3, 5⟩ [10, 20, 40] [7, 7, 7]]
      (by decide) (by
        intro b hb
        rcases mem_cons.mp hb with rfl | hb
        · exact ⟨rfl, by decide, by decide, by decide, rfl⟩
        · rw [mem_singleton.mp hb]
          exact ⟨rfl, by decide, by decide, by decide, rfl⟩) (by decide)
  exact ⟨part, r, blocks, hwrite, hreader, hyields, hcontent⟩

end Esmetrics
