import Esmetrics.Storage.BlockHeader

/-!
# Blocks

Model of `esm-storage/src/block.rs`: a block of rows of one series, either unpacked (timestamps
and decimal values) or packed (marshaled bytes), with its header.

`Block.unmarshalPortable` reads a block that comes from another instance. It validates the fields
of the header one by one, while the decoders below it assert relations between them;
`unmarshalPortable_returns_iff` says exactly on which bytes one of these assertions, or the size
of a compressed frame, aborts it.
-/

namespace Esmetrics

open List

/-- A block of rows of one series. -/
structure Block where
  bh : BlockHeader
  /-- The next index for reading timestamps and values. -/
  nextIdx : ℕ
  timestamps : List Int64
  values : List Int64
  /-- Marshaled representation of the header. -/
  headerData : Bytes
  /-- Marshaled representation of the timestamps. -/
  timestampsData : Bytes
  /-- Marshaled representation of the values. -/
  valuesData : Bytes
  deriving DecidableEq, Repr, Inhabited

/-- The loop of `checkTimestampsBounds` after row `i`; returns the last timestamp. -/
def checkTimestampsOrder (n i : ℕ) (tsPrev : Int64) : List Int64 → Except String Int64
  | [] => .ok tsPrev
  | ts :: timestamps =>
    if ts < tsPrev then
      let row := i + 1
      .error
        (s!"timestamp for the row {row} cannot be smaller than the timestamp for the row {i} " ++
        s!"(total {n} rows); got {ts} vs {tsPrev}")
    else checkTimestampsOrder n (i + 1) ts timestamps

/-- The timestamps are ordered and inside the range of the header. -/
def checkTimestampsBounds (timestamps : List Int64) (minTimestamp maxTimestamp : Int64) :
    Except String Unit :=
  match timestamps with
  | [] => .ok ()
  | first :: rest =>
    let n := timestamps.length
    if first < minTimestamp then
      .error
        s!"timestamp for the row 0 out of {n} rows cannot be smaller than {minTimestamp}; got {first}"
    else
      match checkTimestampsOrder n 0 first rest with
      | .error err => .error err
      | .ok tsPrev =>
        if tsPrev > maxTimestamp then
          let row := n - 1
          .error (s!"timestamp for the row {row} (the last one) cannot be bigger than " ++
            s!"{maxTimestamp}; got {tsPrev}")
        else .ok ()

namespace Block

/-- An empty block. -/
def reset : Block := default

/-- The header's timestamps are those of the rows. -/
def fixupTimestamps (b : Block) : Outcome Block := do
  let minTimestamp ← Outcome.index b.timestamps[b.nextIdx]?
  let maxTimestamp ← Outcome.index b.timestamps.getLast?
  .ok { b with bh := { b.bh with minTimestamp, maxTimestamp } }

/-- The number of rows that will be written. -/
def pendingRowsCount (b : Block) : ℕ :=
  if b.values = [] then b.bh.rowsCount.toNat else b.values.length - b.nextIdx

/-- An unpacked block of the given rows. -/
def init (tsid : Tsid) (timestamps values : List Int64) (scale : Int16) (precisionBits : UInt8) :
    Outcome Block :=
  let b : Block :=
    { reset with bh := { reset.bh with tsid, scale, precisionBits }, timestamps, values }
  if timestamps = [] then .ok b else b.fixupTimestamps

/-- The block cannot be extended. -/
def tooBig (b : Block) : Bool :=
  if b.bh.rowsCount.toNat ≥ maxRowsPerBlock ∨ b.values.length - b.nextIdx ≥ maxRowsPerBlock then
    true
  else b.valuesData.length ≥ maxBlockSize

variable (z : Zstd)

/-- Packs the block; the marshaled header and data are in the returned block. -/
def marshalData (b : Block) (timestampsBlockOffset valuesBlockOffset : UInt64) : Outcome Block := do
  let n := b.nextIdx
  let len := b.values.length
  if b.values = [] then
    -- the data has been already marshaled
    let tsSize := b.bh.timestampsBlockSize
    let tsLen := b.timestampsData.length
    let valSize := b.bh.valuesBlockSize
    let valLen := b.valuesData.length
    let rows := b.bh.rowsCount
    Outcome.assert (b.nextIdx = 0) s!"BUG: nextIdx must be zero; got {n}"
    Outcome.assert (tsSize.toNat = tsLen)
      s!"BUG: invalid TimestampsBlockSize; got {tsSize}; expecting {tsLen}"
    Outcome.assert (valSize.toNat = valLen)
      s!"BUG: invalid ValuesBlockSize; got {valSize}; expecting {valLen}"
    Outcome.assert (rows > 0) s!"BUG: RowsCount must be greater than 0; got {rows}"
    let bh := { b.bh with timestampsBlockOffset, valuesBlockOffset }
    .ok { b with bh, headerData := bh.marshal [] }
  else
    let tsCount := b.timestamps.length
    Outcome.assert (b.nextIdx ≤ b.values.length)
      s!"BUG: nextIdx cannot exceed values size; got {n} vs {len}"
    Outcome.assert (b.values.length = b.timestamps.length)
      s!"BUG: the number of values must match the number of timestamps; got {len} vs {tsCount}"
    let rowsCount := b.values.length - b.nextIdx
    Outcome.assert (rowsCount > 0)
      (s!"BUG: values cannot be empty; nextIdx={n}, " ++
        s!"timestampsBlockOffset={timestampsBlockOffset}, valuesBlockOffset={valuesBlockOffset}")
    let (valuesData, valuesMarshalType, firstValue) ←
      marshalValues z [] (b.values.drop b.nextIdx) b.bh.precisionBits
    let (timestampsData, timestampsMarshalType, minTimestamp) ←
      marshalTimestamps z [] (b.timestamps.drop b.nextIdx) b.bh.precisionBits
    let maxTimestamp ← Outcome.index b.timestamps.getLast?
    let bh : BlockHeader :=
      { b.bh with
        valuesMarshalType := valuesMarshalType.asU8
        firstValue
        valuesBlockOffset
        valuesBlockSize := UInt32.ofNat valuesData.length
        timestampsMarshalType := timestampsMarshalType.asU8
        minTimestamp
        timestampsBlockOffset
        timestampsBlockSize := UInt32.ofNat timestampsData.length
        maxTimestamp
        rowsCount := UInt32.ofNat rowsCount }
    .ok { bh, nextIdx := 0, timestamps := [], values := [], headerData := bh.marshal [],
          timestampsData, valuesData }

/-- Recovers the order of lossily compressed timestamps, or checks timestamps that may have been
corrupted silently. -/
def restoreTimestamps (bh : BlockHeader) (mt : MarshalType) (timestamps : List Int64) :
    Outcome (List Int64) :=
  if bh.precisionBits < 64 then
    ensureNonDecreasingSequence timestamps bh.minTimestamp bh.maxTimestamp
  else if mt.needsValidation then
    match checkTimestampsBounds timestamps bh.minTimestamp bh.maxTimestamp with
    | .error err => .err err
    | .ok () => .ok timestamps
  else .ok timestamps

/-- Unpacks the block, whose header has been read. -/
def unmarshalData (b : Block) : Outcome Block :=
  if b.values ≠ [] then do
    let valLen := b.valuesData.length
    let tsLen := b.timestampsData.length
    Outcome.assert (b.valuesData = []) s!"BUG: valuesData must be empty; contains {valLen} bytes"
    Outcome.assert (b.timestampsData = [])
      s!"BUG: timestampsData must be empty; contains {tsLen} bytes"
    .ok b
  else if b.bh.rowsCount = 0 then .err "RowsCount must be greater than 0; got 0"
  else do
    let tsType := b.bh.timestampsMarshalType
    let valType := b.bh.valuesMarshalType
    let timestampsMarshalType ←
      Outcome.ofOption (MarshalType.fromU8 tsType) s!"unsupported TimestampsMarshalType: {tsType}"
    let timestamps ← unmarshalTimestamps z [] b.timestampsData timestampsMarshalType
      b.bh.minTimestamp b.bh.rowsCount.toNat
    let timestamps ← restoreTimestamps b.bh timestampsMarshalType timestamps
    let valuesMarshalType ←
      Outcome.ofOption (MarshalType.fromU8 valType) s!"unsupported ValuesMarshalType: {valType}"
    let values ← unmarshalValues z [] b.valuesData valuesMarshalType b.bh.firstValue
      b.bh.rowsCount.toNat
    let tsCount := timestamps.length
    let valCount := values.length
    if tsCount ≠ valCount then
      .err s!"timestamps and values count mismatch; got {tsCount} vs {valCount}"
    else .ok { b with timestamps, values, nextIdx := 0, timestampsData := [], valuesData := [] }

/-- Reads a block in the portable form; returns it with the rest of `src`. -/
def unmarshalPortable (src : Bytes) : Outcome (Block × Bytes) := do
  let (bh, src) ← reset.bh.unmarshalPortable src
  let (timestampsData, nSize) ← Outcome.ofOption (unmarshalBytes src) "cannot read timestampsData"
  let src ← sliceFrom src nSize
  let (valuesData, nSize) ← Outcome.ofOption (unmarshalBytes src) "cannot read valuesData"
  let src ← sliceFrom src nSize
  (Outcome.ofExcept bh.validate).mapErr fun err => s!"invalid blockHeader: {err}"
  let b ← ({ reset with bh, timestampsData, valuesData } : Block).unmarshalData z |>.mapErr
    fun err => s!"invalid data: {err}"
  .ok (b, src)

/-! ### Reachability of a panic -/

theorem sliceFrom_of_le {src : Bytes} {n : ℕ} (h : n ≤ src.length) :
    sliceFrom src n = .ok (src.drop n) := if_pos h

/-- The portable header is read inside the source. -/
theorem not_panics_header_unmarshalPortable (bh : BlockHeader) (src : Bytes) :
    ¬ (bh.unmarshalPortable src).Panics := by
  have hint : ∀ {src : Bytes} {v : Int64} {n : ℕ}, unmarshalVarInt64 src = some (v, n) →
      sliceFrom src n = .ok (src.drop n) := fun h => sliceFrom_of_le (unmarshalVarInt64_size_le h)
  have huint : ∀ {src : Bytes} {u : UInt64} {n : ℕ}, unmarshalVarUint64 src = some (u, n) →
      sliceFrom src n = .ok (src.drop n) := fun h => sliceFrom_of_le (unmarshalVarUint64_size_le h)
  rw [BlockHeader.unmarshalPortable]
  refine Outcome.not_panics_ofOption_bind fun ⟨minTimestamp, n1⟩ h1 => ?_
  simp only [hint h1, Outcome.ok_bind]
  refine Outcome.not_panics_ofOption_bind fun ⟨maxTimestamp, n2⟩ h2 => ?_
  simp only [hint h2, Outcome.ok_bind]
  refine Outcome.not_panics_ofOption_bind fun ⟨firstValue, n3⟩ h3 => ?_
  simp only [hint h3, Outcome.ok_bind]
  refine Outcome.not_panics_ofOption_bind fun ⟨rowsCount, n4⟩ h4 => ?_
  simp only [huint h4, Outcome.ok_bind]
  split_ifs
  · simp
  refine Outcome.not_panics_ofOption_bind fun ⟨scale, n5⟩ h5 => ?_
  simp only [hint h5, Outcome.ok_bind]
  split_ifs
  · simp
  · simp
  split <;> simp

/-- The header and the two data sections of a portable block, valid field by field. -/
def HasSections (src : Bytes) (bh : BlockHeader) (timestampsData valuesData : Bytes) : Prop :=
  ∃ rest n m, reset.bh.unmarshalPortable src = .ok (bh, rest) ∧
    unmarshalBytes rest = some (timestampsData, n) ∧
    unmarshalBytes (rest.drop n) = some (valuesData, m) ∧ bh.validate = .ok ()

/-- The timestamps section is read, and passes the check of its order where there is one. -/
def TimestampsAccepted (bh : BlockHeader) (mt : MarshalType) (timestampsData : Bytes) : Prop :=
  ∃ timestamps,
    unmarshalTimestamps z [] timestampsData mt bh.minTimestamp bh.rowsCount.toNat =
      .ok timestamps ∧
    (bh.precisionBits < 64 → bh.minTimestamp ≤ bh.maxTimestamp) ∧
    (¬ bh.precisionBits < 64 → mt.needsValidation →
      checkTimestampsBounds timestamps bh.minTimestamp bh.maxTimestamp = .ok ())

/-- The timestamps section that aborts the reader: one row in a delta-of-delta encoding, a frame
of an impossible size, or readable lossy timestamps in a range that ends before it starts. -/
def TimestampsAbort (bh : BlockHeader) (mt : MarshalType) (timestampsData : Bytes) : Prop :=
  ArrayAborts z timestampsData mt bh.rowsCount.toNat ∨
    bh.precisionBits < 64 ∧ bh.maxTimestamp < bh.minTimestamp ∧
      ∃ timestamps, unmarshalTimestamps z [] timestampsData mt bh.minTimestamp
        bh.rowsCount.toNat = .ok timestamps

/-- The sections that abort the reader: the timestamps do, or they are accepted and the values
do. -/
def SectionsAbort (bh : BlockHeader) (timestampsData valuesData : Bytes) : Prop :=
  ∃ tsType, MarshalType.fromU8 bh.timestampsMarshalType = some tsType ∧
    (TimestampsAbort z bh tsType timestampsData ∨
      TimestampsAccepted z bh tsType timestampsData ∧
        ∃ valType, MarshalType.fromU8 bh.valuesMarshalType = some valType ∧
          ArrayAborts z valuesData valType bh.rowsCount.toNat)

private theorem panics_restoreTimestamps_iff (bh : BlockHeader) (mt : MarshalType)
    (timestamps : List Int64) : (restoreTimestamps bh mt timestamps).Panics ↔
      bh.precisionBits < 64 ∧ bh.maxTimestamp < bh.minTimestamp := by
  rw [restoreTimestamps]
  split_ifs with hprec hval
  · simp [hprec]
  · split <;> simp [hprec]
  · simp [hprec]

private theorem exists_restoreTimestamps_iff (bh : BlockHeader) (mt : MarshalType)
    (timestamps : List Int64) : (∃ restored, restoreTimestamps bh mt timestamps = .ok restored) ↔
      (bh.precisionBits < 64 → bh.minTimestamp ≤ bh.maxTimestamp) ∧
      (¬ bh.precisionBits < 64 → mt.needsValidation →
        checkTimestampsBounds timestamps bh.minTimestamp bh.maxTimestamp = .ok ()) := by
  by_cases hprec : bh.precisionBits < 64
  · simp only [restoreTimestamps, hprec, if_true, true_implies, not_true_eq_false, false_implies,
      and_true]
    refine ⟨fun h => ?_, fun h => exists_ensureNonDecreasingSequence h timestamps⟩
    obtain ⟨restored, h⟩ := h
    by_contra hlt
    obtain ⟨msg, hpanic⟩ :=
      (panics_ensureNonDecreasingSequence_iff timestamps _ _).mpr (not_le.mp hlt)
    rw [h] at hpanic
    cases hpanic
  · cases hval : mt.needsValidation with
    | false => simp [restoreTimestamps, hprec, hval]
    | true =>
      cases hcheck : checkTimestampsBounds timestamps bh.minTimestamp bh.maxTimestamp with
      | error err => simp [restoreTimestamps, hprec, hval, hcheck]
      | ok u => simp [restoreTimestamps, hprec, hval, hcheck]

variable {bh : BlockHeader} {b : Block}

/-- Unpacking a block aborts exactly on the sections that do. -/
theorem panics_unmarshalData_iff (hrows : bh.rowsCount ≠ 0) (timestampsData valuesData : Bytes) :
    (unmarshalData z { reset with bh, timestampsData, valuesData }).Panics ↔
      SectionsAbort z bh timestampsData valuesData := by
  have hvalues : ¬ (reset.values ≠ []) := fun h => h rfl
  have hts : ∀ mt, (unmarshalTimestamps z [] timestampsData mt bh.minTimestamp
      bh.rowsCount.toNat).Panics ↔ ArrayAborts z timestampsData mt bh.rowsCount.toNat :=
      fun mt => by
    rw [unmarshalTimestamps, Outcome.panics_mapErr, panics_unmarshalInt64Array_iff]
  have hvals : ∀ mt, (unmarshalValues z [] valuesData mt bh.firstValue
      bh.rowsCount.toNat).Panics ↔ ArrayAborts z valuesData mt bh.rowsCount.toNat := fun mt => by
    rw [unmarshalValues, Outcome.panics_mapErr, panics_unmarshalInt64Array_iff]
  rw [unmarshalData, if_neg hvalues, if_neg hrows, SectionsAbort]
  cases htsType : MarshalType.fromU8 bh.timestampsMarshalType with
  | none => simp [htsType]
  | some tsType =>
    simp only [htsType, Outcome.ofOption_some, Outcome.ok_bind, Option.some.injEq,
      exists_eq_left']
    refine ⟨fun h => ?_, fun h => ?_⟩
    · rcases Outcome.panics_bind_iff.mp h with h | ⟨timestamps, hread, h⟩
      · exact .inl (.inl ((hts tsType).mp h))
      rcases Outcome.panics_bind_iff.mp h with h | ⟨restored, hrestore, h⟩
      · obtain ⟨hprec, hlt⟩ := (panics_restoreTimestamps_iff bh tsType timestamps).mp h
        exact .inl (.inr ⟨hprec, hlt, timestamps, hread⟩)
      have haccepted : TimestampsAccepted z bh tsType timestampsData :=
        ⟨timestamps, hread,
          (exists_restoreTimestamps_iff bh tsType timestamps).mp ⟨restored, hrestore⟩⟩
      cases hvalType : MarshalType.fromU8 bh.valuesMarshalType with
      | none => simp [hvalType] at h
      | some valType =>
        simp only [hvalType, Outcome.ofOption_some, Outcome.ok_bind] at h
        rcases Outcome.panics_bind_iff.mp h with h | ⟨values, -, h⟩
        · exact .inr ⟨haccepted, valType, rfl, (hvals valType).mp h⟩
        · split_ifs at h <;> simp at h
    · rcases h with (h | ⟨hprec, hlt, timestamps, hread⟩) | ⟨⟨timestamps, hread, hok⟩, valType,
        hvalType, h⟩
      · exact Outcome.panics_bind_iff.mpr (.inl ((hts tsType).mpr h))
      · refine Outcome.panics_bind_iff.mpr (.inr ⟨timestamps, hread, ?_⟩)
        exact Outcome.panics_bind_iff.mpr
          (.inl ((panics_restoreTimestamps_iff bh tsType timestamps).mpr ⟨hprec, hlt⟩))
      · obtain ⟨restored, hrestore⟩ := (exists_restoreTimestamps_iff bh tsType timestamps).mpr hok
        refine Outcome.panics_bind_iff.mpr (.inr ⟨timestamps, hread, ?_⟩)
        refine Outcome.panics_bind_iff.mpr (.inr ⟨restored, hrestore, ?_⟩)
        simp only [hvalType, Outcome.ofOption_some, Outcome.ok_bind]
        exact Outcome.panics_bind_iff.mpr (.inl ((hvals valType).mpr h))

theorem rowsCount_ne_zero (h : bh.validate = .ok ()) :
    bh.rowsCount ≠ 0 := by
  intro hzero
  simp [BlockHeader.validate, hzero] at h

/-- Reading a portable block aborts exactly on the sections that do. -/
theorem panics_unmarshalPortable_iff (src : Bytes) :
    (unmarshalPortable z src).Panics ↔ ∃ bh timestampsData valuesData,
      HasSections src bh timestampsData valuesData ∧
        SectionsAbort z bh timestampsData valuesData := by
  have hslice : ∀ {src b : Bytes} {n : ℕ}, unmarshalBytes src = some (b, n) →
      sliceFrom src n = .ok (src.drop n) := fun h => sliceFrom_of_le (unmarshalBytes_size_le h)
  rw [unmarshalPortable]
  refine ⟨fun h => ?_, ?_⟩
  · rcases Outcome.panics_bind_iff.mp h with h | ⟨⟨bh, rest⟩, hbh, h⟩
    · exact absurd h (not_panics_header_unmarshalPortable _ _)
    by_contra hcon
    refine absurd h (Outcome.not_panics_ofOption_bind fun ⟨timestampsData, n⟩ hts => ?_)
    simp only [hslice hts, Outcome.ok_bind]
    refine Outcome.not_panics_ofOption_bind fun ⟨valuesData, m⟩ hvals => ?_
    simp only [hslice hvals, Outcome.ok_bind]
    cases hvalid : bh.validate with
    | error err => simp [Outcome.mapErr]
    | ok u =>
      intro hpanic
      rw [Outcome.ofExcept_ok, Outcome.mapErr_ok, Outcome.ok_bind, Outcome.panics_bind_iff,
        Outcome.panics_mapErr, panics_unmarshalData_iff z (rowsCount_ne_zero hvalid)] at hpanic
      rcases hpanic with habort | ⟨b, -, hok⟩
      · exact hcon ⟨bh, timestampsData, valuesData, ⟨rest, n, m, hbh, hts, hvals, hvalid⟩, habort⟩
      · simp at hok
  · rintro ⟨bh, timestampsData, valuesData, ⟨rest, n, m, hbh, hts, hvals, hvalid⟩, habort⟩
    simp only [hbh, Outcome.ok_bind, hts, Outcome.ofOption_some, hslice hts, hvals, hslice hvals,
      hvalid, Outcome.ofExcept_ok, Outcome.mapErr_ok]
    rw [Outcome.panics_bind_iff, Outcome.panics_mapErr]
    exact .inl ((panics_unmarshalData_iff z (rowsCount_ne_zero hvalid) _ _).mpr habort)

/-- `Block::unmarshal_portable` returns, with a block or with an error, exactly on the bytes
whose sections do not abort the decoders. -/
theorem unmarshalPortable_returns_iff (src : Bytes) :
    ((∃ r, unmarshalPortable z src = .ok r) ∨ ∃ msg, unmarshalPortable z src = .err msg) ↔
      ∀ bh timestampsData valuesData, HasSections src bh timestampsData valuesData →
        ¬ SectionsAbort z bh timestampsData valuesData := by
  have hpanics := panics_unmarshalPortable_iff z src
  cases hres : unmarshalPortable z src with
  | ok r =>
    simp only [hres, Outcome.not_panics_ok, false_iff, not_exists, not_and] at hpanics
    exact ⟨fun _ => hpanics, fun _ => .inl ⟨r, rfl⟩⟩
  | err msg =>
    simp only [hres, Outcome.not_panics_err, false_iff, not_exists, not_and] at hpanics
    exact ⟨fun _ => hpanics, fun _ => .inr ⟨msg, rfl⟩⟩
  | panic msg =>
    obtain ⟨bh, timestampsData, valuesData, hsec, habort⟩ := hpanics.mp (hres ▸ ⟨msg, rfl⟩)
    refine ⟨fun h => ?_, fun h => absurd habort (h bh timestampsData valuesData hsec)⟩
    rcases h with ⟨r, h⟩ | ⟨msg, h⟩ <;> cases h

/-- One row with values in delta-of-delta encoding, and one row of lossy timestamps whose range
ends before it starts: both headers pass `validate`, and both abort. -/
theorem unmarshalPortable_aborts :
    (unmarshalPortable Zstd.stored [0, 0, 0, 1, 0, 3, 5, 64, 0, 0]).Panics ∧
      (unmarshalPortable Zstd.stored [2, 0, 0, 1, 0, 3, 3, 63, 0, 0]).Panics := by
  decide

/-! ### Packing at full precision -/

/-- The timestamps that have not been read yet: the slice `timestamps()`. -/
def unreadTimestamps (b : Block) : List Int64 := b.timestamps.drop b.nextIdx

/-- The values that have not been read yet: the slice `values()`. -/
def unreadValues (b : Block) : List Int64 := b.values.drop b.nextIdx

/-- A block that a writer accepts: unpacked, with sorted rows left, no more than fit a block, at
full precision. -/
structure Writable (b : Block) : Prop where
  length_eq : b.values.length = b.timestamps.length
  nextIdx_lt : b.nextIdx < b.values.length
  length_le : b.unreadValues.length ≤ maxRowsPerBlock
  sorted : b.unreadTimestamps.Pairwise (· ≤ ·)
  precisionBits_eq : b.bh.precisionBits = 64

/-- A packed block whose data is at the given offsets of the files. -/
def placedAt (b : Block) (timestampsBlockOffset valuesBlockOffset : UInt64) : Block :=
  let bh := { b.bh with timestampsBlockOffset, valuesBlockOffset }
  { b with bh, headerData := bh.marshal [] }

/-- `p` is the packed form of the unread rows of `b`, wherever its data is. -/
structure Packs (b p : Block) : Prop where
  length_eq : b.unreadTimestamps.length = b.unreadValues.length
  tsid_eq : p.bh.tsid = b.bh.tsid
  scale_eq : p.bh.scale = b.bh.scale
  precisionBits_eq : p.bh.precisionBits = b.bh.precisionBits
  validate_eq : p.bh.validate = .ok ()
  rowsCount_eq : p.bh.rowsCount.toNat = b.unreadValues.length
  timestampsBlockSize_eq : p.bh.timestampsBlockSize.toNat = p.timestampsData.length
  valuesBlockSize_eq : p.bh.valuesBlockSize.toNat = p.valuesData.length
  minTimestamp_eq : b.unreadTimestamps.head? = some p.bh.minTimestamp
  maxTimestamp_eq : b.unreadTimestamps.getLast? = some p.bh.maxTimestamp
  unmarshal_timestamps : ∃ mt, MarshalType.fromU8 p.bh.timestampsMarshalType = some mt ∧
    unmarshalTimestamps z [] p.timestampsData mt p.bh.minTimestamp p.bh.rowsCount.toNat =
      .ok b.unreadTimestamps ∧
    restoreTimestamps p.bh mt b.unreadTimestamps = .ok b.unreadTimestamps
  unmarshal_values : ∃ mt, MarshalType.fromU8 p.bh.valuesMarshalType = some mt ∧
    unmarshalValues z [] p.valuesData mt p.bh.firstValue p.bh.rowsCount.toNat =
      .ok b.unreadValues

/-- The packed form does not depend on where its data is. -/
theorem Packs.placedAt {p : Block} (h : Packs z b p) (tsOff valOff : UInt64) :
    Packs z b (p.placedAt tsOff valOff) :=
  ⟨h.length_eq, h.tsid_eq, h.scale_eq, h.precisionBits_eq, h.validate_eq, h.rowsCount_eq,
    h.timestampsBlockSize_eq, h.valuesBlockSize_eq, h.minTimestamp_eq, h.maxTimestamp_eq,
    h.unmarshal_timestamps, h.unmarshal_values⟩

theorem Writable.length_unread (hb : b.Writable) :
    b.unreadTimestamps.length = b.unreadValues.length := by
  rw [unreadTimestamps, unreadValues, length_drop, length_drop, hb.length_eq]

theorem Writable.unreadValues_ne_nil (hb : b.Writable) : b.unreadValues ≠ [] := by
  have hlt := hb.nextIdx_lt
  rw [← length_pos_iff, unreadValues, length_drop]
  omega

theorem Writable.unreadTimestamps_ne_nil (hb : b.Writable) :
    b.unreadTimestamps ≠ [] := by
  rw [← length_pos_iff, hb.length_unread]
  exact length_pos_iff.mpr hb.unreadValues_ne_nil

/-- The order check ends at the last of the sorted timestamps. -/
private theorem checkTimestampsOrder_of_sorted {n i : ℕ} {ts : Int64} {timestamps : List Int64}
    (h : (ts :: timestamps).Pairwise (· ≤ ·)) :
    checkTimestampsOrder n i ts timestamps = .ok (timestamps.getLastD ts) := by
  induction timestamps generalizing i ts with
  | nil => rfl
  | cons t timestamps ih =>
    obtain ⟨hts, htail⟩ := pairwise_cons.mp h
    have hle : ¬ t < ts := not_lt.mpr (hts t mem_cons_self)
    rw [checkTimestampsOrder, if_neg hle, ih htail]
    simp [getLastD_eq_getLast?, getLast?_cons]

theorem checkTimestampsBounds_of_sorted {timestamps : List Int64}
    {minTimestamp maxTimestamp : Int64}
    (h : timestamps.Pairwise (· ≤ ·)) (hmin : timestamps.head? = some minTimestamp)
    (hmax : timestamps.getLast? = some maxTimestamp) :
    checkTimestampsBounds timestamps minTimestamp maxTimestamp = .ok () := by
  match timestamps with
  | [] => rfl
  | first :: rest =>
    obtain rfl : first = minTimestamp := by simpa using hmin
    have hlast : rest.getLastD first = maxTimestamp := by
      rw [getLast?_cons] at hmax
      rw [getLastD_eq_getLast?]
      exact Option.some.inj hmax
    rw [checkTimestampsBounds, if_neg (lt_irrefl first)]
    simp only [checkTimestampsOrder_of_sorted h, hlast, gt_iff_lt, lt_irrefl, if_false]

private theorem validate_of_le (hrows : 0 < bh.rowsCount.toNat)
    (hmax : bh.rowsCount.toNat ≤ maxRowsPerBlock)
    {tsType valType : MarshalType} (hts : bh.timestampsMarshalType = tsType.asU8)
    (hval : bh.valuesMarshalType = valType.asU8) (hprec : bh.precisionBits = 64)
    (htsSize : bh.timestampsBlockSize.toNat ≤ 10 * maxRowsPerBlock)
    (hvalSize : bh.valuesBlockSize.toNat ≤ 10 * maxRowsPerBlock) : bh.validate = .ok () := by
  have hne : bh.rowsCount ≠ 0 := by
    intro h
    rw [h] at hrows
    exact absurd hrows (by decide)
  have htype : ∀ mt : MarshalType, checkMarshalType mt.asU8 = .ok () := by
    intro mt
    cases mt <;> rfl
  have hbits : checkPrecisionBits 64 = .ok () := rfl
  have h2 : maxBlockSize = 8 * maxRowsPerBlock := rfl
  simp only [BlockHeader.validate, if_neg hne, hts, hval, hprec, htype, hbits]
  rw [if_neg (by omega), if_neg (by omega), if_neg (by omega)]

/-- Packing a packed block again only moves it. -/
theorem marshalData_of_packed (hvalues : b.values = []) (hidx : b.nextIdx = 0)
    (hts : b.bh.timestampsBlockSize.toNat = b.timestampsData.length)
    (hvals : b.bh.valuesBlockSize.toNat = b.valuesData.length) (hrows : 0 < b.bh.rowsCount.toNat)
    (tsOff valOff : UInt64) : b.marshalData z tsOff valOff = .ok (b.placedAt tsOff valOff) := by
  have hpos : b.bh.rowsCount > 0 := UInt32.lt_iff_toNat_lt.mpr hrows
  rw [marshalData, if_pos hvalues, Outcome.assert_of hidx, Outcome.ok_bind, Outcome.assert_of hts,
    Outcome.ok_bind, Outcome.assert_of hvals, Outcome.ok_bind, Outcome.assert_of hpos,
    Outcome.ok_bind]
  rfl

/-- A writable block is packed the same way at all offsets, and a packed block is only moved. -/
theorem Writable.exists_packs (hz : z.RoundTrips) (hb : b.Writable) :
    ∃ p, Packs z b p ∧
      (∀ tsOff valOff, b.marshalData z tsOff valOff = .ok (p.placedAt tsOff valOff)) ∧
      ∀ tsOff valOff tsOff' valOff', (p.placedAt tsOff valOff).marshalData z tsOff' valOff' =
        .ok (p.placedAt tsOff' valOff') := by
  obtain ⟨encV, mtV, v, hv⟩ := exists_readsBack z hz hb.unreadValues_ne_nil
  obtain ⟨encT, mtT, t, ht⟩ := exists_readsBack z hz hb.unreadTimestamps_ne_nil
  obtain ⟨last, hlast⟩ : ∃ last, b.unreadTimestamps.getLast? = some last :=
    ⟨_, getLast?_eq_getLast_of_ne_nil hb.unreadTimestamps_ne_nil⟩
  have hlen := hb.length_le
  have hpos : 0 < b.unreadValues.length := length_pos_iff.mpr hb.unreadValues_ne_nil
  have hmax : maxRowsPerBlock = 8192 := rfl
  have hvlen := hv.length_le
  have htlen := ht.length_le
  rw [hb.length_unread] at htlen
  have htoNat : ∀ n, n ≤ 10 * maxRowsPerBlock → (UInt32.ofNat n).toNat = n := by
    intro n hn
    rw [UInt32.toNat_ofNat', Nat.mod_eq_of_lt (by omega)]
  let bh : BlockHeader :=
    { b.bh with
      valuesMarshalType := mtV.asU8
      firstValue := v
      valuesBlockOffset := 0
      valuesBlockSize := UInt32.ofNat encV.length
      timestampsMarshalType := mtT.asU8
      minTimestamp := t
      timestampsBlockOffset := 0
      timestampsBlockSize := UInt32.ofNat encT.length
      maxTimestamp := last
      rowsCount := UInt32.ofNat b.unreadValues.length
      precisionBits := 64 }
  have hrows : bh.rowsCount.toNat = b.unreadValues.length := htoNat _ (by omega)
  have htsSize : bh.timestampsBlockSize.toNat = encT.length := htoNat _ (by omega)
  have hvalSize : bh.valuesBlockSize.toNat = encV.length := htoNat _ (by omega)
  have hvalid : bh.validate = .ok () :=
    validate_of_le (by omega) (by omega) rfl rfl rfl (by omega) (by omega)
  refine ⟨⟨bh, 0, [], [], [], encT, encV⟩, ?_, fun tsOff valOff => ?_,
    fun tsOff valOff tsOff' valOff' => ?_⟩
  · refine ⟨hb.length_unread, rfl, rfl, hb.precisionBits_eq.symm, hvalid, hrows, htsSize, hvalSize,
      ht.head_eq, hlast, ?_, ?_⟩
    · refine ⟨mtT, MarshalType.fromU8_asU8 mtT, ?_, ?_⟩
      · rw [hrows, ← hb.length_unread, unmarshalTimestamps, ht.unmarshal_eq, Outcome.mapErr_ok,
          nil_append]
      · have hprec : ¬ bh.precisionBits < 64 := lt_irrefl (64 : UInt8)
        have hcheck := checkTimestampsBounds_of_sorted hb.sorted ht.head_eq hlast
        simp only [restoreTimestamps, if_neg hprec, show bh.minTimestamp = t from rfl,
          show bh.maxTimestamp = last from rfl, hcheck, ite_self]
    · refine ⟨mtV, MarshalType.fromU8_asU8 mtV, ?_⟩
      rw [hrows, unmarshalValues, hv.unmarshal_eq, Outcome.mapErr_ok, nil_append]
  · have hne : b.values ≠ [] := ne_nil_of_length_pos (by have := hb.nextIdx_lt; omega)
    have hgetLast : b.timestamps.getLast? = some last := by
      have hlt := hb.nextIdx_lt
      rw [hb.length_eq] at hlt
      rw [← hlast, unreadTimestamps, getLast?_drop, if_neg (by omega)]
    have hcount : b.values.length - b.nextIdx = b.unreadValues.length := by
      rw [unreadValues, length_drop]
    have hmv := hv.marshal_eq []
    have hmt := ht.marshal_eq []
    rw [nil_append, unreadValues] at hmv
    rw [nil_append, unreadTimestamps] at hmt
    simp only [marshalData, if_neg hne, Outcome.assert_of hb.nextIdx_lt.le,
      Outcome.assert_of hb.length_eq, hcount, Outcome.assert_of hpos, Outcome.ok_bind,
      marshalValues, marshalTimestamps, hb.precisionBits_eq, hmv, hmt, hgetLast, Outcome.index_some]
    rfl
  · exact marshalData_of_packed z rfl rfl htsSize hvalSize (hrows.symm ▸ hpos) tsOff' valOff'

end Block

end Esmetrics
