import Esmetrics.Common.Decimal
import Esmetrics.Common.Uint64set.Set
import Esmetrics.Lib.HeapMerge
import Esmetrics.Lib.MergeJoin
import Esmetrics.Storage.BlockStream.Reader

/-!
# Merging block streams

Model of `esm-storage/src/block_stream/merger.rs`: the blocks of several readers are taken in the
order of their headers through a heap, rows of deleted series and rows older than the retention
deadline are dropped, and the rest is merged block by block through one pending block.

A reader keeps its current block until it is advanced, and then looks at the series of that block
only, so the rows that the merge consumes from it are not written back to the reader. The temporary
block is reset before every use and is not part of the state.
-/

namespace Esmetrics

open List
open Prod (fst snd)

namespace Block

/-- A copy of the rows that have not been read yet. -/
def copyFrom (src : Block) : Block :=
  { src with
    nextIdx := 0
    timestamps := src.timestamps.drop src.nextIdx
    values := src.values.drop src.nextIdx }

/-- The rows that have not been read yet. -/
def rows (b : Block) : List (Int64 × Int64) := b.unreadTimestamps.zip b.unreadValues

def assertUnmarshaled (b : Block) : Outcome Unit := do
  let valLen := b.valuesData.length
  let tsLen := b.timestampsData.length
  let vals := b.values.length
  let tss := b.timestamps.length
  let n := b.nextIdx
  Outcome.assert (b.valuesData = []) s!"BUG: valuesData must be empty; got {valLen} bytes"
  Outcome.assert (b.timestampsData = []) s!"BUG: timestampsData must be empty; got {tsLen} bytes"
  Outcome.assert (b.values.length = b.timestamps.length)
    s!"BUG: the number of values must match the number of timestamps; got {vals} vs {tss}"
  Outcome.assert (b.nextIdx ≤ b.values.length)
    s!"BUG: nextIdx cannot exceed the number of values; got {n} vs {vals}"

def assertMergeable (b ib : Block) : Outcome Unit := do
  let tsid := b.bh.tsid.debug
  let ibTsid := ib.bh.tsid.debug
  let scale := b.bh.scale
  let ibScale := ib.bh.scale
  Outcome.assert (b.bh.tsid.metricId = ib.bh.tsid.metricId)
    s!"BUG: unequal TSID: {tsid} vs {ibTsid}"
  Outcome.assert (b.bh.scale = ib.bh.scale) s!"BUG: unequal Scale: {scale} vs {ibScale}"

/-- Advances by one row; nothing happens behind the last one. -/
def nextRow (b : Block) : Block :=
  if b.nextIdx = b.values.length then b else { b with nextIdx := b.nextIdx + 1 }

/-- Appends rows to an unpacked block. -/
def extend (ob : Block) (rows : List (Int64 × Int64)) : Block :=
  { ob with
    timestamps := ob.timestamps ++ rows.map fst
    values := ob.values ++ rows.map snd }

end Block

/-! ### Merging two blocks -/

/-- Appends the rows of `ib` that have not been read yet. -/
def appendRows (ob ib : Block) : Block :=
  { ob with
    timestamps := ob.timestamps ++ ib.unreadTimestamps
    values := ob.values ++ ib.unreadValues }

/-- Skips the rows before the deadline, and counts them. -/
def skipSamplesOutsideRetention (b : Block) (retentionDeadline : Int64) (rowsDeleted : ℕ) :
    Block × ℕ :=
  if b.bh.minTimestamp ≥ retentionDeadline then (b, rowsDeleted)
  else
    let n := (b.unreadTimestamps.takeWhile fun ts => ts < retentionDeadline).length
    (Block.nextRow^[n] b, rowsDeleted + n)

/-- The measure of the loop of the merge: an iteration takes rows, unless the next row of the second
block is the smaller one. -/
def mergeMeasure (rows1 rows2 : List (Int64 × Int64)) : ℕ :=
  2 * (rows1.length + rows2.length) +
    (if rows1.head?.any fun row1 => rows2.head?.any fun row2 => row1.1 ≤ row2.1 then 0 else 1)

theorem mergeMeasure_lt {rows1 rows2 : List (Int64 × Int64)} {row2 : Int64 × Int64}
    (hdrop : rows1.drop (partitionPoint (fun row => row.1 ≤ row2.1) rows1) ≠ []) :
    mergeMeasure (row2 :: rows2) (rows1.drop (partitionPoint (fun row => row.1 ≤ row2.1) rows1)) <
      mergeMeasure rows1 (row2 :: rows2) := by
  have hlen := partitionPoint_le_length (fun row : Int64 × Int64 => row.1 ≤ row2.1) rows1
  by_cases hn : partitionPoint (fun row : Int64 × Int64 => row.1 ≤ row2.1) rows1 = 0
  · rw [hn, drop_zero] at hdrop ⊢
    obtain ⟨row1, rows1, rfl⟩ := exists_cons_of_ne_nil hdrop
    have hgt : ¬ row1.1 ≤ row2.1 := by
      intro hle
      simp [partitionPoint, hle] at hn
    have hle : row2.1 ≤ row1.1 := (not_le.mp hgt).le
    simp only [mergeMeasure, length_cons, head?_cons, Option.any_some, hgt, hle,
      decide_true, decide_false, if_true, Bool.false_eq_true, if_false]
    omega
  · simp only [mergeMeasure, length_drop]
    split_ifs <;> omega

/-- The loop of the merge, on the rows of two blocks that both have some: rows of the first block
are taken up to the next timestamp of the second one, then the blocks change places. -/
def mergeRows (rows1 : List (Int64 × Int64)) :
    List (Int64 × Int64) → List (Int64 × Int64)
  | [] => rows1
  | row2 :: rows2 =>
    if rows1.drop (partitionPoint (fun row => row.1 ≤ row2.1) rows1) = [] then
      rows1.take (partitionPoint (fun row => row.1 ≤ row2.1) rows1) ++ row2 :: rows2
    else
      rows1.take (partitionPoint (fun row => row.1 ≤ row2.1) rows1) ++
        mergeRows (row2 :: rows2) (rows1.drop (partitionPoint (fun row => row.1 ≤ row2.1) rows1))
termination_by rows2 => mergeMeasure rows1 rows2
decreasing_by
  rename_i hdrop
  exact mergeMeasure_lt hdrop

/-- Merges `ib1` and `ib2` into `ob`; counts the rows before the deadline. -/
def mergeBlocks (ob ib1 ib2 : Block) (retentionDeadline : Int64) (rowsDeleted : ℕ) :
    Outcome (Block × ℕ) := do
  ib1.assertMergeable ib2
  ib1.assertUnmarshaled
  ib2.assertUnmarshaled
  let (ib1, rowsDeleted) := skipSamplesOutsideRetention ib1 retentionDeadline rowsDeleted
  let (ib2, rowsDeleted) := skipSamplesOutsideRetention ib2 retentionDeadline rowsDeleted
  if ib1.bh.maxTimestamp < ib2.bh.minTimestamp then
    .ok (appendRows (appendRows ob ib1) ib2, rowsDeleted)
  else if ib2.bh.maxTimestamp < ib1.bh.minTimestamp then
    .ok (appendRows (appendRows ob ib2) ib1, rowsDeleted)
  else if ib1.unreadTimestamps = [] then .ok (appendRows ob ib2, rowsDeleted)
  else if ib2.unreadTimestamps = [] then .ok (appendRows ob ib1, rowsDeleted)
  else .ok (ob.extend (mergeRows ib1.rows ib2.rows), rowsDeleted)

/-- Unpacks two blocks and brings their values to one scale. -/
def unmarshalAndCalibrateScale (z : Zstd) (b1 b2 : Block) : Outcome (Block × Block) := do
  let b1 ← b1.unmarshalData z
  let b2 ← b2.unmarshalData z
  let (values1, values2, scale) := calibrateScale b1.values b1.bh.scale b2.values b2.bh.scale
  .ok ({ b1 with values := values1, bh := { b1.bh with scale } },
    { b2 with values := values2, bh := { b2.bh with scale } })

/-! ### The merger -/

instance : Inhabited BlockStreamReader :=
  ⟨⟨Block.reset, default, default, ⟨[], 0⟩, ⟨[], 0⟩, ⟨[], 0⟩, [], 0, none, 0, 0, 0, 0, 0, 0, 0, [],
    [], 0, none⟩⟩

/-- A reader as a source of blocks. -/
def readerOps (z : Zstd) : SourceOps BlockStreamReader Block :=
  ⟨BlockStreamReader.nextBlock z, BlockStreamReader.block, BlockStreamReader.error⟩

/-- A merger of block streams. -/
abbrev BlockStreamMerger : Type := HeapMerge BlockStreamReader

namespace BlockStreamMerger

/-- The order of the heap. -/
def heapLess (a b : Block) : Bool := a.bh.less b.bh

def describe (err : String) : String := s!"cannot obtain the next block to merge: {err}"

variable (z : Zstd)

def init (bsrs : List BlockStreamReader) : Outcome BlockStreamMerger :=
  HeapMerge.start (readerOps z) heapLess describe bsrs

/-- Advances to the next block, in the order of the headers. -/
def nextBlock (bsm : BlockStreamMerger) : Outcome (Bool × BlockStreamMerger) :=
  HeapMerge.next (readerOps z) heapLess describe bsm

/-- The block of the reader at the top. -/
def block (bsm : BlockStreamMerger) : Block := HeapMerge.cur (readerOps z) bsm

end BlockStreamMerger

/-- Why a merge has failed. -/
inductive MergeError where
  | forciblyStopped
  | other (msg : String)
  deriving DecidableEq, Repr

/-- What an iteration of the merge observes: the clock in seconds and the stop flag. -/
structure Tick where
  ct : ℕ
  stop : Bool

/-- The variables of the merge. -/
structure MergeState where
  pendingBlockIsEmpty : Bool
  pendingBlock : Block
  bsw : BlockStreamWriter
  ph : PartHeader
  updateStatsDeadline : ℕ
  localRowsMerged : ℕ
  localRowsDeleted : ℕ
  /-- The counters of the caller. -/
  rowsMerged : ℕ
  rowsDeleted : ℕ
  /-- The blocks that were handed to the writer, in their order. -/
  written : List Block

namespace MergeState

def flushStats (s : MergeState) : MergeState :=
  { s with
    rowsDeleted := s.rowsDeleted + s.localRowsDeleted
    localRowsDeleted := 0
    rowsMerged := s.rowsMerged + s.localRowsMerged
    localRowsMerged := 0 }

/-- Updates the external stats once per second. -/
def tickStats (s : MergeState) (ct : ℕ) : MergeState :=
  if ct > s.updateStatsDeadline then { s.flushStats with updateStatsDeadline := ct + 1 } else s

variable (z : Zstd) (dedupInterval : Int64)

/-- Hands a block to the writer. -/
def write (s : MergeState) (b : Block) : Outcome MergeState := do
  let (bsw, _, ph, localRowsMerged) ←
    s.bsw.writeExternalBlock z dedupInterval b s.ph s.localRowsMerged
  .ok { s with bsw, ph, localRowsMerged, written := s.written ++ [b] }

/-- The header's timestamps are those of the rows; the free function of the merger. -/
def fixupTimestamps (b : Block) : Outcome Block := do
  let minTimestamp ← Outcome.index b.unreadTimestamps.head?
  let maxTimestamp ← Outcome.index b.unreadTimestamps.getLast?
  .ok { b with bh := { b.bh with minTimestamp, maxTimestamp } }

/-- Merges the pending block with a block of the same series. -/
def mergePending (retentionDeadline : Int64) (s : MergeState) (b : Block) :
    Outcome MergeState := do
  let (pendingBlock, b) ← (unmarshalAndCalibrateScale z s.pendingBlock b).mapErr fun err =>
    s!"cannot unmarshal and calibrate scale for blocks to be merged: {err}"
  let tmpBlock : Block :=
    { Block.reset with
      bh := { Block.reset.bh with
        tsid := b.bh.tsid
        scale := b.bh.scale
        precisionBits := min pendingBlock.bh.precisionBits b.bh.precisionBits } }
  let (tmpBlock, localRowsDeleted) ←
    mergeBlocks tmpBlock pendingBlock b retentionDeadline s.localRowsDeleted
  let s := { s with localRowsDeleted }
  if tmpBlock.timestamps.length ≤ maxRowsPerBlock then
    if tmpBlock.timestamps = [] then
      .ok { s with pendingBlock := tmpBlock, pendingBlockIsEmpty := true }
    else do
      let tmpBlock ← fixupTimestamps tmpBlock
      .ok { s with pendingBlock := tmpBlock }
  else do
    -- the first rows are written, the rest stays pending
    let pendingBlock ← Block.init tmpBlock.bh.tsid (tmpBlock.timestamps.drop maxRowsPerBlock)
      (tmpBlock.values.drop maxRowsPerBlock) tmpBlock.bh.scale tmpBlock.bh.precisionBits
    let tmpBlock ← fixupTimestamps { tmpBlock with
      timestamps := tmpBlock.timestamps.take maxRowsPerBlock
      values := tmpBlock.values.take maxRowsPerBlock }
    write z dedupInterval { s with pendingBlock } tmpBlock

/-- What the merge does with the next block. -/
def mergeBlock (dmis : Option Uint64Set) (retentionDeadline : Int64) (s : MergeState) (b : Block) :
    Outcome MergeState := do
  if dmis.any fun dmis => dmis.has b.bh.tsid.metricId then
    .ok { s with localRowsDeleted := s.localRowsDeleted + b.bh.rowsCount.toNat }
  else if b.bh.maxTimestamp < retentionDeadline then
    .ok { s with localRowsDeleted := s.localRowsDeleted + b.bh.rowsCount.toNat }
  else if s.pendingBlockIsEmpty then
    .ok { s with pendingBlock := b.copyFrom, pendingBlockIsEmpty := false }
  else if s.pendingBlock.bh.tsid.metricId ≠ b.bh.tsid.metricId then do
    let tsid := b.bh.tsid.debug
    let pendingTsid := s.pendingBlock.bh.tsid.debug
    Outcome.assert (b.bh.tsid ≥ s.pendingBlock.bh.tsid)
      s!"BUG: the next TSID={tsid} is smaller than the current TSID={pendingTsid}"
    let s ← s.write z dedupInterval s.pendingBlock
    .ok { s with pendingBlock := b.copyFrom }
  else if s.pendingBlock.tooBig && s.pendingBlock.bh.maxTimestamp ≤ b.bh.minTimestamp then do
    let s ← s.write z dedupInterval s.pendingBlock
    .ok { s with pendingBlock := b.copyFrom }
  else s.mergePending z dedupInterval retentionDeadline b

/-- The loop of the merge, for at most as many iterations as there are ticks; `none` is a merge
that is still running. -/
def mergeLoop (dmis : Option Uint64Set) (retentionDeadline : Int64) :
    List Tick → BlockStreamMerger → MergeState →
      Outcome (Option (Except MergeError Unit × BlockStreamMerger × MergeState))
  | [], bsm, s => do
    let (has, bsm) ← bsm.nextBlock z
    if has then .ok none else .ok (some (.ok (), bsm, s))
  | tick :: ticks, bsm, s => do
    let (has, bsm) ← bsm.nextBlock z
    if !has then .ok (some (.ok (), bsm, s))
    else
      let s := s.tickStats tick.ct
      if tick.stop then .ok (some (.error .forciblyStopped, bsm, s))
      else
        match s.mergeBlock z dedupInterval dmis retentionDeadline (bsm.block z) with
        | .ok s => mergeLoop dmis retentionDeadline ticks bsm s
        | .err msg => .ok (some (.error (.other msg), bsm, s))
        | .panic msg => .panic msg

/-- The state in which a merge begins. -/
def start (bsw : BlockStreamWriter) (rowsMerged rowsDeleted : ℕ) : MergeState :=
  ⟨true, Block.reset, bsw, default, 0, 0, 0, rowsMerged, rowsDeleted, []⟩

end MergeState

/-- The blocks of the readers are merged; the last pending block is written at the end. -/
def mergeBlockStreamsInternal (z : Zstd) (dedupInterval : Int64) (bsm : BlockStreamMerger)
    (dmis : Option Uint64Set) (retentionDeadline : Int64) (ticks : List Tick) (s : MergeState) :
    Outcome (Option (Except MergeError Unit × MergeState)) := do
  match ← s.mergeLoop z dedupInterval dmis retentionDeadline ticks bsm with
  | none => .ok none
  | some (.error err, _, s) => .ok (some (.error err, s.flushStats))
  | some (.ok (), bsm, s) =>
    match bsm.error with
    | some err =>
      .ok (some (.error (.other s!"cannot read block to be merged: {err}"), s.flushStats))
    | none => do
      let s ← (if s.pendingBlockIsEmpty then .ok s else s.write z dedupInterval s.pendingBlock)
      .ok (some (.ok (), s.flushStats))

/-- Merges the blocks of `bsrs` into `bsw`; the writer is always closed. -/
def mergeBlockStreams (z : Zstd) (dedupInterval : Int64) (bsw : BlockStreamWriter)
    (bsrs : List BlockStreamReader) (dmis : Option Uint64Set) (retentionDeadline : Int64)
    (rowsMerged rowsDeleted : ℕ) (ticks : List Tick) :
    Outcome (Option (Except MergeError (Bytes × Bytes × Bytes × Bytes) × MergeState)) := do
  let bsm ← BlockStreamMerger.init z bsrs
  match ← mergeBlockStreamsInternal z dedupInterval bsm dmis retentionDeadline ticks
    (.start bsw rowsMerged rowsDeleted) with
  | none => .ok none
  | some (res, s) => do
    let bufs ← s.bsw.mustClose z
    match res with
    | .ok () => .ok (some (.ok bufs, s))
    | .error .forciblyStopped => .ok (some (.error .forciblyStopped, s))
    | .error (.other msg) =>
      let n := bsrs.length
      .ok (some (.error (.other s!"cannot merge {n} streams: {msg}"), s))

/-! ### The rows of a merge -/

/-- Every row of the first block is merged with a row of the second, each once. -/
theorem mergeRows_perm (rows1 rows2 : List (Int64 × Int64)) :
    (mergeRows rows1 rows2).Perm (rows1 ++ rows2) := by
  fun_induction mergeRows rows1 rows2 with
  | case1 rows1 => rw [append_nil]
  | case2 rows1 row2 rows2 hdrop =>
    have hall : rows1.take (partitionPoint (fun row => row.1 ≤ row2.1) rows1) = rows1 := by
      have h := take_append_drop (partitionPoint (fun row => row.1 ≤ row2.1) rows1) rows1
      rwa [hdrop, append_nil] at h
    rw [hall]
  | case3 rows1 row2 rows2 hdrop ih =>
    refine (ih.append_left _).trans ?_
    refine (perm_append_comm.append_left _).trans ?_
    rw [← append_assoc, take_append_drop]

/-- Merging sorted rows gives sorted rows. -/
theorem mergeRows_sorted {rows1 rows2 : List (Int64 × Int64)}
    (h1 : rows1.Pairwise fun a b => a.1 ≤ b.1) (h2 : rows2.Pairwise fun a b => a.1 ≤ b.1) :
    (mergeRows rows1 rows2).Pairwise fun a b => a.1 ≤ b.1 := by
  fun_induction mergeRows rows1 rows2 with
  | case1 rows1 => exact h1
  | case2 rows1 row2 rows2 hdrop =>
    rw [take_partitionPoint]
    refine pairwise_append.mpr ⟨h1.sublist (takeWhile_sublist _), h2, ?_⟩
    intro a ha b hb
    have hle : a.1 ≤ row2.1 := by simpa using forall_mem_takeWhile _ a ha
    rcases mem_cons.mp hb with rfl | hb
    · exact hle
    · exact hle.trans ((pairwise_cons.mp h2).1 b hb)
  | case3 rows1 row2 rows2 hdrop ih =>
    have hsplit := take_append_drop (partitionPoint (fun row => row.1 ≤ row2.1) rows1) rows1
    rw [← hsplit] at h1
    obtain ⟨htake, hrest, hacross⟩ := pairwise_append.mp h1
    refine pairwise_append.mpr ⟨htake, ih h2 hrest, ?_⟩
    intro a ha b hb
    rw [take_partitionPoint] at ha
    have hle : a.1 ≤ row2.1 := by simpa using forall_mem_takeWhile _ a ha
    rcases mem_append.mp ((mergeRows_perm _ _).mem_iff.mp hb) with hb | hb
    · rcases mem_cons.mp hb with rfl | hb
      · exact hle
      · exact hle.trans ((pairwise_cons.mp h2).1 b hb)
    · rw [← take_partitionPoint] at ha
      exact hacross a ha b hb

/-- A block whose rows are unpacked, sorted and in the range of the header, as a reader returns it
and as the merge keeps it. -/
structure Block.Loaded (b : Block) : Prop where
  nextIdx_eq : b.nextIdx = 0
  length_eq : b.values.length = b.timestamps.length
  values_ne : b.values ≠ []
  timestampsData_eq : b.timestampsData = []
  valuesData_eq : b.valuesData = []
  sorted : b.timestamps.Pairwise (· ≤ ·)
  minTimestamp_eq : b.timestamps.head? = some b.bh.minTimestamp
  maxTimestamp_eq : b.timestamps.getLast? = some b.bh.maxTimestamp
  precisionBits_eq : b.bh.precisionBits = 64

namespace Block.Loaded

variable {b : Block} (h : b.Loaded)

include h

theorem unreadTimestamps_eq : b.unreadTimestamps = b.timestamps := by
  rw [unreadTimestamps, h.nextIdx_eq, drop_zero]

theorem unreadValues_eq : b.unreadValues = b.values := by
  rw [unreadValues, h.nextIdx_eq, drop_zero]

theorem rows_eq : b.rows = b.timestamps.zip b.values := by
  rw [rows, h.unreadTimestamps_eq, h.unreadValues_eq]

theorem map_fst_rows : b.rows.map fst = b.timestamps := by
  rw [h.rows_eq, map_fst_zip h.length_eq.ge]

theorem map_snd_rows : b.rows.map snd = b.values := by
  rw [h.rows_eq, map_snd_zip h.length_eq.le]

theorem length_rows : b.rows.length = b.values.length := by
  rw [← h.map_snd_rows, length_map]

theorem rows_ne : b.rows ≠ [] := by
  rw [← length_pos_iff, h.length_rows]
  exact length_pos_iff.mpr h.values_ne

theorem rows_sorted : b.rows.Pairwise fun a b => a.1 ≤ b.1 := by
  have hs := h.sorted
  rwa [← h.map_fst_rows, pairwise_map] at hs

/-- The rows are in the range of the header. -/
theorem mem_range {row : Int64 × Int64} (hrow : row ∈ b.rows) :
    b.bh.minTimestamp ≤ row.1 ∧ row.1 ≤ b.bh.maxTimestamp := by
  have hmem : row.1 ∈ b.timestamps := by
    rw [← h.map_fst_rows]
    exact mem_map_of_mem hrow
  have hs := h.sorted
  obtain ⟨tail, htail⟩ := head?_eq_some_iff.mp h.minTimestamp_eq
  obtain ⟨front, hfront⟩ := getLast?_eq_some_iff.mp h.maxTimestamp_eq
  refine ⟨?_, ?_⟩
  · rw [htail] at hs hmem
    rcases mem_cons.mp hmem with heq | hmem
    · exact heq.ge
    · exact (pairwise_cons.mp hs).1 _ hmem
  · rw [hfront] at hs hmem
    rcases mem_append.mp hmem with hmem | hmem
    · exact (pairwise_append.mp hs).2.2 _ hmem _ mem_cons_self
    · exact (mem_singleton.mp hmem).le

/-- The end of the range of the header is the timestamp of a row. -/
theorem exists_row_max : ∃ row ∈ b.rows, row.1 = b.bh.maxTimestamp := by
  have hmem : b.bh.maxTimestamp ∈ b.timestamps := mem_of_getLast? h.maxTimestamp_eq
  rw [← h.map_fst_rows] at hmem
  obtain ⟨row, hrow, heq⟩ := mem_map.mp hmem
  exact ⟨row, hrow, heq⟩

theorem copyFrom_eq : b.copyFrom = b := by
  rw [copyFrom, h.nextIdx_eq, drop_zero, drop_zero]
  obtain ⟨bh, nextIdx, timestamps, values, headerData, timestampsData, valuesData⟩ := b
  obtain rfl : nextIdx = 0 := h.nextIdx_eq
  rfl

theorem unmarshalData_eq (z : Zstd) : b.unmarshalData z = .ok b := by
  simp [unmarshalData, h.values_ne, h.valuesData_eq, h.timestampsData_eq, Outcome.assert_of]

theorem assertUnmarshaled_eq : b.assertUnmarshaled = .ok () := by
  have hidx : b.nextIdx ≤ b.values.length := by
    rw [h.nextIdx_eq]
    exact Nat.zero_le _
  simp only [assertUnmarshaled, Outcome.assert_of h.valuesData_eq,
    Outcome.assert_of h.timestampsData_eq, Outcome.assert_of h.length_eq, Outcome.assert_of hidx,
    Outcome.ok_bind]

end Block.Loaded

theorem Block.assertMergeable_eq {b ib : Block}
    (hmetric : b.bh.tsid.metricId = ib.bh.tsid.metricId) (hscale : b.bh.scale = ib.bh.scale) :
    b.assertMergeable ib = .ok () := by
  simp only [assertMergeable, Outcome.assert_of hmetric, Outcome.assert_of hscale, Outcome.ok_bind]

/-- The rows of a block that are not before the deadline. -/
def keptRows (retentionDeadline : Int64) (b : Block) : List (Int64 × Int64) :=
  b.rows.dropWhile fun row => row.1 < retentionDeadline

/-- The rows of a block that are before the deadline. -/
def skippedRows (retentionDeadline : Int64) (b : Block) : List (Int64 × Int64) :=
  b.rows.takeWhile fun row => row.1 < retentionDeadline

/-- The rows that the merge of two blocks gives. -/
def mergedRows (retentionDeadline : Int64) (ib1 ib2 : Block) : List (Int64 × Int64) :=
  let rows1 := keptRows retentionDeadline ib1
  let rows2 := keptRows retentionDeadline ib2
  if ib1.bh.maxTimestamp < ib2.bh.minTimestamp then rows1 ++ rows2
  else if ib2.bh.maxTimestamp < ib1.bh.minTimestamp then rows2 ++ rows1
  else if rows1 = [] then rows2
  else if rows2 = [] then rows1
  else mergeRows rows1 rows2

theorem Block.iterate_nextRow {b : Block} {n : ℕ} (h : b.nextIdx + n ≤ b.values.length) :
    Block.nextRow^[n] b = { b with nextIdx := b.nextIdx + n } := by
  induction n generalizing b with
  | zero => rfl
  | succ n ih =>
    have hlt : b.nextIdx ≠ b.values.length := by omega
    have hnext : b.nextRow = { b with nextIdx := b.nextIdx + 1 } := if_neg hlt
    rw [Function.iterate_succ_apply, hnext, ih (by simp only; omega)]
    simp only [Nat.add_assoc, Nat.add_comm 1 n]

/-- Skipping leaves the header as it is and keeps the rows that are not before the deadline. -/
theorem skipSamplesOutsideRetention_eq {b : Block} (h : b.Loaded) (retentionDeadline : Int64)
    (rowsDeleted : ℕ) :
    ∃ b', skipSamplesOutsideRetention b retentionDeadline rowsDeleted =
        (b', rowsDeleted + (skippedRows retentionDeadline b).length) ∧ b'.bh = b.bh ∧
      b'.unreadTimestamps = (keptRows retentionDeadline b).map fst ∧
      b'.unreadValues = (keptRows retentionDeadline b).map snd := by
  rw [skipSamplesOutsideRetention]
  split_ifs with hmin
  · have hnone : ∀ row ∈ b.rows, ¬ row.1 < retentionDeadline := fun row hrow =>
      not_lt.mpr (le_trans hmin (h.mem_range hrow).1)
    have hskip : skippedRows retentionDeadline b = [] := by
      obtain ⟨row, rows, heq⟩ := exists_cons_of_ne_nil h.rows_ne
      have hfirst := hnone row (by rw [heq]; exact mem_cons_self)
      rw [skippedRows, heq, takeWhile_cons_of_neg (by simpa using hfirst)]
    have hkept : keptRows retentionDeadline b = b.rows := by
      have hsplit := takeWhile_append_dropWhile
        (p := fun row : Int64 × Int64 => decide (row.1 < retentionDeadline)) (l := b.rows)
      rwa [show b.rows.takeWhile _ = [] from hskip, nil_append] at hsplit
    refine ⟨b, by rw [hskip]; rfl, rfl, ?_, ?_⟩
    · rw [hkept, h.map_fst_rows, h.unreadTimestamps_eq]
    · rw [hkept, h.map_snd_rows, h.unreadValues_eq]
  · set n := (b.unreadTimestamps.takeWhile fun ts => ts < retentionDeadline).length with hn
    have hlen : (skippedRows retentionDeadline b).length = n := by
      rw [hn, skippedRows, h.unreadTimestamps_eq, ← h.map_fst_rows, takeWhile_map,
        length_map]
      rfl
    have hle : n ≤ b.values.length := by
      rw [← h.length_rows, ← hlen]
      exact (takeWhile_sublist _).length_le
    have hkept : keptRows retentionDeadline b = b.rows.drop n := by
      rw [← hlen]
      exact (drop_partitionPoint _ _).symm
    refine ⟨_, by rw [hlen], ?_, ?_, ?_⟩
    · rw [Block.iterate_nextRow (by rw [h.nextIdx_eq]; omega)]
    · rw [Block.iterate_nextRow (by rw [h.nextIdx_eq]; omega), hkept, map_drop, h.map_fst_rows,
        h.nextIdx_eq, Nat.zero_add]
      rfl
    · rw [Block.iterate_nextRow (by rw [h.nextIdx_eq]; omega), hkept, map_drop, h.map_snd_rows,
        h.nextIdx_eq, Nat.zero_add]
      rfl

/-- What merging two blocks does. -/
theorem mergeBlocks_eq {ib1 ib2 : Block} (h1 : ib1.Loaded) (h2 : ib2.Loaded)
    (hmetric : ib1.bh.tsid.metricId = ib2.bh.tsid.metricId) (hscale : ib1.bh.scale = ib2.bh.scale)
    (ob : Block) (retentionDeadline : Int64) (rowsDeleted : ℕ) :
    mergeBlocks ob ib1 ib2 retentionDeadline rowsDeleted =
      .ok (ob.extend (mergedRows retentionDeadline ib1 ib2),
        rowsDeleted + (skippedRows retentionDeadline ib1).length +
          (skippedRows retentionDeadline ib2).length) := by
  obtain ⟨ib1', hskip1, hbh1, hts1, hvals1⟩ :=
    skipSamplesOutsideRetention_eq h1 retentionDeadline rowsDeleted
  obtain ⟨ib2', hskip2, hbh2, hts2, hvals2⟩ := skipSamplesOutsideRetention_eq h2 retentionDeadline
    (rowsDeleted + (skippedRows retentionDeadline ib1).length)
  have hrows : ∀ {ib : Block} {rows : List (Int64 × Int64)},
      ib.unreadTimestamps = rows.map fst → ib.unreadValues = rows.map snd →
      ib.rows = rows := by
    intro ib rows hts hvals
    rw [Block.rows, hts, hvals, ← unzip_fst, ← unzip_snd, zip_unzip]
  simp only [mergeBlocks, Block.assertMergeable_eq hmetric hscale, h1.assertUnmarshaled_eq,
    h2.assertUnmarshaled_eq, Outcome.ok_bind, hskip1, hskip2, hbh1, hbh2, hts1, hts2,
    map_eq_nil_iff, hrows hts1 hvals1, hrows hts2 hvals2, mergedRows]
  split_ifs <;> simp [appendRows, Block.extend, hts1, hts2, hvals1, hvals2, append_assoc]

theorem keptRows_sublist (retentionDeadline : Int64) (b : Block) :
    (keptRows retentionDeadline b).Sublist b.rows :=
  dropWhile_sublist _

theorem skippedRows_append_keptRows (retentionDeadline : Int64) (b : Block) :
    skippedRows retentionDeadline b ++ keptRows retentionDeadline b = b.rows :=
  takeWhile_append_dropWhile

theorem lt_of_mem_skippedRows {retentionDeadline : Int64} {b : Block} {row : Int64 × Int64}
    (h : row ∈ skippedRows retentionDeadline b) : row.1 < retentionDeadline := by
  simpa using forall_mem_takeWhile _ row h

theorem mergedRows_perm (retentionDeadline : Int64) (ib1 ib2 : Block) :
    (mergedRows retentionDeadline ib1 ib2).Perm
      (keptRows retentionDeadline ib1 ++ keptRows retentionDeadline ib2) := by
  simp only [mergedRows]
  split_ifs with h1 h2 h3 h4
  · exact Perm.refl _
  · exact perm_append_comm
  · rw [h3, nil_append]
  · rw [h4, append_nil]
  · exact mergeRows_perm _ _

/-- The merge of two blocks is sorted. The header of a block whose first rows were skipped still
bounds the others, so the shortcuts are right. -/
theorem mergedRows_sorted {retentionDeadline : Int64} {ib1 ib2 : Block} (h1 : ib1.Loaded)
    (h2 : ib2.Loaded) :
    (mergedRows retentionDeadline ib1 ib2).Pairwise fun a b => a.1 ≤ b.1 := by
  have hkept1 := h1.rows_sorted.sublist (keptRows_sublist retentionDeadline ib1)
  have hkept2 := h2.rows_sorted.sublist (keptRows_sublist retentionDeadline ib2)
  have happend : ∀ {b b' : Block}, b.Loaded → b'.Loaded → b.bh.maxTimestamp < b'.bh.minTimestamp →
      (keptRows retentionDeadline b).Pairwise (fun a b => a.1 ≤ b.1) →
      (keptRows retentionDeadline b').Pairwise (fun a b => a.1 ≤ b.1) →
      (keptRows retentionDeadline b ++ keptRows retentionDeadline b').Pairwise
        fun a b => a.1 ≤ b.1 := by
    intro b b' hb hb' hlt hs hs'
    refine pairwise_append.mpr ⟨hs, hs', fun row hrow row' hrow' => ?_⟩
    have hle := (hb.mem_range ((keptRows_sublist _ _).subset hrow)).2
    have hge := (hb'.mem_range ((keptRows_sublist _ _).subset hrow')).1
    exact hle.trans (hlt.le.trans hge)
  simp only [mergedRows]
  split_ifs with hlt1 hlt2
  · exact happend h1 h2 hlt1 hkept1 hkept2
  · exact happend h2 h1 hlt2 hkept2 hkept1
  · exact hkept2
  · exact hkept1
  · exact mergeRows_sorted hkept1 hkept2

/-- A block of the series of `b` with the given rows. -/
def Block.ofMerged (b : Block) (rows : List (Int64 × Int64)) : Block :=
  { Block.reset with
    bh := { Block.reset.bh with
      tsid := b.bh.tsid
      scale := b.bh.scale
      precisionBits := b.bh.precisionBits
      minTimestamp := (rows.head?.map fst).getD 0
      maxTimestamp := (rows.getLast?.map fst).getD 0 }
    timestamps := rows.map fst
    values := rows.map snd }

variable {rows : List (Int64 × Int64)}

theorem Block.loaded_ofMerged {b : Block} (hb : b.Loaded) (hne : rows ≠ [])
    (hsorted : rows.Pairwise fun a b => a.1 ≤ b.1) : (b.ofMerged rows).Loaded where
  nextIdx_eq := rfl
  length_eq := by simp [ofMerged]
  values_ne := by simpa [ofMerged] using hne
  timestampsData_eq := rfl
  valuesData_eq := rfl
  sorted := by
    rw [ofMerged, pairwise_map]
    exact hsorted
  minTimestamp_eq := by
    obtain ⟨row, rows, rfl⟩ := exists_cons_of_ne_nil hne
    rfl
  maxTimestamp_eq := by
    have hlast := getLast?_eq_getLast_of_ne_nil hne
    simp [ofMerged, hlast]
  precisionBits_eq := hb.precisionBits_eq

@[simp]
theorem Block.rows_ofMerged (b : Block) (rows : List (Int64 × Int64)) :
    (b.ofMerged rows).rows = rows := by
  change ((rows.map fst).drop 0).zip ((rows.map snd).drop 0) = rows
  rw [drop_zero, drop_zero, ← unzip_fst, ← unzip_snd, zip_unzip]

theorem MergeState.fixupTimestamps_eq {b : Block} (hne : rows ≠ []) :
    MergeState.fixupTimestamps
        { Block.reset with
          bh := { Block.reset.bh with
            tsid := b.bh.tsid, scale := b.bh.scale, precisionBits := b.bh.precisionBits }
          timestamps := rows.map fst
          values := rows.map snd } = .ok (b.ofMerged rows) := by
  obtain ⟨first, hfirst⟩ := Option.isSome_iff_exists.mp (isSome_head?.mpr hne)
  have hlast := getLast?_eq_getLast_of_ne_nil hne
  have hidx : Block.reset.nextIdx = 0 := rfl
  simp only [MergeState.fixupTimestamps, Block.unreadTimestamps, hidx, drop_zero,
    head?_map, getLast?_map, hfirst, hlast, Option.map_some, Outcome.index_some,
    Outcome.ok_bind, Block.ofMerged, Option.getD_some]

theorem Block.init_eq_ofMerged {b : Block} (hne : rows ≠ []) :
    Block.init b.bh.tsid (rows.map fst) (rows.map snd) b.bh.scale b.bh.precisionBits =
      .ok (b.ofMerged rows) := by
  obtain ⟨first, rows', rfl⟩ := exists_cons_of_ne_nil hne
  have hlast := getLast?_eq_getLast_of_ne_nil hne
  have hne' : ¬ (first :: rows').map fst = [] := by simp
  have hidx : Block.reset.nextIdx = 0 := rfl
  have hget : ((first :: rows').map fst)[0]? = some first.1 := rfl
  simp only [Block.init, if_neg hne', Block.fixupTimestamps, hidx, hget, getLast?_map, hlast,
    Option.map_some, Outcome.index_some, Outcome.ok_bind, Block.ofMerged, Option.getD_some,
    head?_cons]

/-- What merging with the pending block does. -/
theorem MergeState.mergePending_eq (z : Zstd) (dedupInterval retentionDeadline : Int64)
    {s : MergeState} {b : Block} (hp : s.pendingBlock.Loaded) (hb : b.Loaded)
    (hmetric : s.pendingBlock.bh.tsid.metricId = b.bh.tsid.metricId)
    (hscale : s.pendingBlock.bh.scale = b.bh.scale)
    (hne : mergedRows retentionDeadline s.pendingBlock b ≠ []) :
    s.mergePending z dedupInterval retentionDeadline b =
      let rows := mergedRows retentionDeadline s.pendingBlock b
      let localRowsDeleted := s.localRowsDeleted +
        (skippedRows retentionDeadline s.pendingBlock).length +
        (skippedRows retentionDeadline b).length
      if rows.length ≤ maxRowsPerBlock then
        .ok { s with pendingBlock := b.ofMerged rows, localRowsDeleted }
      else
        write z dedupInterval
          { s with pendingBlock := b.ofMerged (rows.drop maxRowsPerBlock), localRowsDeleted }
          (b.ofMerged (rows.take maxRowsPerBlock)) := by
  have hcal : unmarshalAndCalibrateScale z s.pendingBlock b = .ok (s.pendingBlock, b) := by
    have hself : ({ b with bh := { b.bh with scale := s.pendingBlock.bh.scale } } : Block) = b := by
      rw [hscale]
    simp only [unmarshalAndCalibrateScale, hp.unmarshalData_eq, hb.unmarshalData_eq,
      Outcome.ok_bind, ← hscale, calibrateScale_self]
    exact congrArg (fun b' => Outcome.ok (s.pendingBlock, b')) hself
  have hprec : min s.pendingBlock.bh.precisionBits b.bh.precisionBits = b.bh.precisionBits := by
    rw [hp.precisionBits_eq, hb.precisionBits_eq, min_self]
  set rows := mergedRows retentionDeadline s.pendingBlock b with hrows
  have hreset : Block.reset.timestamps = [] ∧ Block.reset.values = [] := ⟨rfl, rfl⟩
  have hne' : ¬ rows.map fst = [] := by simpa using hne
  simp only [mergePending, hcal, Outcome.mapErr_ok, Outcome.ok_bind, hprec,
    mergeBlocks_eq hp hb hmetric hscale, Block.extend, hreset.1, hreset.2, nil_append,
    length_map, ← hrows, if_neg hne']
  split_ifs with hlen
  · rw [fixupTimestamps_eq hne]
    rfl
  · have hdrop : rows.drop maxRowsPerBlock ≠ [] := by
      rw [Ne, drop_eq_nil_iff]
      omega
    have htake : rows.take maxRowsPerBlock ≠ [] := by
      intro h
      have hlen' := congrArg List.length h
      rw [length_take, length_nil] at hlen'
      have hmax : maxRowsPerBlock = 8192 := rfl
      omega
    rw [← map_drop, ← map_drop, ← map_take, ← map_take,
      Block.init_eq_ofMerged hdrop, Outcome.ok_bind, fixupTimestamps_eq htake, Outcome.ok_bind]

end Esmetrics
