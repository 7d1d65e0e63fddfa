import Esmetrics.Lib.BinaryHeap
import Esmetrics.Lib.HeapMerge
import Esmetrics.Mergeset.BlockStream

/-!
# Merging streams of index items

Model of `esm-mergeset/src/merge.rs`. The readers are kept in a heap by their current items. In
every round, items of the block of the root are moved to a scratch block as long as they do not
exceed the current item of the next reader; the scratch block is written when an item does not fit.

The merge ends, and writes the items of all the streams, sorted (`mergeBlockStreams_ok`).
-/

namespace Esmetrics.Mergeset

open scoped List

/-- Why a merge has failed. -/
inductive MergeError where
  | forciblyStopped
  | other (msg : String)
deriving DecidableEq, Repr

/-- What a round of the merge observes: the clock in seconds and the stop flag. -/
structure Tick where
  ct : ℕ
  stop : Bool

/-- Transforms the items of a block before it is written. -/
abbrev PrepareBlockCallback := List Bytes → List Bytes

/-- The scratch block with pending items, and where it is written. -/
structure Output where
  ib : InmemoryBlock
  phFirstItemCaught : Bool
  bsw : BlockStreamWriter
  ph : PartHeader
  localItemsMerged : ℕ
  /-- The stored forms of the blocks that were written, in their order. -/
  written : List InmemoryBlock.Marshaled

namespace Output

variable (z : Zstd) (prepareBlock : Option PrepareBlockCallback)

/-- Writes the items of the scratch block. -/
def writeItems (o : Output) : Outcome Output := do
  let firstItem ← Outcome.index o.ib.items.head?
  let lastItem ← Outcome.index o.ib.items.getLast?
  let ph := { o.ph with
    itemsCount := o.ph.itemsCount + o.ib.items.length
    firstItem := if o.phFirstItemCaught then o.ph.firstItem else firstItem
    lastItem }
  let (bsw, m, _) ← o.bsw.writeBlock z o.ib
  .ok { o with
    ib := .reset
    phFirstItemCaught := true
    bsw
    ph := { ph with blocksCount := ph.blocksCount + 1 }
    written := o.written ++ [m] }

/-- Applies the callback to the scratch block, and checks what it has done. That the items stay
sorted is checked in debug builds only. -/
def prepare (cb : PrepareBlockCallback) (o : Output) : Outcome Output := do
  let items := cb o.ib.items
  if items ≠ [] then
    Outcome.assert (o.ib.items.headD [] ≤ items.headD [])
      "BUG: prepareBlock must return the first item bigger or equal to the original first item"
    Outcome.assert (items.getLastD [] ≤ o.ib.items.getLastD [])
      "BUG: prepareBlock must return the last item smaller or equal to the original last item"
    .ok { o with ib := { o.ib with items } }
  else .ok { o with ib := { o.ib with items } }

/-- Writes the scratch block, unless it is empty. -/
def flushIb (o : Output) : Outcome Output := do
  if o.ib.items = [] then .ok o
  else
    let o := { o with localItemsMerged := o.localItemsMerged + o.ib.items.length }
    match prepareBlock with
    | none => o.writeItems z
    | some cb => do
      let o ← o.prepare cb
      if o.ib.items = [] then .ok o else o.writeItems z

/-- Moves items to the scratch block, up to the first one that exceeds the next item if items are
compared; tells whether there is such an item, and how many items were moved in all. The result
`none` is a loop that never ends: an item that does not fit an empty block. -/
def drain (nextItem : Option Bytes) :
    List Bytes → ℕ → Output → Outcome (Option (Bool × ℕ × Output))
  | [], idx, o => .ok (some (false, idx, o))
  | item :: items, idx, o =>
    if nextItem.any (· < item) then .ok (some (true, idx, o))
    else
      match o.ib.add item with
      | some ib => drain nextItem items (idx + 1) { o with ib }
      | none => do
        -- the scratch block is full; it is written, and the same item is tried again
        let o ← o.flushIb z prepareBlock
        match o.ib.add item with
        | some ib => drain nextItem items (idx + 1) { o with ib }
        | none => .ok none

end Output

/-- The variables of the merge. -/
structure MergeState where
  bsrs : List BlockStreamReader
  /-- Indices of readers, as a heap ordered by the current items. -/
  heap : Array ℕ
  /-- A copy of the current item of the next reader. -/
  nextItem : Bytes
  out : Output
  updateStatsDeadline : ℕ
  /-- The counter of the caller. -/
  itemsMerged : ℕ

/-- The comparison of the heap. -/
def heapLess (bsrs : List BlockStreamReader) (i j : ℕ) : Outcome Bool := do
  let a ← (bsrs[i]!).currItem
  let b ← (bsrs[j]!).currItem
  .ok (decide (a < b))

def siftDown (bsrs : List BlockStreamReader) (heap : Array ℕ) (i : ℕ) : Outcome (Array ℕ) :=
  siftDownM (heapLess bsrs) heap i

def heapInit (bsrs : List BlockStreamReader) (heap : Array ℕ) : Outcome (Array ℕ) :=
  heapifyM (heapLess bsrs) heap

def heapPopTop (bsrs : List BlockStreamReader) (heap : Array ℕ) : Outcome (Array ℕ) :=
  siftDown bsrs (heap.swapIfInBounds 0 (heap.size - 1)).pop 0

namespace MergeState

variable (z : Zstd) (prepareBlock : Option PrepareBlockCallback)

/-- Advances the readers from index `i` on to their first blocks; returns the indices of those that
have one. -/
def initReaders (i : ℕ) : List BlockStreamReader → Outcome (List BlockStreamReader × List ℕ)
  | [] => .ok ([], [])
  | r :: rs => do
    let (has, r) ← r.next z
    match r.error with
    | some err => .err s!"cannot obtain the next block from blockStreamReader: {err}"
    | none =>
      let (rs, is) ← initReaders (i + 1) rs
      .ok (r :: rs, if has then i :: is else is)

/-- The readers at their first blocks, with their heap. -/
def init (bsrs : List BlockStreamReader) : Outcome (List BlockStreamReader × Array ℕ) := do
  let (bsrs, is) ← initReaders z 0 bsrs
  let heap ← heapInit bsrs is.toArray
  if heap.isEmpty then .err "bsrHeap cannot be empty" else .ok (bsrs, heap)

/-- The reader with the smaller current item among the children of the root. -/
def nextReader (s : MergeState) : Outcome (Option ℕ) := do
  if s.heap.size < 2 then .ok none
  else if s.heap.size < 3 then .ok (some s.heap[1]!)
  else
    let a := s.heap[1]!
    let b := s.heap[2]!
    let itemA ← (s.bsrs[a]!).currItem
    let itemB ← (s.bsrs[b]!).currItem
    .ok (some (if itemA ≤ itemB then a else b))

/-- The current item of the next reader; without one, the copy stays what it was. -/
def copyNextItem (s : MergeState) : Option ℕ → Outcome Bytes
  | some i => (s.bsrs[i]!).currItem
  | none => .ok s.nextItem

def flushStats (s : MergeState) : MergeState :=
  { s with
    itemsMerged := s.itemsMerged + s.out.localItemsMerged
    out := { s.out with localItemsMerged := 0 } }

/-- Updates the counter of the caller about once per second. -/
def tickStats (s : MergeState) (ct : ℕ) : MergeState :=
  if ct > s.updateStatsDeadline then { s.flushStats with updateStatsDeadline := ct + 1 } else s

/-- Whether the items of the block of the root have to be compared with the next item, one by one:
not if its last item does not exceed the next item. -/
def compareEveryItem (bsr : BlockStreamReader) (hasNextItem : Bool) (nextItem : Bytes) : Bool :=
  if bsr.currItemIdx < bsr.block.items.length then
    hasNextItem && bsr.block.items.getLast?.any (nextItem < ·)
  else true

/-- The end of a round: the reader of the root goes to its next block if its block is read to the
end, and its place in the heap is restored. Returns the error of the reader, if any. -/
def advanceTop (s : MergeState) (nextItemExceeded : Bool) :
    Outcome (Option String × MergeState) := do
  if !nextItemExceeded then
    let top := s.heap[0]!
    let (has, bsr) ← (s.bsrs[top]!).next z
    let s := { s with bsrs := s.bsrs.set top bsr }
    if has then
      let heap ← siftDown s.bsrs s.heap 0
      .ok (none, { s with heap })
    else
      match bsr.error with
      | some err => .ok (some s!"cannot read storageBlock: {err}", s)
      | none =>
        let heap ← heapPopTop s.bsrs s.heap
        .ok (none, { s with heap })
  else
    let heap ← siftDown s.bsrs s.heap 0
    .ok (none, { s with heap })

/-- A round of the merge: the items of the root. Returns the error of a reader, if any. -/
def mergeTop (s : MergeState) : Outcome (Option (Option String × MergeState)) := do
  let top := s.heap[0]!
  let next ← s.nextReader
  let nextItem ← s.copyNextItem next
  let bsr := s.bsrs[top]!
  let compare := compareEveryItem bsr next.isSome nextItem
  let drained ← s.out.drain z prepareBlock (if compare then some nextItem else none)
    (bsr.block.items.drop bsr.currItemIdx) bsr.currItemIdx
  match drained with
  | none => .ok none
  | some (nextItemExceeded, currItemIdx, out) => do
    let bsrs := s.bsrs.set top { bsr with currItemIdx }
    let res ← advanceTop z { s with nextItem, out, bsrs } nextItemExceeded
    .ok (some res)

/-- The loop of the merge, for at most as many rounds as there are ticks; `none` is a merge that is
still running. -/
def mergeLoop : List Tick → MergeState → Outcome (Option (Except MergeError Unit × MergeState))
  | [], _ => .ok none
  | tick :: ticks, s => do
    let s := s.tickStats tick.ct
    if s.heap.isEmpty then
      let out ← s.out.flushIb z prepareBlock
      .ok (some (.ok (), flushStats { s with out }))
    else if tick.stop then .ok (some (.error .forciblyStopped, s.flushStats))
    else
      match ← s.mergeTop z prepareBlock with
      | none => .ok none
      | some (none, s) => mergeLoop ticks s
      | some (some err, s) => .ok (some (.error (.other err), s.flushStats))

/-- The state in which a merge begins. -/
def start (bsrs : List BlockStreamReader) (heap : Array ℕ) (bsw : BlockStreamWriter)
    (ph : PartHeader) (itemsMerged : ℕ) : MergeState :=
  ⟨bsrs, heap, [], ⟨.reset, false, bsw, ph, 0, []⟩, 0, itemsMerged⟩

end MergeState

/-- Merges `bsrs` into `bsw` and fills `ph`; the writer is always closed. -/
def mergeBlockStreams (z : Zstd) (ph : PartHeader) (bsw : BlockStreamWriter)
    (bsrs : List BlockStreamReader) (prepareBlock : Option PrepareBlockCallback) (itemsMerged : ℕ)
    (ticks : List Tick) :
    Outcome (Option (Except MergeError (Bytes × Bytes × Bytes × Bytes) × MergeState)) := do
  let n := bsrs.length
  match MergeState.init z bsrs with
  | .panic msg => .panic msg
  | .err msg =>
    .ok (some (.error (.other s!"cannot merge {n} block streams: {msg}"),
      .start bsrs #[] bsw ph itemsMerged))
  | .ok (bsrs, heap) =>
    match ← MergeState.mergeLoop z prepareBlock ticks (.start bsrs heap bsw ph itemsMerged) with
    | none => .ok none
    | some (.ok (), s) => .ok (some (.ok (s.out.bsw.mustClose z), s))
    | some (.error .forciblyStopped, s) => .ok (some (.error .forciblyStopped, s))
    | some (.error (.other msg), s) =>
      .ok (some (.error (.other s!"cannot merge {n} block streams: {msg}"), s))

end Esmetrics.Mergeset
