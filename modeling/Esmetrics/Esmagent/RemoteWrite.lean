import Esmetrics.Esmagent.Queue
import Esmetrics.Protoparser.Prompb

/-!
# The forwarding pipeline

Model of one destination of remote write: `PendingSeries` of `esmagent/src/pendingseries.rs`,
`RemoteWriteCtx` of `esmagent/src/rwctx.rs` without stream aggregation, and the workers of
`esmagent/src/client.rs`. Calls of `push`, the periodic flush, the workers and `stop` take their
steps in any order: between two steps of one of them there is a lock that is released, or a flag
that is read.

A block is given by its series; its bytes are those of the encoded request, compressed by code that
is not part of the repository. The relabeling of a destination is a parameter. `stop` takes its
context by value, so that no call of `push` is running when it starts, and none starts afterwards.

The history of a run has the series that survived relabeling, the blocks that were made of them, and
the blocks that were delivered, dropped and evicted.
-/

namespace Esmetrics.Esmagent

open Protoparser (Label Sample TimeSeries encodeWriteRequest)

/-- A series with its own labels and samples; `to_prompb` copies them as they are. -/
abbrev OwnedSeries := TimeSeries

/-- A block, as the series in it. -/
abbrev Block := List OwnedSeries

/-- What a destination is configured with. -/
structure RwCtxConfig where
  /-- The relabeling of labels, which may drop a series. -/
  urlRelabel : Option (List Label → Option (List Label))
  /-- The compression of an encoded request. -/
  compress : Bytes → Bytes
  maxDiskBytes : ℕ
  maxBlockSize : ℕ

namespace RwCtxConfig

variable (cfg : RwCtxConfig)

/-- The length of the bytes of a block. -/
def blockLen (block : Block) : ℕ := (cfg.compress (encodeWriteRequest block)).length

def maxBytes : ℕ := normalizeMaxBytes cfg.maxDiskBytes

end RwCtxConfig

/-! ### Pending series -/

def bytesPerSampleEstimate : ℕ := 16

def maxRowsPerBlock : ℕ := 10000

def maxLabelsPerBlock : ℕ := 10 * maxRowsPerBlock

/-- An estimate of the encoded size; `add` closes a block by it. -/
def estimateSize (series : OwnedSeries) : ℕ :=
  (series.labels.map fun l => l.name.length + l.value.length).sum +
    series.samples.length * bytesPerSampleEstimate

/-- The series of the block that is being filled, with the sums its limits are checked by. -/
structure PendingSeries where
  buffered : List OwnedSeries
  maxBlockSize : ℕ
  estBytes : ℕ
  samples : ℕ
  labels : ℕ

namespace PendingSeries

def new (maxBlockSize : ℕ) : PendingSeries := ⟨[], maxBlockSize, 0, 0, 0⟩

/-- The buffered series as a block, if there are any. -/
def takeBlock (p : PendingSeries) : Option Block × PendingSeries :=
  if p.buffered.isEmpty then (none, p)
  else (some p.buffered, { p with buffered := [], estBytes := 0, samples := 0, labels := 0 })

/-- One round of the loop of `add`. -/
def addOne (p : PendingSeries) (blocks : List Block) (series : OwnedSeries) :
    PendingSeries × List Block :=
  let p := { p with
    estBytes := p.estBytes + estimateSize series
    samples := p.samples + series.samples.length
    labels := p.labels + series.labels.length
    buffered := p.buffered ++ [series] }
  if p.estBytes ≥ p.maxBlockSize ∨ p.samples ≥ maxRowsPerBlock ∨ p.labels ≥ maxLabelsPerBlock then
    match p.takeBlock with
    | (some block, p) => (p, blocks ++ [block])
    | (none, p) => (p, blocks)
  else (p, blocks)

/-- Series are added one by one; the blocks that got full on the way are returned. -/
def add (p : PendingSeries) (s : List OwnedSeries) : PendingSeries × List Block :=
  s.foldl (fun (p, blocks) series => p.addOne blocks series) (p, [])

def flush (p : PendingSeries) : Option Block × PendingSeries := p.takeBlock

end PendingSeries

/-- The series that survive relabeling. -/
def applyUrlRelabel (cfg : RwCtxConfig) (series : List OwnedSeries) : List OwnedSeries :=
  match cfg.urlRelabel with
  | some relabel => series.filterMap fun s => (relabel s.labels).map fun labels => { s with labels }
  | none => series

/-! ### The parties -/

/-- A call of `push`: the survivors wait for the lock, and then the full blocks for the queue. -/
inductive PushCall
  | waiting (survivors : List OwnedSeries)
  | enqueue (blocks : List Block)
deriving DecidableEq

/-- The flush loop: it sleeps, is due, or holds the block it took. -/
inductive Flusher
  | sleeping
  | due
  | holding (block : Block)
  | exited
deriving DecidableEq

inductive Worker
  /-- At the head of the loop, before the flag is read. -/
  | ready
  | popping
  | sending (block : Block)
  | backoff (block : Block)
  | exited
deriving DecidableEq

inductive StopPhase
  | notCalled
  | joinFlusher
  | finalFlush
  /-- The last block is pushed to the queue. -/
  | finalPush (block : Block)
  | stopClient
  | joinWorkers
  | returned
deriving DecidableEq

/-- A block that was evicted, with the bytes that were held. -/
structure EvictedBlock where
  block : Block
  held : ℕ
deriving DecidableEq

/-- The queue, with its files. -/
structure DiskQueue where
  inner : Inner Block
  files : ℕ → Option Block

/-- What happened to series and blocks in a run so far. -/
structure PipelineHistory where
  survived : List OwnedSeries
  created : List Block
  delivered : List Block
  dropped : List Block
  evicted : List EvictedBlock

/-- All parties of a destination, with the queue between them. -/
structure Pipeline where
  pending : PendingSeries
  calls : List PushCall
  flushStop : Bool
  flusher : Flusher
  clientStop : Bool
  workers : List Worker
  queue : DiskQueue
  stop : StopPhase
  history : PipelineHistory

/-! ### The queue -/

namespace DiskQueue

/-- The files of dropped blocks are removed. -/
def removeFiles (files : ℕ → Option Block) (dropped : List (QueuedBlock Block × ℕ)) :
    ℕ → Option Block :=
  dropped.foldl (fun files d => Function.update files d.1.index none) files

/-- The file of a new block is written, then those of the dropped blocks are removed. -/
def push (cfg : RwCtxConfig) (q : DiskQueue) (block : Block) : DiskQueue × List EvictedBlock :=
  let (inner, dropped) := q.inner.push cfg.blockLen cfg.maxBytes block
  let files := Function.update q.files q.inner.nextIndex (some block)
  (⟨inner, removeFiles files dropped⟩, dropped.map fun d => ⟨d.1.data, d.2⟩)

def pop (cfg : RwCtxConfig) (q : DiskQueue) : Option (Block × DiskQueue) :=
  (q.inner.popFront cfg.blockLen).map fun (b, inner) =>
    (b.data, ⟨inner, Function.update q.files b.index none⟩)

end DiskQueue

/-! ### The steps -/

/-- What a request to the destination ends with. -/
inductive SendOutcome
  | success
  | retryable
  | drop
deriving DecidableEq

inductive PipelineAction
  | push (series : List OwnedSeries)
  /-- The next step of a call of `push`. -/
  | pushStep (k : ℕ)
  /-- The next step of the flush loop. -/
  | flush
  /-- The next step of a worker, that does not depend on an answer. -/
  | work (k : ℕ)
  | answer (k : ℕ) (outcome : SendOutcome)
  /-- The next step of `stop`. -/
  | stop
deriving Inhabited

namespace Pipeline

def start (cfg : RwCtxConfig) (workers : ℕ) (queue : DiskQueue) : Pipeline where
  pending := .new cfg.maxBlockSize
  calls := []
  flushStop := false
  flusher := .sleeping
  clientStop := false
  workers := List.replicate (max workers 1) .ready
  queue := queue
  stop := .notCalled
  history := ⟨[], [], [], [], []⟩

/-- A block is pushed to the queue. -/
def enqueue (cfg : RwCtxConfig) (s : Pipeline) (block : Block) : Pipeline :=
  let (queue, evicted) := s.queue.push cfg block
  { s with
    queue := queue
    history := { s.history with evicted := s.history.evicted ++ evicted } }

/-- A call of `push` goes on: it adds its series, then enqueues the full blocks one by one. -/
def stepPush (cfg : RwCtxConfig) (s : Pipeline) (k : ℕ) : Option Pipeline :=
  match s.calls[k]? with
  | some (.waiting survivors) =>
    if survivors.isEmpty then some { s with calls := s.calls.set k (.enqueue []) }
    else
      match s.pending.add survivors with
      | (pending, blocks) => some { s with
          pending := pending
          calls := s.calls.set k (.enqueue blocks)
          history := { s.history with created := s.history.created ++ blocks } }
  | some (.enqueue (block :: blocks)) =>
    some ({ s with calls := s.calls.set k (.enqueue blocks) }.enqueue cfg block)
  | _ => none

def stepFlush (cfg : RwCtxConfig) (s : Pipeline) : Option Pipeline :=
  match s.flusher with
  | .sleeping => some { s with flusher := if s.flushStop then .exited else .due }
  | .due =>
    match s.pending.flush with
    | (some block, pending) => some { s with
        pending := pending
        flusher := .holding block
        history := { s.history with created := s.history.created ++ [block] } }
    | (none, pending) => some { s with pending := pending, flusher := .sleeping }
  | .holding block => some ({ s with flusher := .sleeping }.enqueue cfg block)
  | .exited => none

/-- A worker goes on. -/
def stepWork (cfg : RwCtxConfig) (s : Pipeline) (k : ℕ) : Option Pipeline :=
  match s.workers[k]? with
  | some .ready =>
    some { s with workers := s.workers.set k (if s.clientStop then .exited else .popping) }
  | some .popping =>
    match s.queue.pop cfg with
    | some (block, queue) =>
      some { s with queue := queue, workers := s.workers.set k (.sending block) }
    | none => some { s with workers := s.workers.set k .ready }
  | some (.backoff block) =>
    -- told to stop while it waits, the worker gives its block back
    if s.clientStop then some ({ s with workers := s.workers.set k .ready }.enqueue cfg block)
    else some { s with workers := s.workers.set k (.sending block) }
  | _ => none

/-- A worker gets the answer to its request. -/
def stepAnswer (s : Pipeline) (k : ℕ) (outcome : SendOutcome) : Option Pipeline :=
  match s.workers[k]? with
  | some (.sending block) =>
    match outcome with
    | .success => some { s with
        workers := s.workers.set k .ready
        history := { s.history with delivered := s.history.delivered ++ [block] } }
    | .drop => some { s with
        workers := s.workers.set k .ready
        history := { s.history with dropped := s.history.dropped ++ [block] } }
    | .retryable => some { s with workers := s.workers.set k (.backoff block) }
  | _ => none

/-- `stop`: the flusher ends, the last block is enqueued, then the workers end. -/
def stepStop (cfg : RwCtxConfig) (s : Pipeline) : Option Pipeline :=
  match s.stop with
  | .notCalled =>
    if ∀ c ∈ s.calls, c = .enqueue [] then
      some { s with flushStop := true, stop := .joinFlusher }
    else none
  | .joinFlusher => if s.flusher = .exited then some { s with stop := .finalFlush } else none
  | .finalFlush =>
    match s.pending.flush with
    | (some block, pending) => some { s with
        pending := pending
        stop := .finalPush block
        history := { s.history with created := s.history.created ++ [block] } }
    | (none, pending) => some { s with pending := pending, stop := .stopClient }
  | .finalPush block => some ({ s with stop := .stopClient }.enqueue cfg block)
  | .stopClient => some { s with clientStop := true, stop := .joinWorkers }
  | .joinWorkers =>
    if ∀ w ∈ s.workers, w = .exited then some { s with stop := .returned } else none
  | .returned => none

def step (cfg : RwCtxConfig) (s : Pipeline) (a : PipelineAction) : Option Pipeline :=
  match a with
  | .push series =>
    if s.stop = .notCalled then
      let survivors := applyUrlRelabel cfg series
      some { s with
        calls := s.calls ++ [.waiting survivors]
        history := { s.history with survived := s.history.survived ++ survivors } }
    else none
  | .pushStep k => s.stepPush cfg k
  | .flush => s.stepFlush cfg
  | .work k => s.stepWork cfg k
  | .answer k outcome => s.stepAnswer k outcome
  | .stop => s.stepStop cfg

end Pipeline

end Esmetrics.Esmagent
