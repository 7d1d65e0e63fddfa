import Esmetrics.Streamaggr.Outputs

/-!
# Aggregation windows

Model of `Aggregator` of `esm-streamaggr/src/aggregator.rs` with windows and without dedup: pushes
and the flusher take their steps in any order. A push reads the lower bound for old samples, reads
the window state and chooses a buffer for each sample, and adds the samples to the blue and then to
the green buffer, each time under the lock of the outputs. The flusher reads the window state,
stores the lower bound, flushes one buffer and stores the next window state. The clock may read
anything.

A buffer of an output key is given by the samples that it was pushed since its last flush, and the
map of the outputs is a function. The delay of a flush by the lag of samples is not modelled, as it
changes nothing but time. What happened to a sample is recorded with it.
-/

namespace Esmetrics.Streamaggr

structure AggregatorParams (κ : Type) where
  /-- The output key of a series, or `none` when it is not matched or dropped. -/
  outputKey : List Label → Option κ
  intervalMs : ℤ
  stalenessIntervalMs : ℤ
  ignoreFirstIntervals : ℕ
  flushOnShutdown : Bool
  alignFlushToInterval : Bool
  interval_pos : 0 < intervalMs

/-- A sample of a request; `none` is NaN. -/
structure InputSample where
  timestamp : ℤ
  value : Option ℚ

structure InputSeries where
  labels : List Label
  samples : List InputSample

structure KeyedSample (κ : Type) where
  key : κ
  value : ℚ
  timestamp : ℤ
deriving DecidableEq

structure CurrentState where
  isGreen : Bool
  maxDeadline : ℤ
deriving DecidableEq

/-- A sample for which a buffer was chosen, with what was read for it: the deadline of the window
state, that of the previous flush, and how many flushes there were. -/
structure RoutedSample (κ : Type) where
  sample : KeyedSample κ
  maxDeadline : ℤ
  prevDeadline : ℤ
  flushes : ℕ

/-- A sample in a buffer, with how many flushes there were when it was added. -/
structure BufferedSample (κ : Type) where
  routed : RoutedSample κ
  flushes : ℕ

structure AggrValues (κ : Type) where
  blue : List (BufferedSample κ)
  green : List (BufferedSample κ)
  deleteDeadline : ℤ

/-- What a flush did; its window is from `start` on, exclusively, up to `deadline`. -/
structure FlushRecord (κ : Type) where
  pushed : Bool
  isLast : Bool
  start : ℤ
  deadline : ℤ
  samples : κ → List (BufferedSample κ)

inductive PushCall (κ : Type)
  | loaded (now minDeadline : ℤ) (tss : List InputSeries)
  | routed (deleteDeadline : ℤ) (blue green : List (RoutedSample κ))
  | blueAdded (deleteDeadline : ℤ) (green : List (RoutedSample κ))
  | returned

/-- What the flusher does next. -/
inductive Flusher
  | waiting
  | read (cs : CurrentState)
  | minStored (cs : CurrentState)
  | flushed (cs : CurrentState)
  | shutdownRead (cs : CurrentState) (flushTs : ℤ)
  | shutdownMinStored (cs : CurrentState) (flushTs : ℤ)
  | shutdownFlushed (cs : CurrentState)
  | exited
deriving DecidableEq

structure AggregatorHistory (κ : Type) where
  accepted : List (KeyedSample κ)
  flushes : List (FlushRecord κ)
  discarded : κ → List (BufferedSample κ)
  prevDeadline : ℤ

structure Aggregator (κ : Type) where
  outputs : κ → Option (AggrValues κ)
  minDeadline : ℤ
  cs : CurrentState
  flusher : Flusher
  flushTime : ℤ
  ignoreFirst : ℕ
  pushes : List (PushCall κ)
  history : AggregatorHistory κ

variable {κ : Type} (params : AggregatorParams κ)

/-! ### Pushing -/

/-- The samples of a request that are not ignored. -/
def acceptedSamples (minDeadline : ℤ) (tss : List InputSeries) : List (KeyedSample κ) :=
  tss.flatMap fun ts =>
    match params.outputKey ts.labels with
    | none => []
    | some key => ts.samples.filterMap fun s =>
        match s.value with
        | none => none
        | some value => if s.timestamp < minDeadline then none else some ⟨key, value, s.timestamp⟩

/-- The buffer for a timestamp. -/
def CurrentState.routesToGreen (cs : CurrentState) (timestamp : ℤ) : Bool :=
  decide (timestamp ≤ cs.maxDeadline) == cs.isGreen

namespace AggrValues

def buffer (av : AggrValues κ) (isGreen : Bool) : List (BufferedSample κ) :=
  if isGreen then av.green else av.blue

def pushSample (av : AggrValues κ) (isGreen : Bool) (deleteDeadline : ℤ) (x : BufferedSample κ) :
    AggrValues κ :=
  if isGreen then { av with green := av.green ++ [x], deleteDeadline := deleteDeadline }
  else { av with blue := av.blue ++ [x], deleteDeadline := deleteDeadline }

/-- The buffer that is flushed is emptied. -/
def clear (av : AggrValues κ) (isGreen : Bool) : AggrValues κ :=
  if isGreen then { av with green := [] } else { av with blue := [] }

end AggrValues

/-- Adds a sample to a buffer of its output key, which may be new. -/
def pushOutput [DecidableEq κ] (deleteDeadline : ℤ) (isGreen : Bool) (flushes : ℕ)
    (outputs : κ → Option (AggrValues κ)) (x : RoutedSample κ) : κ → Option (AggrValues κ) :=
  let entry := (outputs x.sample.key).getD ⟨[], [], deleteDeadline⟩
  Function.update outputs x.sample.key (some (entry.pushSample isGreen deleteDeadline ⟨x, flushes⟩))

/-! ### Flushing -/

/-- The outputs that stay. An entry that is too old goes without a flush. -/
def retainEntry (isGreen : Bool) (flushTs : ℤ) (isLast : Bool) (av : AggrValues κ) :
    Option (AggrValues κ) :=
  if flushTs > av.deleteDeadline then none else if isLast then none else some (av.clear isGreen)

/-- What an entry emits. -/
def emitEntry (isGreen : Bool) (flushTs : ℤ) (av : AggrValues κ) : List (BufferedSample κ) :=
  if flushTs > av.deleteDeadline then [] else av.buffer isGreen

/-- What goes with an entry without being emitted. -/
def discardEntry (isGreen : Bool) (flushTs : ℤ) (isLast : Bool) (av : AggrValues κ) :
    List (BufferedSample κ) :=
  if flushTs > av.deleteDeadline then av.buffer isGreen ++ av.buffer (!isGreen)
  else if isLast then av.buffer (!isGreen) else []

/-- The rounds of `while now_ms() > flush_time`; so many are enough. -/
def advanceFlushTime (interval now : ℤ) : ℕ → ℤ → ℤ
  | 0, flushTime => flushTime
  | n + 1, flushTime =>
    if now > flushTime then advanceFlushTime interval now n (flushTime + interval) else flushTime

/-- The flush time after a flush. -/
def nextFlushTime (now flushTime : ℤ) : ℤ :=
  let flushTime := flushTime + params.intervalMs
  advanceFlushTime params.intervalMs now (now - flushTime).toNat flushTime

/-! ### The steps -/

inductive AggregatorAction
  | push (now : ℤ) (tss : List InputSeries)
  /-- The next step of a push. -/
  | pushStep (k : ℕ)
  /-- The next step of the flusher. -/
  | flush (now : ℤ)
  | stop (now : ℤ)
deriving Inhabited

namespace Aggregator

/-- The lower bound of the first window. -/
def minTime (start : ℤ) : ℤ :=
  if params.alignFlushToInterval then
    let truncated := start - start % params.intervalMs
    if truncated ≠ start then truncated + params.intervalMs else truncated
  else start

def new (start : ℤ) : Aggregator κ :=
  let minTime := minTime params start
  { outputs := fun _ => none
    minDeadline := minTime
    cs := ⟨false, minTime + params.intervalMs⟩
    flusher := .waiting
    flushTime := minTime + params.intervalMs
    ignoreFirst := params.ignoreFirstIntervals
    pushes := []
    history := ⟨[], [], fun _ => [], minTime⟩ }

/-- The samples that a push accepts, with what it reads for them. -/
def withState (a : Aggregator κ) (accepted : List (KeyedSample κ)) : List (RoutedSample κ) :=
  accepted.map fun s =>
    ⟨s, a.cs.maxDeadline, a.history.prevDeadline, a.history.flushes.length⟩

/-- Chooses a buffer for each sample. -/
def route (a : Aggregator κ) (k : ℕ) (now minDeadline : ℤ) (tss : List InputSeries) :
    Aggregator κ :=
  let accepted := acceptedSamples params minDeadline tss
  let routed := a.withState accepted
  let blue := routed.filter fun x => !a.cs.routesToGreen x.sample.timestamp
  let green := routed.filter fun x => a.cs.routesToGreen x.sample.timestamp
  { a with
    pushes := a.pushes.set k (.routed (now + params.stalenessIntervalMs) blue green)
    history := { a.history with accepted := a.history.accepted ++ accepted } }

def pushSamples [DecidableEq κ] (a : Aggregator κ) (samples : List (RoutedSample κ))
    (deleteDeadline : ℤ) (isGreen : Bool) : Aggregator κ :=
  { a with
    outputs :=
      samples.foldl (pushOutput deleteDeadline isGreen a.history.flushes.length) a.outputs }

def stepPush [DecidableEq κ] (a : Aggregator κ) (k : ℕ) : Option (Aggregator κ) :=
  match a.pushes[k]? with
  | some (.loaded now minDeadline tss) => some (a.route params k now minDeadline tss)
  | some (.routed deleteDeadline blue green) =>
    some ({ a with pushes := a.pushes.set k (.blueAdded deleteDeadline green) }.pushSamples blue
      deleteDeadline false)
  | some (.blueAdded deleteDeadline green) =>
    some ({ a with pushes := a.pushes.set k .returned }.pushSamples green deleteDeadline true)
  | _ => none

/-- `flush`, after the lower bound is stored. -/
def flushOutputs (a : Aggregator κ) (push : Bool) (flushTs : ℤ) (cs : CurrentState)
    (isLast : Bool) : Aggregator κ :=
  let emitted k := ((a.outputs k).map (emitEntry cs.isGreen flushTs)).getD []
  let discarded k := ((a.outputs k).map (discardEntry cs.isGreen flushTs isLast)).getD []
  { a with
    outputs := fun k => (a.outputs k).bind (retainEntry cs.isGreen flushTs isLast)
    history := { a.history with
      flushes := a.history.flushes ++
        [⟨push, isLast, a.history.prevDeadline, cs.maxDeadline, emitted⟩]
      discarded := fun k => a.history.discarded k ++ discarded k
      prevDeadline := cs.maxDeadline } }

def stepFlush (a : Aggregator κ) (now : ℤ) : Option (Aggregator κ) :=
  match a.flusher with
  | .waiting => some { a with flusher := .read a.cs }
  | .read cs =>
    if a.flushTime ≤ cs.maxDeadline then
      some { a with minDeadline := cs.maxDeadline, flusher := .minStored cs }
    else some { a with flusher := .flushed { cs with isGreen := !cs.isGreen } }
  | .minStored cs =>
    let flushTime := nextFlushTime params now a.flushTime
    some { a.flushOutputs (a.ignoreFirst = 0) a.flushTime cs false with
      flushTime := flushTime
      ignoreFirst := a.ignoreFirst - 1
      flusher := .flushed ⟨!cs.isGreen, flushTime⟩ }
  | .flushed cs => some { a with cs := cs, flusher := .waiting }
  | .shutdownRead cs flushTs =>
    some { a with minDeadline := cs.maxDeadline, flusher := .shutdownMinStored cs flushTs }
  | .shutdownMinStored cs flushTs =>
    some { a.flushOutputs (params.flushOnShutdown && a.ignoreFirst = 0) flushTs cs true with
      flusher := .shutdownFlushed cs }
  | .shutdownFlushed cs => some { a with cs := cs, flusher := .exited }
  | .exited => none

def step [DecidableEq κ] (a : Aggregator κ) : AggregatorAction → Option (Aggregator κ)
  | .push now tss => some { a with pushes := a.pushes ++ [.loaded now a.minDeadline tss] }
  | .pushStep k => a.stepPush params k
  | .flush now => a.stepFlush params now
  | .stop now =>
    match a.flusher with
    | .waiting =>
      let flushTs := if params.alignFlushToInterval then a.flushTime else now
      some { a with flusher := .shutdownRead a.cs flushTs }
    | _ => none

end Aggregator

end Esmetrics.Streamaggr
