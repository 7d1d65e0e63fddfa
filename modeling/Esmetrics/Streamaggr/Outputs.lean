import Esmetrics.Streamaggr.Histogram
import Mathlib.Algebra.Order.Group.Unbundled.Abs
import Mathlib.Algebra.Order.Ring.Rat
import Mathlib.Data.Finset.Card

/-!
# Outputs of stream aggregation

Model of `Output` of `esm-streamaggr/src/outputs.rs` over exact values, without the outputs that are
computed in floating point (`quantiles`, `stddev`, `stdvar`, `rate_sum` and `rate_avg`). There are
no windows, so that the state of a counter is not shared. A map from input series to their last
values is a function, an output key is the list of its labels, and the metrics are left out.
-/

namespace Esmetrics.Streamaggr

structure Label where
  name : String
  value : String
deriving DecidableEq

/-- A sample with the number that its value stands for: the outputs compute with exact numbers. -/
structure Sample where
  timestamp : ℤ
  value : ℚ
deriving DecidableEq

structure TimeSeries where
  labels : List Label
  samples : List Sample
deriving DecidableEq

/-- What an output uses of other packages. -/
structure OutputEnv (κ : Type) where
  floatOps : FloatOps
  xxh64 : κ → ℕ

structure PushSample where
  value : ℚ
  timestamp : ℤ

/-- A sample with what is passed along with it, and the time of the push in seconds. -/
structure Push (κ : Type) where
  sample : PushSample
  inputKey : κ
  deleteDeadline : ℤ
  unixSecs : ℕ

structure LastValue where
  value : ℚ
  timestamp : ℤ
  deleteDeadline : ℤ

abbrev LastValues (κ : Type) := κ → Option LastValue

structure TotalShared (κ : Type) where
  sharedTotal : ℚ
  last : LastValues κ

inductive Output (κ : Type)
  | avg (sum : ℚ) (count : ℕ)
  | countSamples (count : ℕ)
  | countSeries (hashes : Finset ℕ)
  | histogramBucket (shared h : VmHistogram)
  | increase (keepFirstSample : Bool) (ignoreFirstSampleDeadline : ℕ) (total : Option ℚ)
      (last : LastValues κ)
  | last (last : ℚ) (timestamp : ℤ)
  | max (max : ℚ) (defined : Bool)
  | min (min : ℚ) (defined : Bool)
  | sumSamples (resetOnFlush : Bool) (sum : ℚ)
  | total (keepFirstSample : Bool) (ignoreFirstSampleDeadline : ℕ) (total : ℚ)
      (shared : TotalShared κ)
  | uniqueSamples (values : Finset ℚ)

inductive OutputKind
  | avg
  | countSamples
  | countSeries
  | histogramBucket
  | increase (keepFirstSample : Bool) (ignoreFirstSampleDeadline : ℕ)
  | last
  | max
  | min
  | sumSamples (resetOnFlush : Bool)
  | total (keepFirstSample : Bool) (ignoreFirstSampleDeadline : ℕ)
  | uniqueSamples

variable {κ : Type}

def OutputKind.newState (κ : Type) : OutputKind → Output κ
  | avg => .avg 0 0
  | countSamples => .countSamples 0
  | countSeries => .countSeries ∅
  | histogramBucket => .histogramBucket .new .new
  | increase keepFirstSample ignoreFirstSampleDeadline =>
    .increase keepFirstSample ignoreFirstSampleDeadline none fun _ => none
  | last => .last 0 0
  | max => .max 0 false
  | min => .min 0 false
  | sumSamples resetOnFlush => .sumSamples resetOnFlush 0
  | total keepFirstSample ignoreFirstSampleDeadline =>
    .total keepFirstSample ignoreFirstSampleDeadline 0 ⟨0, fun _ => none⟩
  | uniqueSamples => .uniqueSamples ∅

/-- From here on, sums of samples are no longer exact in `f64`. -/
def precisionLimit : ℚ := 2 ^ 53

/-! ### Pushing -/

/-- The delta of a counter; a sample that is out of order is skipped. -/
def pushCounter [DecidableEq κ] (total : ℚ) (last : LastValues κ) (p : Push κ)
    (keepFirstSample : Bool) (ignoreFirstSampleDeadline : ℕ) : ℚ × LastValues κ :=
  let s := p.sample
  let currentTime := p.unixSecs
  let keepFirstSample := keepFirstSample && decide (currentTime ≥ ignoreFirstSampleDeadline)
  let lv := (last p.inputKey).filter fun v => ¬ v.deleteDeadline < (currentTime : ℤ) * 1000
  let inserted := Function.update last p.inputKey (some ⟨s.value, s.timestamp, p.deleteDeadline⟩)
  match lv with
  | some v =>
    if s.timestamp < v.timestamp then (total, last)
    else if s.value ≥ v.value then (total + (s.value - v.value), inserted)
    else (total + s.value, inserted)
  | none => if keepFirstSample then (total + s.value, inserted) else (total, inserted)

def Output.pushSample [DecidableEq κ] (env : OutputEnv κ) (o : Output κ) (p : Push κ) : Output κ :=
  let s := p.sample
  match o with
  | avg sum count => .avg (sum + s.value) (count + 1)
  | countSamples count => .countSamples (count + 1)
  | countSeries hashes => .countSeries (insert (env.xxh64 p.inputKey) hashes)
  | histogramBucket shared h => .histogramBucket shared (h.update env.floatOps s.value)
  | increase keepFirstSample ignoreFirstSampleDeadline acc l =>
    match pushCounter (acc.getD 0) l p keepFirstSample ignoreFirstSampleDeadline with
    | (acc, l) => .increase keepFirstSample ignoreFirstSampleDeadline (some acc) l
  | last value timestamp =>
    if s.timestamp ≥ timestamp then .last s.value s.timestamp else .last value timestamp
  | max value defined => .max (if s.value > value ∨ ¬ defined then s.value else value) true
  | min value defined => .min (if s.value < value ∨ ¬ defined then s.value else value) true
  | sumSamples resetOnFlush sum =>
    .sumSamples resetOnFlush ((if |sum| ≥ precisionLimit then 0 else sum) + s.value)
  | total keepFirstSample ignoreFirstSampleDeadline acc shared =>
    match pushCounter acc shared.last p keepFirstSample ignoreFirstSampleDeadline with
    | (acc, l) => .total keepFirstSample ignoreFirstSampleDeadline acc { shared with last := l }
  | uniqueSamples values => .uniqueSamples (insert s.value values)

/-! ### Flushing -/

/-- The context of a flush, without the series that it collects. -/
structure FlushCtx where
  nameSuffix : String
  keepMetricNames : Bool
  flushTimestamp : ℤ

def addMetricSuffix (labels : List Label) (firstSuffix lastSuffix : String) : List Label :=
  match labels.findIdx? fun l => l.name = "__name__" with
  | some i => labels.modify i fun l => { l with value := l.value ++ firstSuffix ++ lastSuffix }
  | none => labels ++ [⟨"__name__", firstSuffix ++ lastSuffix⟩]

namespace FlushCtx

def appendSeriesWithExtraLabels (ctx : FlushCtx) (outputKey : List Label) (outputSuffix : String)
    (value : ℚ) (extra : List Label) : TimeSeries :=
  let labels := if ctx.keepMetricNames then outputKey
    else addMetricSuffix outputKey ctx.nameSuffix outputSuffix
  ⟨labels ++ extra, [⟨ctx.flushTimestamp, value⟩]⟩

def appendSeries (ctx : FlushCtx) (outputKey : List Label) (outputSuffix : String) (value : ℚ) :
    TimeSeries :=
  ctx.appendSeriesWithExtraLabels outputKey outputSuffix value []

def appendSeriesWithExtraLabel (ctx : FlushCtx) (outputKey : List Label) (outputSuffix : String)
    (value : ℚ) (extraName extraValue : String) : TimeSeries :=
  ctx.appendSeriesWithExtraLabels outputKey outputSuffix value [⟨extraName, extraValue⟩]

end FlushCtx

/-- The last values that outlive a flush. -/
def retainLast (last : LastValues κ) (flushTs : ℤ) (isLast : Bool) : LastValues κ :=
  fun k => (last k).filter fun lv => ¬ (flushTs > lv.deleteDeadline ∨ isLast)

/-- The state after a flush, and the series that it appends. -/
def Output.flush (env : OutputEnv κ) (ctx : FlushCtx) (outputKey : List Label) (isLast : Bool) :
    Output κ → Output κ × List TimeSeries
  | avg sum count =>
    if count > 0 then (.avg 0 0, [ctx.appendSeries outputKey "avg" (sum / count)])
    else (.avg sum count, [])
  | countSamples count =>
    if count > 0 then (.countSamples 0, [ctx.appendSeries outputKey "count_samples" count])
    else (.countSamples count, [])
  | countSeries hashes =>
    if hashes.Nonempty then
      (.countSeries ∅, [ctx.appendSeries outputKey "count_series" hashes.card])
    else (.countSeries hashes, [])
  | histogramBucket shared h =>
    let shared := shared.merge h
    (.histogramBucket shared h.reset, shared.visitNonZeroBuckets.map fun (vmrange, count) =>
      ctx.appendSeriesWithExtraLabel outputKey "histogram_bucket" count "vmrange"
        (env.floatOps.vmrange vmrange))
  | increase keepFirstSample ignoreFirstSampleDeadline acc l =>
    let l := retainLast l ctx.flushTimestamp isLast
    let suffix := if keepFirstSample then "increase" else "increase_prometheus"
    (.increase keepFirstSample ignoreFirstSampleDeadline none l,
      (acc.map (ctx.appendSeries outputKey suffix)).toList)
  | last value timestamp =>
    if timestamp > 0 then (.last value 0, [ctx.appendSeries outputKey "last" value])
    else (.last value timestamp, [])
  | max value defined =>
    if defined then (.max 0 false, [ctx.appendSeries outputKey "max" value])
    else (.max value defined, [])
  | min value defined =>
    if defined then (.min 0 false, [ctx.appendSeries outputKey "min" value])
    else (.min value defined, [])
  | sumSamples resetOnFlush sum =>
    if resetOnFlush then
      (.sumSamples resetOnFlush 0, [ctx.appendSeries outputKey "sum_samples" sum])
    else (.sumSamples resetOnFlush sum, [ctx.appendSeries outputKey "sum_samples_total" sum])
  | total keepFirstSample ignoreFirstSampleDeadline acc shared =>
    let t := shared.sharedTotal + acc
    let l := retainLast shared.last ctx.flushTimestamp isLast
    let sharedTotal := if |t| ≥ precisionLimit then 0 else t
    let suffix := if keepFirstSample then "total" else "total_prometheus"
    (.total keepFirstSample ignoreFirstSampleDeadline 0 ⟨sharedTotal, l⟩,
      [ctx.appendSeries outputKey suffix t])
  | uniqueSamples values =>
    if values.Nonempty then
      (.uniqueSamples ∅, [ctx.appendSeries outputKey "unique_samples" values.card])
    else (.uniqueSamples values, [])

end Esmetrics.Streamaggr
