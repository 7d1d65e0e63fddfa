import Esmetrics.Lib.MergeJoin
import Esmetrics.Lib.WrapI64
import Esmetrics.Promql.Timeseries
import Mathlib.Data.Rat.Floor

/-!
# The window loop of a rollup

Model of `RollupConfig::do_internal` of `esm-promql/src/rollup.rs`, with `quantile` of `aggr.rs` and
`validate_max_points_per_series` of `timeseries.rs`. At each point of the grid the loop hands the
samples of a window to the rollup function, with the samples next to it. The two ends of the window
move on from the ends of the window before; where to look for an end is guessed from how far it
moved the last time.

The guess makes no difference to what is found (`seekFirstTimestampIdxAfter_eq`), so the windows are
those of the definition (`doInternal_eq`).
-/

namespace Esmetrics

open List
open Prod (fst snd)

/-! ### Quantiles -/

/-- The operations on `f64` that a rollup uses. -/
structure RollupOps (F : Type) where
  nan : F
  infinity : F
  negInfinity : F
  isNan : F → Bool
  /-- The literal `0.6`. -/
  threeFifths : F
  ofInt : ℤ → F
  toI64 : F → ℤ
  toUsize : F → ℕ
  add : F → F → F
  sub : F → F → F
  mul : F → F → F
  floor : F → F
  max : F → F → F
  min : F → F → F
  lt : F → F → Bool

section

variable {F : Type} (ops : RollupOps F)

def quantileSorted (phi : F) (values : List F) : Outcome F :=
  if values.isEmpty || ops.isNan phi then .ok ops.nan
  else if ops.lt phi (ops.ofInt 0) then .ok ops.negInfinity
  else if ops.lt (ops.ofInt 1) phi then .ok ops.infinity
  else
    let n := ops.ofInt values.length
    let rank := ops.mul phi (ops.sub n (ops.ofInt 1))
    let lowerIndex := ops.max (ops.floor rank) (ops.ofInt 0)
    let upperIndex := ops.min (ops.add lowerIndex (ops.ofInt 1)) (ops.sub n (ops.ofInt 1))
    let weight := ops.sub rank (ops.floor rank)
    do
      let lower ← .index values[ops.toUsize lowerIndex]?
      let upper ← .index values[ops.toUsize upperIndex]?
      .ok (ops.add (ops.mul lower (ops.sub (ops.ofInt 1) weight)) (ops.mul upper weight))

def quantile (phi : F) (originValues : List F) : Outcome F :=
  quantileSorted ops phi ((originValues.filter fun v => !ops.isNan v).mergeSort fun a b =>
    !ops.lt b a)

/-! ### The scrape interval -/

/-- The intervals back from a timestamp. -/
def intervalsBack (tsPrev : ℤ) : List ℤ → List F
  | [] => []
  | ts :: timestamps => ops.ofInt (wrapI64 (tsPrev - ts)) :: intervalsBack ts timestamps

/-- The 0.6 quantile of the last intervals, at most 20. -/
def getScrapeInterval (timestamps : List ℤ) (defaultInterval : ℤ) : Outcome ℤ :=
  match timestamps.reverse with
  | tsPrev :: ts :: rest => do
    let q ← quantile ops ops.threeFifths (intervalsBack ops tsPrev ((ts :: rest).take 20))
    let scrapeInterval := ops.toI64 q
    .ok (if scrapeInterval ≤ 0 then defaultInterval else scrapeInterval)
  | _ => .ok defaultInterval

end

/-- The interval is inflated, more so if it is small. -/
def getMaxPrevInterval (scrapeInterval : ℤ) : ℤ :=
  if scrapeInterval ≤ 2000 then wrapI64 (scrapeInterval + wrapI64 (4 * scrapeInterval))
  else if scrapeInterval ≤ 4000 then wrapI64 (scrapeInterval + 2 * scrapeInterval)
  else if scrapeInterval ≤ 8000 then wrapI64 (scrapeInterval + scrapeInterval)
  else if scrapeInterval ≤ 16000 then wrapI64 (scrapeInterval + scrapeInterval.tdiv 2)
  else if scrapeInterval ≤ 32000 then wrapI64 (scrapeInterval + scrapeInterval.tdiv 4)
  else wrapI64 (scrapeInterval + scrapeInterval.tdiv 8)

/-! ### Seeking -/

/-- The index of the first timestamp after a time, as the scan finds it. -/
def scanAfter (ts : List ℤ) (seekTimestamp : ℤ) : ℕ :=
  match ts.findIdx? fun t => decide (t > seekTimestamp) with
  | some idx => idx
  | none => ts.length

/-- The additions and subtractions of indices wrap. -/
def seekFirstTimestampIdxAfter (timestamps : List ℤ) (seekTimestamp : ℤ) (nHint : ℕ) : ℕ :=
  match timestamps with
  | [] => 0
  | first :: _ =>
    if first > seekTimestamp then 0
    else
      let startIdx := min (nHint - 2) (timestamps.length - 1)
      let endIdx := min ((nHint + 2) % 2 ^ 64) timestamps.length
      let jump := startIdx > 0 ∧ timestamps[startIdx]?.any (· ≤ seekTimestamp)
      let ts := if jump then timestamps.drop startIdx else timestamps
      let endIdx := if jump then (endIdx + 2 ^ 64 - startIdx) % 2 ^ 64 else endIdx
      let startIdx := if jump then startIdx else 0
      let ts := if ts[endIdx]?.any (· > seekTimestamp) then ts.take endIdx else ts
      if ts.length < 16 then startIdx + scanAfter ts seekTimestamp
      else startIdx + partitionPoint (· ≤ seekTimestamp) ts

/-- The index of the first timestamp after a time. -/
def firstAfter (timestamps : List ℤ) (seekTimestamp : ℤ) : ℕ := timestamps.findIdx fun t =>
  decide (seekTimestamp < t)

theorem scanAfter_eq (ts : List ℤ) (x : ℤ) : scanAfter ts x = firstAfter ts x := by
  rw [scanAfter, firstAfter, findIdx_eq_getD_findIdx?]
  cases ts.findIdx? fun t => decide (t > x) <;> rfl

theorem partitionPoint_eq (ts : List ℤ) (x : ℤ) : partitionPoint (· ≤ x) ts = firstAfter ts x := by
  have hnot : (fun t => !decide (t ≤ x)) = fun t => decide (x < t) := funext fun t => by
    rw [Bool.eq_iff_iff, Bool.not_eq_true', decide_eq_false_iff_not, decide_eq_true_eq, not_le]
  rw [partitionPoint, takeWhile_eq_take_findIdx_not, length_take, hnot]
  exact min_eq_left findIdx_le_length

variable {ts : List ℤ}

theorem le_of_lt_firstAfter {x : ℤ} {k : ℕ} (hk : k < firstAfter ts x) :
    ∀ t ∈ ts[k]?, t ≤ x := by
  intro t ht
  obtain ⟨hlt, rfl⟩ := List.getElem?_eq_some_iff.mp ht
  have hnot := not_of_lt_findIdx hk
  exact not_lt.mp (of_decide_eq_false hnot)

theorem firstAfter_append {l : List ℤ} {x : ℤ} (h : ∀ t ∈ l, t ≤ x) (r : List ℤ) :
    firstAfter (l ++ r) x = l.length + firstAfter r x := by
  induction l with
  | nil => exact (Nat.zero_add _).symm
  | cons t l ih =>
    have ht : ¬ x < t := not_lt.mpr (h t mem_cons_self)
    have ih := ih fun t' ht' => h t' (mem_cons_of_mem t ht')
    rw [cons_append, firstAfter, findIdx_cons, decide_eq_false ht, cond_false, ← firstAfter, ih,
      length_cons]
    omega

/-- The elements up to one that is not after the time. -/
theorem firstAfter_drop {x : ℤ} {k : ℕ} (hk : k ≤ ts.length) (h : ∀ t ∈ ts.take k, t ≤ x) :
    firstAfter ts x = k + firstAfter (ts.drop k) x := by
  calc firstAfter ts x = firstAfter (ts.take k ++ ts.drop k) x := by rw [take_append_drop]
    _ = (ts.take k).length + firstAfter (ts.drop k) x := firstAfter_append h _
    _ = k + firstAfter (ts.drop k) x := by rw [length_take, min_eq_left hk]

/-- An element after the time and what follows it are not needed. -/
theorem firstAfter_take {x t : ℤ} {k : ℕ} (ht : ts[k]? = some t) (hx : x < t) :
    firstAfter (ts.take k) x = firstAfter ts x := by
  induction ts generalizing k with
  | nil => exact nomatch ht
  | cons a ts ih =>
    cases k with
    | zero =>
      rw [getElem?_cons_zero, Option.some.injEq] at ht
      rw [firstAfter, firstAfter, take_zero, findIdx_cons, ht, decide_eq_true hx]
      rfl
    | succ k =>
      rw [firstAfter, firstAfter, take_succ_cons, findIdx_cons, findIdx_cons]
      by_cases ha : x < a
      · rw [decide_eq_true ha]
        rfl
      · rw [decide_eq_false ha, cond_false, cond_false]
        exact congrArg (· + 1) (ih ht)

theorem lt_of_mem_drop_firstAfter (hsorted : ts.Pairwise (· ≤ ·)) (x : ℤ) :
    ∀ t ∈ ts.drop (firstAfter ts x), x < t := by
  induction ts with
  | nil => exact nofun
  | cons a ts ih =>
    obtain ⟨ha, hts⟩ := pairwise_cons.mp hsorted
    rw [firstAfter, findIdx_cons]
    by_cases hx : x < a
    · rw [decide_eq_true hx, cond_true, drop_zero]
      intro t ht
      obtain rfl | ht := mem_cons.mp ht
      · exact hx
      · exact hx.trans_le (ha t ht)
    · rw [decide_eq_false hx, cond_false, drop_succ_cons]
      exact ih hts

theorem firstAfter_le_length (ts : List ℤ) (x : ℤ) : firstAfter ts x ≤ ts.length :=
  findIdx_le_length

/-- **The hint makes no difference.** -/
theorem seekFirstTimestampIdxAfter_eq {timestamps : List ℤ}
    (hsorted : timestamps.Pairwise (· ≤ ·)) (x : ℤ)
    (nHint : ℕ) : seekFirstTimestampIdxAfter timestamps x nHint = firstAfter timestamps x := by
  cases timestamps with
  | nil => rfl
  | cons first rest =>
    rw [seekFirstTimestampIdxAfter]
    by_cases hfirst : first > x
    · rw [if_pos hfirst, firstAfter, findIdx_cons, decide_eq_true (show x < first from hfirst)]
      rfl
    · rw [if_neg hfirst]
      generalize first :: rest = timestamps at hsorted
      -- Whatever the bounds are: what is cut off in front is not after the time, what is cut off
      -- behind is not first.
      generalize min (nHint - 2) (timestamps.length - 1) = startIdx
      generalize min ((nHint + 2) % 2 ^ 64) timestamps.length = endIdx
      have hcut : ∀ (ts : List ℤ) (endIdx : ℕ),
          firstAfter (if ts[endIdx]?.any (· > x) then ts.take endIdx else ts) x =
          firstAfter ts x := by
        intro ts endIdx
        split_ifs with hcut
        · obtain ⟨t, ht, hx⟩ := (Option.any_eq_true _ _).mp hcut
          exact firstAfter_take ht (of_decide_eq_true hx)
        · rfl
      have hfind : ∀ (ts : List ℤ) (startIdx : ℕ),
          (if ts.length < 16 then startIdx + scanAfter ts x
            else startIdx + partitionPoint (· ≤ x) ts) =
            startIdx + firstAfter ts x := by
        intro ts startIdx
        rw [scanAfter_eq, partitionPoint_eq, ite_self]
      dsimp only
      rw [hfind, hcut]
      split_ifs with hjump
      · obtain ⟨_, hany⟩ := hjump
        obtain ⟨t, ht, hx⟩ := (Option.any_eq_true _ _).mp hany
        obtain ⟨hlt, rfl⟩ := List.getElem?_eq_some_iff.mp ht
        refine (firstAfter_drop hlt.le fun t' ht' => ?_).symm
        obtain ⟨k, hk, rfl⟩ := mem_take_iff_getElem.mp ht'
        have hle : timestamps[k] ≤ timestamps[startIdx] := by
          refine pairwise_iff_getElem.mp hsorted k startIdx _ _ (by omega)
        exact hle.trans (of_decide_eq_true hx)
      · exact Nat.zero_add _

/-! ### The loop -/

/-- What a rollup function gets. -/
structure RollupFuncArg (F : Type) where
  prevValue : F
  prevTimestamp : ℤ
  values : List F
  timestamps : List ℤ
  realPrevValue : F
  realNextValue : F
  currTimestamp : ℤ
  idx : ℕ
  window : ℤ

structure RollupConfig (F : Type) where
  func : RollupFuncArg F → F
  start : ℤ
  stop : ℤ
  step : ℤ
  window : ℤ
  maxPointsPerSeries : ℕ
  mayAdjustWindow : Bool
  timestamps : List ℤ
  lookbackDelta : ℤ
  isDefaultRollup : Bool
  samplesScannedPerCall : ℕ

/-- `-search.minStalenessInterval`. -/
def minStalenessInterval : ℤ := 0

def validateMaxPointsPerSeries (start stop step : ℤ) (maxPoints : ℕ) : Except String Unit :=
  if step = 0 then .error "step can't be equal to zero"
  else
    let points := wrapI64 ((wrapI64 (stop - start)).tdiv step + 1)
    if points > wrapI64 maxPoints then
      .error
        (s!"too many points for the given start={start}, end={stop} and step={step}: {points}; " ++
        s!"the maximum number of points is {maxPoints}")
    else .ok ()

/-- The two ends of the last window, how far they moved, and the counters. -/
structure WindowState where
  i : ℕ
  j : ℕ
  ni : ℕ
  nj : ℕ
  idx : ℕ
  samplesScanned : ℕ

namespace RollupConfig

variable {F : Type} (ops : RollupOps F) (rc : RollupConfig F)

/-- How far back a previous value may be. -/
def maxPrevInterval (timestamps : List ℤ) : Outcome ℤ := do
  let maxPrevInterval ←
    if rc.start < rc.stop then do
      let scrapeInterval ← getScrapeInterval ops timestamps rc.step
      .ok (getMaxPrevInterval scrapeInterval)
    else .ok rc.step
  let maxPrevInterval :=
    if rc.lookbackDelta > 0 ∧ maxPrevInterval > rc.lookbackDelta then rc.lookbackDelta
      else maxPrevInterval
  .ok (if minStalenessInterval > 0 ∧ maxPrevInterval <
    minStalenessInterval then minStalenessInterval
    else maxPrevInterval)

/-- The window, which is adjusted if there is none. -/
def adjustedWindow (maxPrevInterval : ℤ) : ℤ :=
  if rc.window ≤ 0 then
    let window := if rc.mayAdjustWindow && rc.step < maxPrevInterval then maxPrevInterval
      else rc.step
    if rc.isDefaultRollup && rc.lookbackDelta > 0 && window >
      rc.lookbackDelta then rc.lookbackDelta else window
  else rc.window

/-- The previous value and its timestamp, if the sample in front of the window is near enough. -/
def prevValueAt (values : List F) (timestamps : List ℤ) (i : ℕ) (bound : ℤ) : Outcome (F × ℤ) :=
  if i < timestamps.length ∧ i > 0 ∧ timestamps[i - 1]?.any (· > bound) then do
    let value ← .index values[i - 1]?
    let timestamp ← .index timestamps[i - 1]?
    .ok (value, timestamp)
  else .ok (ops.nan, bound)

/-- The previous value, unless it is too far from the first sample of the window, or from its
start. -/
def realPrevValueAt (values : List F) (timestamps : List ℤ) (i : ℕ) (currTimestamp : ℤ) :
    Outcome F :=
  if i > 0 then do
    let prevValue ← .index values[i - 1]?
    let prevTimestamp ← .index timestamps[i - 1]?
    .ok (if rc.lookbackDelta = 0 ∨ wrapI64 (currTimestamp - prevTimestamp) <
      rc.lookbackDelta then prevValue
      else ops.nan)
  else .ok ops.nan

/-- One point of the grid. -/
def windowStep (window maxPrevInterval : ℤ) (values : List F) (timestamps : List ℤ)
    (s : WindowState) (tEnd : ℤ) :
    Outcome (RollupFuncArg F × WindowState) := do
  let tStart := wrapI64 (tEnd - window)
  let ni := seekFirstTimestampIdxAfter (timestamps.drop s.i) tStart s.ni
  let i := s.i + ni
  let j := if s.j < i then i else s.j
  let nj := seekFirstTimestampIdxAfter (timestamps.drop j) tEnd s.nj
  let j := j + nj
  let (prevValue, prevTimestamp) ← prevValueAt ops values timestamps i
      (wrapI64 (tStart - maxPrevInterval))
  .assert (j ≤ values.length) "range end index out of range"
  let windowTimestamps := (timestamps.take j).drop i
  let realPrevValue ← realPrevValueAt ops rc values timestamps i
      (windowTimestamps.head?.getD tStart)
  let arg : RollupFuncArg F := {
    prevValue
    prevTimestamp
    values := (values.take j).drop i
    timestamps := windowTimestamps
    realPrevValue
    realNextValue := values[j]?.getD ops.nan
    currTimestamp := tEnd
    idx := s.idx
    window }
  let scanned := if rc.samplesScannedPerCall > 0 then rc.samplesScannedPerCall
    else arg.values.length
  .ok (arg, ⟨i, j, ni, nj, s.idx + 1, s.samplesScanned + scanned⟩)

/-- The points of the grid one after another. -/
def windowLoop (window maxPrevInterval : ℤ) (values : List F) (timestamps : List ℤ) :
    List ℤ → WindowState → Outcome (List (RollupFuncArg F) × ℕ)
  | [], s => .ok ([], s.samplesScanned)
  | tEnd :: grid, s => do
    let (arg, s) ← windowStep ops rc window maxPrevInterval values timestamps s tEnd
    let (args, samplesScanned) ← windowLoop window maxPrevInterval values timestamps grid s
    .ok (arg :: args, samplesScanned)

/-- What the rollup function is called with, and the number of scanned samples. -/
def windows (values : List F) (timestamps : List ℤ) : Outcome (List (RollupFuncArg F) × ℕ) := do
  .assert (rc.step > 0) "BUG: Step must be bigger than 0"
  .assert (rc.start ≤ rc.stop) "BUG: Start cannot exceed End"
  .assert (rc.window ≥ 0) "BUG: Window must be non-negative"
  match validateMaxPointsPerSeries rc.start rc.stop rc.step rc.maxPointsPerSeries with
  | .error _ => .panic "BUG: this must be validated before the call to RollupConfig::exec"
  | .ok () => do
    let maxPrevInterval ← maxPrevInterval ops rc timestamps
    windowLoop ops rc (adjustedWindow rc maxPrevInterval) maxPrevInterval values timestamps
      rc.timestamps ⟨0, 0, 0, 0, 0, values.length⟩

def doInternal (dstValues values : List F) (timestamps : List ℤ) : Outcome (List F × ℕ) := do
  let (args, samplesScanned) ← windows ops rc values timestamps
  .ok (dstValues ++ args.map rc.func, samplesScanned)

end RollupConfig

/-! ### Windows of samples -/

section Samples

variable {F : Type}

/-- The samples of a window: after its start, up to its end. -/
def samplesIn (samples : List (ℤ × F)) (tStart tEnd : ℤ) : List (ℤ × F) :=
  samples.filter fun s => tStart < s.1 ∧ s.1 ≤ tEnd

/-- The last sample up to a time. -/
def sampleBefore (samples : List (ℤ × F)) (t : ℤ) : Option (ℤ × F) :=
  (samples.filter fun s => s.1 ≤ t).getLast?

/-- The first sample after a time. -/
def sampleAfter (samples : List (ℤ × F)) (t : ℤ) : Option (ℤ × F) :=
  (samples.filter fun s => t < s.1).head?

/-- The first sample after a time cuts the series in two. -/
theorem take_firstAfter {samples : List (ℤ × F)} (h : samples.Pairwise fun a b => a.1 ≤ b.1)
    (x : ℤ) : samples.take (firstAfter (samples.map fst) x) = samples.filter (fun s => s.1 ≤ x) ∧
      samples.drop (firstAfter (samples.map fst) x) = samples.filter fun s => x < s.1 := by
  induction samples with
  | nil => exact ⟨rfl, rfl⟩
  | cons s samples ih =>
    obtain ⟨hs, hsamples⟩ := pairwise_cons.mp h
    rw [map_cons, firstAfter, findIdx_cons]
    by_cases hx : x < s.1
    · rw [decide_eq_true hx, cond_true, take_zero, drop_zero]
      constructor
      · refine (filter_eq_nil_iff.mpr fun a ha => ?_).symm
        obtain rfl | ha := mem_cons.mp ha
        · simpa using hx
        · simpa using hx.trans_le (hs a ha)
      · refine (filter_eq_self.mpr fun a ha => ?_).symm
        obtain rfl | ha := mem_cons.mp ha
        · simpa using hx
        · simpa using hx.trans_le (hs a ha)
    · obtain ⟨htake, hdrop⟩ := ih hsamples
      rw [decide_eq_false hx, cond_false, take_succ_cons, drop_succ_cons, ← firstAfter,
        htake, hdrop,
        filter_cons_of_pos (by simpa using hx), filter_cons_of_neg (by simpa using hx)]
      exact ⟨rfl, rfl⟩

end Samples

namespace RollupConfig

variable {F : Type} (ops : RollupOps F) (rc : RollupConfig F)

/-- The sample in front of a window, if it is near enough and there is one after the start of the
window. -/
def prevSample (samples : List (ℤ × F)) (tStart maxPrevInterval : ℤ) : Option (ℤ × F) :=
  (sampleBefore samples tStart).filter fun s =>
    tStart - maxPrevInterval < s.1 ∧ (sampleAfter samples tStart).isSome

/-- The sample in front of a window, unless it is too far away for the lookback. -/
def realPrevSample (samples : List (ℤ × F)) (tStart currTimestamp : ℤ) : Option (ℤ × F) :=
  (sampleBefore samples tStart).filter fun s =>
    rc.lookbackDelta = 0 ∨ currTimestamp - s.1 < rc.lookbackDelta

/-- What the rollup function is to be called with at a point: the samples of the window, and those
next to it. -/
def expectedArg (window maxPrevInterval : ℤ) (samples : List (ℤ × F)) (idx : ℕ)
    (tEnd : ℤ) : RollupFuncArg F :=
  let tStart := tEnd - window
  let inside := samplesIn samples tStart tEnd
  let prev := prevSample samples tStart maxPrevInterval
  let realPrev := realPrevSample rc samples tStart ((inside.map fst).head?.getD tStart)
  { prevValue := (prev.map snd).getD ops.nan
    prevTimestamp := (prev.map fst).getD (tStart - maxPrevInterval)
    values := inside.map snd
    timestamps := inside.map fst
    realPrevValue := (realPrev.map snd).getD ops.nan
    realNextValue := ((sampleAfter samples tEnd).map snd).getD ops.nan
    currTimestamp := tEnd
    idx
    window }

/-- No difference of times at a point leaves `i64`. -/
structure FitsI64 (window maxPrevInterval : ℤ) (timestamps : List ℤ) (tEnd : ℤ) : Prop where
  start : IsI64 (tEnd - window)
  prev : IsI64 (tEnd - window - maxPrevInterval)
  gap : ∀ a ∈ (tEnd - window) :: timestamps, ∀ b ∈ timestamps, IsI64 (a - b)

/-- An index up to which no timestamp is after a time. -/
structure Behind (timestamps : List ℤ) (x : ℤ) (i : ℕ) : Prop where
  le_length : i ≤ timestamps.length
  le_of_mem : ∀ t ∈ timestamps.take i, t ≤ x

theorem Behind.mono {timestamps : List ℤ} {x y : ℤ} {i : ℕ} (h : Behind timestamps x i)
    (hxy : x ≤ y) : Behind timestamps y i :=
  ⟨h.le_length, fun t ht => (h.le_of_mem t ht).trans hxy⟩

theorem behind_firstAfter (timestamps : List ℤ) (x : ℤ) :
    Behind timestamps x (firstAfter timestamps x) where
  le_length := firstAfter_le_length timestamps x
  le_of_mem t ht := by
    obtain ⟨k, hk, rfl⟩ := mem_take_iff_getElem.mp ht
    exact le_of_lt_firstAfter (lt_min_iff.mp hk).1 _ (getElem?_eq_getElem _)

/-- Seeking on from an index behind a time. -/
theorem Behind.seek {timestamps : List ℤ} (hsorted : timestamps.Pairwise (· ≤ ·)) {x : ℤ} {i : ℕ}
    (h : Behind timestamps x i) (nHint : ℕ) :
    i + seekFirstTimestampIdxAfter (timestamps.drop i) x nHint = firstAfter timestamps x := by
  rw [seekFirstTimestampIdxAfter_eq (hsorted.sublist (drop_sublist i timestamps)) x nHint]
  exact (firstAfter_drop h.le_length h.le_of_mem).symm

section Step

variable {samples : List (ℤ × F)} (hsorted : samples.Pairwise fun a b => a.1 ≤ b.1)

include hsorted in
theorem samplesIn_eq {tStart tEnd : ℤ} (hle : tStart ≤ tEnd) :
    (samples.take (firstAfter (samples.map fst) tEnd)).drop (firstAfter (samples.map fst) tStart) =
      samplesIn samples tStart tEnd := by
  have hbehind := (behind_firstAfter (samples.map fst) tStart).mono hle
  have hend := firstAfter_drop hbehind.le_length hbehind.le_of_mem
  have hdrop := (take_firstAfter hsorted tStart).2
  have htake := (take_firstAfter (hsorted.sublist (drop_sublist
    (firstAfter (samples.map fst) tStart) samples)) tEnd).1
  rw [map_drop] at htake
  rw [hend, drop_take, Nat.add_sub_cancel_left, htake, hdrop, filter_filter, samplesIn]
  refine filter_congr fun s _ => ?_
  rw [Bool.and_comm, Bool.decide_and]

include hsorted in
theorem sampleAfter_eq (x : ℤ) : sampleAfter samples x =
    samples[firstAfter (samples.map fst) x]? := by
  rw [sampleAfter, ← (take_firstAfter hsorted x).2, head?_drop]

include hsorted in
/-- The last sample up to a time is in front of the first one after it. -/
theorem sampleBefore_cases (x : ℤ) :
    (sampleBefore samples x = none ∧ firstAfter (samples.map fst) x = 0) ∨
      ∃ s, sampleBefore samples x = some s ∧ 0 < firstAfter (samples.map fst) x ∧
        samples[firstAfter (samples.map fst) x - 1]? = some s := by
  have hlength := firstAfter_le_length (samples.map fst) x
  rw [length_map] at hlength
  rw [sampleBefore, ← (take_firstAfter hsorted x).1]
  generalize firstAfter (samples.map fst) x = i at hlength
  obtain rfl | hi := Nat.eq_zero_or_pos i
  · exact .inl ⟨by rw [take_zero, getLast?_nil], rfl⟩
  · have hlt : i - 1 < samples.length := by omega
    refine .inr ⟨samples[i - 1], ?_, hi, getElem?_eq_getElem hlt⟩
    rw [getLast?_eq_getElem?, length_take, min_eq_left hlength, getElem?_take_of_lt (by omega),
      getElem?_eq_getElem hlt]

include hsorted in
theorem prevValueAt_eq (tStart maxPrevInterval : ℤ) :
    prevValueAt ops (samples.map snd) (samples.map fst) (firstAfter (samples.map fst) tStart)
        (tStart - maxPrevInterval) =
      .ok (((prevSample samples tStart maxPrevInterval).map snd).getD ops.nan,
        ((prevSample samples tStart maxPrevInterval).map fst).getD (tStart - maxPrevInterval)) := by
  have hafter : (sampleAfter samples tStart).isSome ↔
      firstAfter (samples.map fst) tStart < (samples.map fst).length := by
    rw [sampleAfter_eq hsorted, length_map]
    simp
  rw [prevValueAt, prevSample]
  obtain ⟨hbefore, hzero⟩ | ⟨s, hbefore, hpos, hs⟩ := sampleBefore_cases hsorted tStart
  · rw [hbefore, hzero, if_neg fun h => absurd h.2.1 (lt_irrefl 0)]
    rfl
  · rw [hbefore, getElem?_map, getElem?_map, hs, Option.filter_some]
    by_cases hnear : tStart - maxPrevInterval < s.1 ∧ (sampleAfter samples tStart).isSome
    · rw [if_pos ⟨hafter.mp hnear.2, hpos, decide_eq_true hnear.1⟩, if_pos (decide_eq_true hnear)]
      rfl
    · rw [if_neg fun h => hnear ⟨of_decide_eq_true h.2.2, hafter.mpr h.1⟩,
        if_neg (by simpa using hnear)]
      rfl

include hsorted in
theorem realPrevValueAt_eq {tStart currTimestamp : ℤ}
    (hgap : ∀ s ∈ samples, IsI64 (currTimestamp - s.1)) :
    realPrevValueAt ops rc (samples.map snd) (samples.map fst)
        (firstAfter (samples.map fst) tStart) currTimestamp =
      .ok (((realPrevSample rc samples tStart currTimestamp).map snd).getD ops.nan) := by
  rw [realPrevValueAt, realPrevSample]
  obtain ⟨hbefore, hzero⟩ | ⟨s, hbefore, hpos, hs⟩ := sampleBefore_cases hsorted tStart
  · rw [hbefore, hzero, if_neg (lt_irrefl 0)]
    rfl
  · rw [hbefore, getElem?_map, getElem?_map, hs, Option.filter_some, if_pos hpos]
    change Outcome.ok (if rc.lookbackDelta = 0 ∨ wrapI64 (currTimestamp - s.1) <
      rc.lookbackDelta then s.2
      else ops.nan) = _
    rw [wrapI64_of_isI64 (hgap s (mem_of_getElem? hs))]
    by_cases hnear : rc.lookbackDelta = 0 ∨ currTimestamp - s.1 < rc.lookbackDelta
    · rw [if_pos hnear, if_pos (decide_eq_true hnear)]
      rfl
    · rw [if_neg hnear, if_neg (by simpa using hnear)]
      rfl

include hsorted in
/-- **One point**: the rollup function is called as it is to be, and the ends of the window are
behind the next ones. -/
theorem windowStep_eq {window maxPrevInterval tEnd : ℤ} (hwindow : 0 ≤ window)
    (hfits : FitsI64 window maxPrevInterval (samples.map fst) tEnd) {s : WindowState}
    (hi : Behind (samples.map fst) (tEnd - window) s.i) (hj : Behind (samples.map fst) tEnd s.j) :
    ∃ s' : WindowState, windowStep ops rc window maxPrevInterval (samples.map snd)
    (samples.map fst) s tEnd =
        .ok (expectedArg ops rc window maxPrevInterval samples s.idx tEnd, s') ∧
      Behind (samples.map fst) (tEnd - window) s'.i ∧ Behind (samples.map fst) tEnd s'.j ∧
      s'.idx = s.idx + 1 := by
  have htimes : (samples.map fst).Pairwise (· ≤ ·) := pairwise_map.mpr hsorted
  have hle : tEnd - window ≤ tEnd := by omega
  have hseek := hi.seek htimes s.ni
  have hstart := behind_firstAfter (samples.map fst) (tEnd - window)
  have hbehind : Behind (samples.map fst) tEnd
      (if s.j < firstAfter (samples.map fst) (tEnd - window) then
        firstAfter (samples.map fst) (tEnd - window) else s.j) := by
    split_ifs
    · exact hstart.mono hle
    · exact hj
  have hseek' := hbehind.seek htimes s.nj
  have hinside := samplesIn_eq hsorted hle
  have hbehindEnd := behind_firstAfter (samples.map fst) tEnd
  have hlength : firstAfter (samples.map fst) tEnd ≤ (samples.map snd).length := by
    rw [length_map, ← length_map (f := fst)]
    exact hbehindEnd.le_length
  rw [windowStep, wrapI64_of_isI64 hfits.start, hseek]
  dsimp only
  rw [hseek', wrapI64_of_isI64 hfits.prev, Outcome.assert_of hlength]
  have hgap : ∀ s ∈ samples, IsI64 ((((samplesIn samples (tEnd - window) tEnd).map fst).head?.getD
      (tEnd - window)) - s.1) := by
    intro s hs
    refine hfits.gap _ ?_ _ (mem_map_of_mem hs)
    cases hhead : ((samplesIn samples (tEnd - window) tEnd).map fst).head? with
    | none => exact mem_cons_self
    | some t =>
      obtain ⟨s', hs', rfl⟩ := mem_map.mp (mem_of_head? hhead)
      exact mem_cons_of_mem _ (mem_map_of_mem (mem_of_mem_filter hs'))
  rw [prevValueAt_eq ops hsorted, ← map_take, ← map_drop, hinside,
    realPrevValueAt_eq ops rc hsorted hgap,
    ← map_take, ← map_drop, hinside, getElem?_map, ← sampleAfter_eq hsorted]
  exact ⟨_, rfl, hstart, hbehindEnd, rfl⟩

include hsorted in
/-- **The loop**: from ends that are behind those of the first window, every call is as it is to
be. -/
theorem windowLoop_eq {window maxPrevInterval : ℤ} (hwindow : 0 ≤ window) {grid : List ℤ}
    (hgrid : grid.Pairwise (· ≤ ·))
    (hfits : ∀ tEnd ∈ grid, FitsI64 window maxPrevInterval (samples.map fst) tEnd) {s : WindowState}
    (hi : ∀ tEnd ∈ grid, Behind (samples.map fst) (tEnd - window) s.i)
    (hj : ∀ tEnd ∈ grid, Behind (samples.map fst) tEnd s.j) :
    ∃ n, windowLoop ops rc window maxPrevInterval (samples.map snd) (samples.map fst) grid s =
      .ok ((grid.zipIdx s.idx).map fun p =>
        expectedArg ops rc window maxPrevInterval samples p.2 p.1, n) := by
  induction grid generalizing s with
  | nil => exact ⟨s.samplesScanned, rfl⟩
  | cons tEnd grid ih =>
    obtain ⟨hfirst, hrest⟩ := pairwise_cons.mp hgrid
    obtain ⟨s', hstep, hi', hj', hidx⟩ := windowStep_eq ops rc hsorted hwindow
      (hfits tEnd mem_cons_self)
      (hi tEnd mem_cons_self) (hj tEnd mem_cons_self)
    obtain ⟨n, hloop⟩ := ih (s := s') hrest (fun t ht => hfits t (mem_cons_of_mem tEnd ht))
      (fun t ht => hi'.mono (by have := hfirst t ht; omega)) fun t ht => hj'.mono (hfirst t ht)
    rw [windowLoop, hstep, Outcome.ok_bind]
    dsimp only
    rw [hloop, hidx]
    exact ⟨n, rfl⟩

end Step

/-- **The windows of a rollup.** Wherever a seek starts from, it finds the first timestamp after a
time. Whenever the loop returns values, each is that of the rollup function at the samples of the
window, after its start and up to its end, with the samples next to it: the previous value if it is
within the interval and a sample follows the start of the window, the one in front of the window
under the lookback, and the one after it. -/
theorem doInternal_eq :
    (∀ timestamps : List ℤ, timestamps.Pairwise (· ≤ ·) → ∀ x nHint,
      seekFirstTimestampIdxAfter timestamps x nHint ≤ timestamps.length ∧
      (∀ t ∈ timestamps.take (seekFirstTimestampIdxAfter timestamps x nHint), t ≤ x) ∧
      ∀ t ∈ timestamps.drop (seekFirstTimestampIdxAfter timestamps x nHint), x < t) ∧
    ∀ (samples : List (ℤ × F)), (samples.Pairwise fun a b => a.1 ≤ b.1) →
      rc.timestamps.Pairwise (· ≤ ·) →
      0 < rc.window → ∀ dstValues out n,
        doInternal ops rc dstValues (samples.map snd) (samples.map fst) = .ok (out, n) →
        ∃ m, maxPrevInterval ops rc (samples.map fst) = .ok m ∧
          ((∀ tEnd ∈ rc.timestamps, FitsI64 rc.window m (samples.map fst) tEnd) →
            (∃ n, windows ops rc (samples.map snd) (samples.map fst) =
              .ok (rc.timestamps.zipIdx.map fun p => expectedArg ops rc rc.window m samples p.2 p.1,
                n)) ∧
            out = dstValues ++ rc.timestamps.zipIdx.map fun p =>
              rc.func (expectedArg ops rc rc.window m samples p.2 p.1)) := by
  constructor
  · intro timestamps hsorted x nHint
    rw [seekFirstTimestampIdxAfter_eq hsorted]
    exact ⟨firstAfter_le_length timestamps x, (behind_firstAfter timestamps x).le_of_mem,
      lt_of_mem_drop_firstAfter hsorted x⟩
  · intro samples hsorted hgrid hwindow dstValues out n hret
    obtain ⟨⟨args, scanned⟩, hwindows, hout⟩ := Outcome.bind_eq_ok_iff.mp hret
    have hargs := hwindows
    rw [windows] at hargs
    obtain ⟨_, _, hargs⟩ := Outcome.bind_eq_ok_iff.mp hargs
    obtain ⟨_, _, hargs⟩ := Outcome.bind_eq_ok_iff.mp hargs
    obtain ⟨_, _, hargs⟩ := Outcome.bind_eq_ok_iff.mp hargs
    split at hargs
    · exact nomatch hargs
    obtain ⟨m, hm, hloop⟩ := Outcome.bind_eq_ok_iff.mp hargs
    refine ⟨m, hm, fun hfits => ?_⟩
    have hadjusted : adjustedWindow rc m = rc.window := if_neg (not_le.mpr hwindow)
    have hbehind : ∀ x, Behind (samples.map fst) x 0 := fun x => ⟨Nat.zero_le _, nofun⟩
    obtain ⟨n', hspec⟩ := windowLoop_eq ops rc hsorted hwindow.le hgrid hfits (s :=
      ⟨0, 0, 0, 0, 0, _⟩) (fun tEnd _ => hbehind (tEnd - rc.window)) fun tEnd _ => hbehind tEnd
    rw [hadjusted, hspec] at hloop
    obtain ⟨rfl, rfl⟩ := Prod.mk.inj (Outcome.ok.inj hloop)
    obtain ⟨rfl, _⟩ := Prod.mk.inj (Outcome.ok.inj hout)
    refine ⟨⟨_, hwindows⟩, ?_⟩
    rw [map_map]
    rfl

/-! ### Runs -/

/-- Exact arithmetic without infinities, in place of that of floating-point numbers. -/
def exactOps : RollupOps Val where
  nan := none
  infinity := none
  negInfinity := none
  isNan := Option.isNone
  threeFifths := some (3 / 5)
  ofInt n := some n
  toI64 v := (v.map Int.floor).getD 0
  toUsize v := (v.map fun q => ⌊q⌋.toNat).getD 0
  add := Val.add
  sub := Option.map₂ (· - ·)
  mul := Val.mul
  floor v := v.map fun q => (⌊q⌋ : ℚ)
  max := Option.map₂ Max.max
  min := Option.map₂ Min.min
  lt := Val.lt

/-- The previous value at points a second apart, with a window of half a second. -/
def prevValuesAt (timestamps : List ℤ) : RollupConfig Val where
  func arg := arg.prevValue
  start := timestamps.headD 0
  stop := timestamps.getLastD 0
  step := 1000
  window := 500
  maxPointsPerSeries := 10
  mayAdjustWindow := false
  timestamps := timestamps
  lookbackDelta := 0
  isDefaultRollup := false
  samplesScannedPerCall := 1

/-- Samples around the starts of two windows. -/
def pointSamples : List (ℤ × Val) := [(1000, some 7), (1700, some 8), (2200, some 9),
  (2600, some 10)]

/-- The intervals between the samples are 400, 500 and 700, in this order from the last. -/
theorem maxPrevInterval_pointSamples :
    maxPrevInterval exactOps (prevValuesAt [2000, 3000]) (pointSamples.map fst) = .ok 2700 := by
  have hsort : quantile exactOps (some (3 / 5)) [some 400, some 500, some 700] =
      .ok (some 540) := by
    rw [quantile, mergeSort_of_pairwise (by decide +kernel)]
    decide +kernel
  have hinterval : getScrapeInterval exactOps (pointSamples.map fst) 1000 = .ok 540 := by
    change Outcome.bind (quantile exactOps (some (3 / 5)) [some 400, some 500, some 700]) _ = _
    rw [hsort]
    decide +kernel
  rw [maxPrevInterval, if_pos (by decide), show (prevValuesAt [2000, 3000]).step =
    1000 from rfl, hinterval]
  decide +kernel

theorem doInternal_eq_point :
    ∃ m, maxPrevInterval exactOps (prevValuesAt [2000, 3000]) (pointSamples.map fst) = .ok m ∧
      (∃ n, windows exactOps (prevValuesAt [2000, 3000]) (pointSamples.map snd)
          (pointSamples.map fst) =
        .ok ([2000, 3000].zipIdx.map fun p =>
          expectedArg exactOps (prevValuesAt [2000, 3000]) 500 m pointSamples p.2 p.1, n)) ∧
      [some 7, some 9] = [] ++ [(2000 : ℤ), 3000].zipIdx.map fun p =>
        (expectedArg exactOps (prevValuesAt [2000, 3000]) 500 m pointSamples p.2
          p.1).prevValue := by
  have hret : doInternal exactOps (prevValuesAt [2000, 3000]) [] (pointSamples.map snd)
      (pointSamples.map fst) = .ok ([some 7, some 9], 6) := by
    rw [doInternal, windows, maxPrevInterval_pointSamples]
    decide +kernel
  obtain ⟨m, hm, hspec⟩ := (doInternal_eq exactOps (prevValuesAt [2000, 3000])).2 pointSamples
    (by decide +kernel) (by decide) (by decide) [] _ _ hret
  obtain rfl := Outcome.ok.inj (maxPrevInterval_pointSamples.symm.trans hm)
  refine ⟨2700, hm, hspec fun tEnd htEnd => ?_⟩
  have hpoints : tEnd = 2000 ∨ tEnd = 3000 := by simpa [prevValuesAt] using htEnd
  obtain rfl | rfl := hpoints
  · exact ⟨by decide, by decide, by decide⟩
  · exact ⟨by decide, by decide, by decide⟩

/-- The only sample is half a second in front of the window, well within the interval of a second,
and is not the previous value. At the first millisecond of `i64` the start of the window wraps, and
the sample at the point itself is not in the window. -/
theorem doInternal_deviates :
    doInternal exactOps (prevValuesAt [2000]) [] [some 7] [1000] = .ok ([none], 2) ∧
      maxPrevInterval exactOps (prevValuesAt [2000]) [1000] = .ok 1000 ∧
      sampleBefore [((1000 : ℤ), (some 7 : Val))] (2000 - 500) = some (1000, some 7) ∧
      (2000 : ℤ) - 500 - 1000 < 1000 ∧
      doInternal exactOps
      { prevValuesAt [-(2 ^ 63)] with func := fun arg => some arg.values.length } [] [some 7]
        [-(2 ^ 63)] = .ok ([some 0], 2) ∧
      samplesIn [(-(2 ^ 63 : ℤ), (some 7 : Val))] (-(2 ^ 63) - 500) (-(2 ^ 63)) =
        [(-(2 ^ 63), some 7)] := by
  refine ⟨?_, ?_, ?_, ?_, ?_, ?_⟩
  all_goals decide +kernel

end RollupConfig

end Esmetrics
