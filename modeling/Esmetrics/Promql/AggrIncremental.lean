import Esmetrics.Promql.Aggr

/-!
# Incremental aggregation

Model of `esm-promql/src/aggr_incremental.rs`. Instead of collecting the series of a group, a worker
keeps two numbers for each point of a group: the accumulated value and a count. The accumulators of
the workers are merged group by group at the end, and a point without values becomes NaN.

What an accumulator holds is a function of the values that went into it (`Accumulates`), whatever
the worker and the order, and the result is that of the aggregate function over all series but for
the groups that are NaN everywhere (`finalizeTimeseries_eq_call`).
-/

namespace Esmetrics

open List hiding Vector
open Prod (fst snd)

variable {n : ℕ}

/-- The accumulators of a group: the accumulated values, and the counts of the points. -/
structure IncrementalAggrContext (n : ℕ) where
  ts : Timeseries n
  values : Vector ℚ n

namespace IncrementalAggrContext

/-- Updates the accumulators of every point with a value. -/
def updatePoints (f : Val → ℚ → Val → Val × ℚ) (iac : IncrementalAggrContext n)
    (values : Vector Val n) : IncrementalAggrContext n where
  ts := { iac.ts with
    values := Vector.ofFn fun i => (f iac.ts.values[i] iac.values[i] values[i]).1 }
  values := Vector.ofFn fun i => (f iac.ts.values[i] iac.values[i] values[i]).2

/-- Merges the accumulators of every point. -/
def mergePoints (f : Val → ℚ → Val → ℚ → Val × ℚ) (dst src : IncrementalAggrContext n) :
    IncrementalAggrContext n where
  ts := { dst.ts with
    values := Vector.ofFn fun i =>
      (f dst.ts.values[i] dst.values[i] src.ts.values[i] src.values[i]).1 }
  values := Vector.ofFn fun i =>
    (f dst.ts.values[i] dst.values[i] src.ts.values[i] src.values[i]).2

/-- Makes the result of every point. -/
def finalizePoints (f : Val → ℚ → Val) (iac : IncrementalAggrContext n) :
    IncrementalAggrContext n :=
  { iac with ts := { iac.ts with
    values := Vector.ofFn fun i => f iac.ts.values[i] iac.values[i] } }

end IncrementalAggrContext

/-- The functions of an incremental aggregate function. -/
structure IncrementalAggrFuncCallbacks (n : ℕ) where
  update : IncrementalAggrContext n → Vector Val n → IncrementalAggrContext n
  merge : IncrementalAggrContext n → IncrementalAggrContext n → IncrementalAggrContext n
  finalize : IncrementalAggrContext n → IncrementalAggrContext n
  /-- Whether to keep the name of a series. -/
  keepOriginal : Bool

/-! ### The functions -/

/-- A value starts the accumulator of a point, or is combined with it. -/
def updateWith (f : Val → Val) (combine : Val → Val → Val) (acc : Val) (count : ℚ) (v : Val) :
    Val × ℚ :=
  if v.isNone then (acc, count)
  else if count = 0 then (f v, 1)
  else (combine acc (f v), count)

/-- The accumulator of a point that has values starts another one, or is combined with it. -/
def mergeWith (combine : Val → Val → Val) (acc : Val) (count : ℚ) (v : Val) (srcCount : ℚ) :
    Val × ℚ :=
  if srcCount = 0 then (acc, count)
  else if count = 0 then (v, 1)
  else (combine acc v, count)

def lesserOf (acc v : Val) : Val := if v.lt acc then v else acc

def greaterOf (acc v : Val) : Val := if acc.lt v then v else acc

def finalizeAggrCommon : IncrementalAggrContext n → IncrementalAggrContext n :=
  .finalizePoints fun acc count => if count = 0 then none else acc

def updateAggrSum : IncrementalAggrContext n → Vector Val n → IncrementalAggrContext n :=
  .updatePoints (updateWith id Val.add)

def mergeAggrSum : IncrementalAggrContext n → IncrementalAggrContext n → IncrementalAggrContext n :=
  .mergePoints (mergeWith Val.add)

def updateAggrMin : IncrementalAggrContext n → Vector Val n → IncrementalAggrContext n :=
  .updatePoints (updateWith id lesserOf)

def mergeAggrMin : IncrementalAggrContext n → IncrementalAggrContext n → IncrementalAggrContext n :=
  .mergePoints (mergeWith lesserOf)

def updateAggrMax : IncrementalAggrContext n → Vector Val n → IncrementalAggrContext n :=
  .updatePoints (updateWith id greaterOf)

def mergeAggrMax : IncrementalAggrContext n → IncrementalAggrContext n → IncrementalAggrContext n :=
  .mergePoints (mergeWith greaterOf)

def updateAggrSum2 : IncrementalAggrContext n → Vector Val n → IncrementalAggrContext n :=
  .updatePoints (updateWith (fun v => v.mul v) Val.add)

def mergeAggrSum2 : IncrementalAggrContext n → IncrementalAggrContext n →
    IncrementalAggrContext n :=
  .mergePoints (mergeWith Val.add)

def updateAggrAvg : IncrementalAggrContext n → Vector Val n → IncrementalAggrContext n :=
  .updatePoints fun acc count v =>
    if v.isNone then (acc, count)
    else if count = 0 then (v, 1)
    else (acc.add v, count + 1)

def mergeAggrAvg : IncrementalAggrContext n → IncrementalAggrContext n → IncrementalAggrContext n :=
  .mergePoints fun acc count v srcCount =>
    if srcCount = 0 then (acc, count)
    else if count = 0 then (v, srcCount)
    else (acc.add v, count + srcCount)

def finalizeAggrAvg : IncrementalAggrContext n → IncrementalAggrContext n :=
  .finalizePoints fun acc count => if count = 0 then none else acc.map (· / count)

def updateAggrCount : IncrementalAggrContext n → Vector Val n → IncrementalAggrContext n :=
  .updatePoints fun acc count v => if v.isNone then (acc, count) else (acc.add (some 1), count)

def mergeAggrCount : IncrementalAggrContext n → IncrementalAggrContext n →
    IncrementalAggrContext n :=
  .mergePoints fun acc count v _ => (acc.add v, count)

def finalizeAggrCount : IncrementalAggrContext n → IncrementalAggrContext n :=
  .finalizePoints fun acc _ => if acc = some 0 then none else acc

def finalizeAggrGroup : IncrementalAggrContext n → IncrementalAggrContext n :=
  .finalizePoints fun acc _ => if acc = some 0 then none else some 1

def updateAggrAny [NeZero n] (iac : IncrementalAggrContext n) (values : Vector Val n) :
    IncrementalAggrContext n :=
  if iac.values[(0 : Fin n)] > 0 then iac
  else { ts := { iac.ts with values }, values := Vector.replicate n 1 }

def mergeAggrAny [NeZero n] (dst src : IncrementalAggrContext n) : IncrementalAggrContext n :=
  if dst.values[(0 : Fin n)] > 0 then dst
  else
    { ts := { dst.ts with values := src.ts.values }
      values := dst.values.set (0 : Fin n) src.values[(0 : Fin n)] }

/-- The callbacks of a function. -/
def getIncrementalAggrFuncCallbacks [NeZero n] : AggrFunc → IncrementalAggrFuncCallbacks n
  | .sum => ⟨updateAggrSum, mergeAggrSum, finalizeAggrCommon, false⟩
  | .min => ⟨updateAggrMin, mergeAggrMin, finalizeAggrCommon, false⟩
  | .max => ⟨updateAggrMax, mergeAggrMax, finalizeAggrCommon, false⟩
  | .avg => ⟨updateAggrAvg, mergeAggrAvg, finalizeAggrAvg, false⟩
  | .count => ⟨updateAggrCount, mergeAggrCount, finalizeAggrCount, false⟩
  | .sum2 => ⟨updateAggrSum2, mergeAggrSum2, finalizeAggrCommon, false⟩
  | .any => ⟨updateAggrAny, mergeAggrAny, finalizeAggrCommon, true⟩
  | .group => ⟨updateAggrCount, mergeAggrCount, finalizeAggrGroup, false⟩

/-! ### The context -/

/-- The accumulators of the groups that a worker has seen. -/
abbrev AggrContextMap (n : ℕ) : Type := List (Bytes × IncrementalAggrContext n)

/-- The state of an incremental aggregation. -/
structure IncrementalAggrFuncContext (n : ℕ) where
  modifier : ModifierExpr
  limit : ℤ
  byWorkerId : List (AggrContextMap n)
  callbacks : IncrementalAggrFuncCallbacks n

namespace IncrementalAggrFuncContext

def new (modifier : ModifierExpr) (limit : ℤ) (callbacks : IncrementalAggrFuncCallbacks n)
    (maxWorkers : ℕ) : IncrementalAggrFuncContext n :=
  ⟨modifier, limit, List.replicate (max maxWorkers 1) [], callbacks⟩

/-- A new group is skipped: the limit on the number of groups is reached. -/
def isSkipped (limit : ℤ) (m : AggrContextMap n) (key : Bytes) : Prop :=
  key ∉ mapKeys m ∧ limit > 0 ∧ m.length ≥ limit.toNat

instance (limit : ℤ) (m : AggrContextMap n) (key : Bytes) : Decidable (isSkipped limit m key) :=
  inferInstanceAs (Decidable (_ ∧ _))

/-- Updates the accumulators of a group, new ones if there are none. -/
def updateGroup (callbacks : IncrementalAggrFuncCallbacks n)
    (iac : Option (IncrementalAggrContext n))
    (ts : Timeseries n) : IncrementalAggrContext n :=
  callbacks.update
    (iac.getD ⟨⟨ts.metricName, Vector.replicate n (some 0)⟩, Vector.replicate n 0⟩) ts.values

/-- Merges a series into the accumulators of a worker. -/
def updateTimeseries (iafc : IncrementalAggrFuncContext n) (tsOrig : Timeseries n) (workerId : ℕ) :
    Outcome (IncrementalAggrFuncContext n) := do
  let m ← Outcome.index iafc.byWorkerId[workerId]?
  let (key, ts) ← groupSeries iafc.modifier iafc.callbacks.keepOriginal tsOrig
  if isSkipped iafc.limit m key then .ok iafc
  else
    .ok { iafc with
      byWorkerId :=
        iafc.byWorkerId.set workerId (groupInsert (updateGroup iafc.callbacks) key ts m) }

/-- Merges the series in the order in which the workers take them. -/
def updateAll (iafc : IncrementalAggrFuncContext n) (calls : List (ℕ × Timeseries n)) :
    Outcome (IncrementalAggrFuncContext n) :=
  calls.foldlM (fun iafc call => iafc.updateTimeseries call.2 call.1) iafc

/-- Merges the accumulators of a group. -/
def mergeGroup (callbacks : IncrementalAggrFuncCallbacks n)
    (iac : Option (IncrementalAggrContext n))
    (src : IncrementalAggrContext n) : IncrementalAggrContext n :=
  match iac with
  | some dst => callbacks.merge dst src
  | none => src

/-- Adds the accumulators of a group of a worker to those of all workers. -/
def mergeEntry (iafc : IncrementalAggrFuncContext n) (mGlobal : AggrContextMap n)
    (e : Bytes × IncrementalAggrContext n) : AggrContextMap n :=
  if isSkipped iafc.limit mGlobal e.1 then mGlobal
  else groupInsert (mergeGroup iafc.callbacks) e.1 e.2 mGlobal

/-- Merges the accumulators of all workers, and makes the results. The entries of the map of a
worker are visited in the order `order workerId`, and those of the merged map in the order
`orderGlobal`. -/
def finalizeTimeseries (order : ℕ → IterOrder (Bytes × IncrementalAggrContext n))
    (orderGlobal : IterOrder (Bytes × IncrementalAggrContext n))
    (iafc : IncrementalAggrFuncContext n) : List (Timeseries n) :=
  let mGlobal := iafc.byWorkerId.zipIdx.foldl
    (fun mGlobal m => ((order m.2).visit m.1).foldl iafc.mergeEntry mGlobal) []
  (orderGlobal.visit mGlobal).map fun e => (iafc.callbacks.finalize e.2).ts

end IncrementalAggrFuncContext

/-! ### What accumulators hold -/

/-- The functions at a point: `acc` says what is held for the values of a point. -/
structure AccumulatesPoint (update : Val → ℚ → Val → Val × ℚ) (merge : Val → ℚ → Val → ℚ → Val × ℚ)
    (finalize : Val → ℚ → Val) (acc : List ℚ → Val × ℚ) (result : List ℚ → Val) : Prop where
  acc_nil : acc [] = (some 0, 0)
  update_none : ∀ a c, update a c none = (a, c)
  update_some : ∀ vs v, update (acc vs).1 (acc vs).2 (some v) = acc (vs ++ [v])
  merge_acc : ∀ vs ws, merge (acc vs).1 (acc vs).2 (acc ws).1 (acc ws).2 = acc (vs ++ ws)
  finalize_acc : ∀ vs, finalize (acc vs).1 (acc vs).2 = result vs

/-- The accumulators of a group hold the values of some series. -/
def IncrementalAggrContext.Holds (acc : List ℚ → Val × ℚ) (iac : IncrementalAggrContext n)
    (tss : List (Timeseries n)) : Prop :=
  ∀ i : Fin n, (iac.ts.values[i], iac.values[i]) = acc (valuesAt tss i)

/-- The callbacks accumulate the values of series, and leave the name of the group alone. -/
structure Accumulates (callbacks : IncrementalAggrFuncCallbacks n) (acc : List ℚ → Val × ℚ)
    (result : List ℚ → Val) : Prop where
  acc_nil : acc [] = (some 0, 0)
  update : ∀ {iac tss}, iac.Holds acc tss → ∀ ts : Timeseries n,
    (callbacks.update iac ts.values).Holds acc (tss ++ [ts])
  merge : ∀ {dst src tss tss'}, dst.Holds acc tss → src.Holds acc tss' →
    (callbacks.merge dst src).Holds acc (tss ++ tss')
  finalize : ∀ {iac tss}, iac.Holds acc tss → (callbacks.finalize iac).ts.values =
    Vector.ofFn fun i => result (valuesAt tss i)
  update_name : ∀ iac values, (callbacks.update iac values).ts.metricName = iac.ts.metricName
  merge_name : ∀ dst src, (callbacks.merge dst src).ts.metricName = dst.ts.metricName
  finalize_name : ∀ iac, (callbacks.finalize iac).ts.metricName = iac.ts.metricName
  keepOriginal_eq : callbacks.keepOriginal = false

theorem valuesAt_concat (tss : List (Timeseries n)) (ts : Timeseries n) (i : Fin n) :
    valuesAt (tss ++ [ts]) i = valuesAt tss i ++ (ts.values.get i).toList := by
  rw [valuesAt, filterMap_append, ← valuesAt]
  simp only [filterMap_cons, filterMap_nil]
  cases ts.values.get i <;> rfl

section Points

variable {update : Val → ℚ → Val → Val × ℚ} {merge : Val → ℚ → Val → ℚ → Val × ℚ}
  {finalize : Val → ℚ → Val} {acc : List ℚ → Val × ℚ} {result : List ℚ → Val}

theorem AccumulatesPoint.accumulates (h : AccumulatesPoint update merge finalize acc result) :
    Accumulates (n := n) ⟨.updatePoints update, .mergePoints merge, .finalizePoints finalize, false⟩
      acc result where
  acc_nil := h.acc_nil
  update := by
    intro iac tss hiac ts i
    obtain ⟨h1, h2⟩ := Prod.ext_iff.mp (hiac i)
    have hpoint : update iac.ts.values[i] iac.values[i] (ts.values.get i) =
        acc (valuesAt (tss ++ [ts]) i) := by
      rw [valuesAt_concat]
      cases ts.values.get i with
      | none =>
        rw [h.update_none, Option.toList_none, append_nil]
        exact hiac i
      | some v =>
        simp only at h1 h2
        rw [h1, h2]
        exact h.update_some _ v
    simp only [IncrementalAggrContext.updatePoints, Fin.getElem_fin, Vector.getElem_ofFn]
    exact hpoint
  merge := by
    intro dst src tss tss' hdst hsrc i
    obtain ⟨h1, h2⟩ := Prod.ext_iff.mp (hdst i)
    obtain ⟨h3, h4⟩ := Prod.ext_iff.mp (hsrc i)
    have hpoint : merge dst.ts.values[i] dst.values[i] src.ts.values[i] src.values[i] =
        acc (valuesAt (tss ++ tss') i) := by
      simp only at h1 h2 h3 h4
      rw [h1, h2, h3, h4, h.merge_acc, valuesAt, valuesAt, valuesAt, filterMap_append]
    simp only [IncrementalAggrContext.mergePoints, Fin.getElem_fin, Vector.getElem_ofFn]
    exact hpoint
  finalize := by
    intro iac tss hiac
    refine congrArg Vector.ofFn (funext fun i => ?_)
    obtain ⟨h1, h2⟩ := Prod.ext_iff.mp (hiac i)
    simp only at h1 h2
    rw [h1, h2, h.finalize_acc]
  update_name := fun _ _ => rfl
  merge_name := fun _ _ => rfl
  finalize_name := fun _ => rfl
  keepOriginal_eq := rfl

/-- The accumulators of an operation. -/
theorem accumulatesPoint_reduceBy {op : ℚ → ℚ → ℚ} [Std.Associative op] {f : Val → Val}
    {combine : Val → Val → Val} {g : ℚ → ℚ} (hf : ∀ v, f (some v) = some (g v))
    (hcombine : ∀ a b, combine (some a) (some b) = some (op a b)) :
    AccumulatesPoint (updateWith f combine) (mergeWith combine)
      (fun acc count => if count = 0 then none else acc)
      (fun vs => (some ((reduceBy op (vs.map g)).getD 0), if vs = [] then 0 else 1))
      (fun vs => reduceBy op (vs.map g)) where
  acc_nil := rfl
  update_none := fun _ _ => rfl
  update_some := by
    intro vs v
    rw [map_append, map_singleton, reduceBy_concat]
    cases vs with
    | nil => simp [updateWith, hf, reduceBy]
    | cons w vs => simp [updateWith, hf, hcombine, reduceBy]
  merge_acc := by
    intro vs ws
    rw [map_append, reduceBy_append]
    cases vs with
    | nil =>
      cases ws with
      | nil => simp [mergeWith, reduceBy]
      | cons w ws => simp [mergeWith, reduceBy]
    | cons v vs =>
      cases ws with
      | nil => simp [mergeWith, reduceBy]
      | cons w ws => simp [mergeWith, hcombine, reduceBy]
  finalize_acc := by
    intro vs
    cases vs with
    | nil => rfl
    | cons v vs => simp [reduceBy]

theorem Val.add_some (a b : ℚ) : Val.add (some a) (some b) = some (a + b) := rfl

theorem lesserOf_some (a b : ℚ) : lesserOf (some a) (some b) = some (min a b) := by
  rw [min_comm, min_def_lt, lesserOf, Val.lt]
  split_ifs <;> simp_all

theorem greaterOf_some (a b : ℚ) : greaterOf (some a) (some b) = some (max a b) := by
  rw [max_def_lt, greaterOf, Val.lt]
  split_ifs <;> simp_all

theorem accumulatesPoint_avg : AccumulatesPoint
    (fun acc count v =>
      if v.isNone then (acc, count) else if count = 0 then (v, 1) else (acc.add v, count + 1))
    (fun acc count v srcCount =>
      if srcCount = 0 then (acc, count)
      else if count = 0 then (v, srcCount)
      else (acc.add v, count + srcCount))
    (fun acc count => if count = 0 then none else acc.map (· / count))
    (fun vs => (some vs.sum, vs.length)) AggrFunc.avg.result where
  acc_nil := rfl
  update_none := fun _ _ => rfl
  update_some := by
    intro vs v
    cases vs with
    | nil => simp
    | cons w vs =>
      have hne : ((w :: vs).length : ℚ) ≠ 0 := by simp [Nat.cast_add_one_ne_zero]
      simp only [Option.isNone_some, Bool.false_eq_true, if_false, if_neg hne]
      simp [Val.add, add_assoc]
      norm_num
  merge_acc := by
    intro vs ws
    by_cases hws : ws = []
    · simp [hws]
    · have hne : (ws.length : ℚ) ≠ 0 := by simpa using hws
      by_cases hvs : vs = []
      · simp [hvs, hne]
      · have hne' : (vs.length : ℚ) ≠ 0 := by simpa using hvs
        simp [hne, hne', Val.add]
  finalize_acc := by
    intro vs
    by_cases hvs : vs = []
    · simp [hvs, AggrFunc.result]
    · have hne : (vs.length : ℚ) ≠ 0 := by simpa using hvs
      simp [hne, AggrFunc.result, hvs]

theorem accumulatesPoint_count {finalize : Val → ℚ → Val} {result : List ℚ → Val}
    (hfinalize : ∀ vs, finalize (some (vs.length : ℚ)) 0 = result vs) : AccumulatesPoint
    (fun acc count v => if v.isNone then (acc, count) else (acc.add (some 1), count))
    (fun acc count v _ => (acc.add v, count)) finalize
    (fun vs => (some (vs.length : ℚ), 0)) result where
  acc_nil := rfl
  update_none := fun _ _ => rfl
  update_some := by
    intro vs v
    simp [Val.add]
  merge_acc := by
    intro vs ws
    simp [Val.add]
  finalize_acc := hfinalize

end Points

/-- The functions but `any` accumulate the values of a point. -/
theorem AggrFunc.exists_accumulates [NeZero n] {f : AggrFunc} (hf : f ≠ .any) :
    ∃ acc, Accumulates (n := n) (getIncrementalAggrFuncCallbacks f) acc f.result := by
  have hid : ∀ op : ℚ → ℚ → ℚ, (fun vs => reduceBy op (vs.map id)) = reduceBy op := fun op =>
    funext fun vs => by rw [map_id]
  cases f with
  | any => exact absurd rfl hf
  | avg => exact ⟨_, accumulatesPoint_avg.accumulates⟩
  | count =>
    refine ⟨_, (accumulatesPoint_count fun vs => ?_).accumulates⟩
    simp [result]
  | group =>
    refine ⟨_, (accumulatesPoint_count fun vs => ?_).accumulates⟩
    simp [result]
  | max =>
    have h := accumulatesPoint_reduceBy (f := id) (g := id) (fun _ => rfl) greaterOf_some
    rw [hid] at h
    exact ⟨_, h.accumulates⟩
  | min =>
    have h := accumulatesPoint_reduceBy (f := id) (g := id) (fun _ => rfl) lesserOf_some
    rw [hid] at h
    exact ⟨_, h.accumulates⟩
  | sum =>
    have h := accumulatesPoint_reduceBy (f := id) (g := id) (fun _ => rfl) Val.add_some
    rw [hid] at h
    exact ⟨_, h.accumulates⟩
  | sum2 =>
    have h := accumulatesPoint_reduceBy (f := fun v => v.mul v) (g := fun v => v * v) (fun _ => rfl)
      Val.add_some
    exact ⟨_, h.accumulates⟩

/-! ### Runs -/

namespace IncrementalAggrFuncContext

section Run

variable {g : MetricName → MetricName} {callbacks : IncrementalAggrFuncCallbacks n}
  {acc : List ℚ → Val × ℚ} {result : List ℚ → Val}

/-- The accumulators of a group, if there are any, are those of the given series. -/
def Represents (g : MetricName → MetricName) (acc : List ℚ → Val × ℚ)
    (o : Option (IncrementalAggrContext n)) (tss : List (Timeseries n)) : Prop :=
  match o with
  | none => tss = []
  | some iac => iac.Holds acc tss ∧
      ∃ ts₀ ∈ tss, iac.ts.metricName = (g ts₀.metricName).sortMetricTags

theorem Represents.updateGroup (hacc : Accumulates callbacks acc result)
    {o : Option (IncrementalAggrContext n)} {tss : List (Timeseries n)} (h : Represents g acc o tss)
    (ts : Timeseries n) :
    Represents g acc (some (updateGroup callbacks o (withGroupName g ts))) (tss ++ [ts]) := by
  cases o with
  | none =>
    obtain rfl : tss = [] := h
    refine ⟨hacc.update (fun i => ?_) ts, ts, by simp, hacc.update_name _ _⟩
    simp only [Option.getD_none, Fin.getElem_fin, Vector.getElem_replicate]
    exact hacc.acc_nil.symm
  | some iac =>
    obtain ⟨hholds, ts₀, hts₀, hname⟩ := h
    exact ⟨hacc.update hholds ts, ts₀, mem_append_left _ hts₀,
      (hacc.update_name _ _).trans hname⟩

theorem Represents.mergeGroup (hacc : Accumulates callbacks acc result)
    {o o' : Option (IncrementalAggrContext n)} {tss tss' : List (Timeseries n)}
    (h : Represents g acc o tss) (h' : Represents g acc o' tss') :
    Represents g acc (o'.toList.foldl (fun o iac => some (mergeGroup callbacks o iac)) o)
      (tss ++ tss') := by
  cases o' with
  | none =>
    obtain rfl : tss' = [] := h'
    rwa [append_nil]
  | some src =>
    obtain ⟨hsrc, ts₁, hts₁, hname₁⟩ := h'
    cases o with
    | none =>
      obtain rfl : tss = [] := h
      exact ⟨hsrc, ts₁, hts₁, hname₁⟩
    | some dst =>
      obtain ⟨hholds, ts₀, hts₀, hname⟩ := h
      exact ⟨hacc.merge hholds hsrc, ts₀, mem_append_left _ hts₀,
        (hacc.merge_name _ _).trans hname⟩

/-- The map of a worker that was given the series `tss`. -/
def workerMap (g : MetricName → MetricName) (callbacks : IncrementalAggrFuncCallbacks n)
    (tss : List (Timeseries n)) : AggrContextMap n :=
  groupFold (updateGroup callbacks) []
    (tss.map fun ts => ((g ts.metricName).groupKey, withGroupName g ts))

theorem represents_workerMap (hacc : Accumulates callbacks acc result) (tss : List (Timeseries n))
    (k : Bytes) :
    Represents g acc (mapLookup k (workerMap g callbacks tss)) (groupOf g tss k) := by
  have hfold : ∀ (tss done : List (Timeseries n)) (o : Option (IncrementalAggrContext n)),
      Represents g acc o done →
      Represents g acc ((tss.map fun ts => ((g ts.metricName).groupKey, withGroupName g ts)).foldl
        (fun o x => some (IncrementalAggrFuncContext.updateGroup callbacks o x.2)) o)
        (done ++ tss) := by
    intro tss
    induction tss with
    | nil =>
      intro done o h
      rwa [append_nil]
    | cons ts tss ih =>
      intro done o h
      rw [append_cons]
      exact ih _ _ (h.updateGroup hacc ts)
  rw [workerMap, mapLookup_groupFold, filter_keyed]
  exact hfold _ [] none rfl

theorem nodup_workerMap (tss : List (Timeseries n)) :
    (mapKeys (workerMap g callbacks tss)).Nodup :=
  nodup_mapKeys_groupFold _ _ nodup_nil

/-- The merged map of the workers. -/
theorem represents_merge (hacc : Accumulates callbacks acc result)
    (order : ℕ → IterOrder (Bytes × IncrementalAggrContext n)) (tssOf : ℕ → List (Timeseries n))
    (ids : List ℕ) (k : Bytes) :
    Represents g acc
      (mapLookup k (groupFold (IncrementalAggrFuncContext.mergeGroup callbacks) []
        (ids.flatMap fun w => (order w).visit (workerMap g callbacks (tssOf w)))))
      (ids.flatMap fun w => groupOf g (tssOf w) k) := by
  have hfold : ∀ (ids : List ℕ) (done : List (Timeseries n))
      (o : Option (IncrementalAggrContext n)),
      Represents g acc o done →
      Represents g acc
        (((ids.flatMap fun w => (order w).visit (workerMap g callbacks (tssOf w))).filter
          fun x => x.1 = k).foldl
            (fun o x => some (IncrementalAggrFuncContext.mergeGroup callbacks o x.2)) o)
        (done ++ ids.flatMap fun w => groupOf g (tssOf w) k) := by
    intro ids
    induction ids with
    | nil =>
      intro done o h
      rw [flatMap_nil, flatMap_nil, append_nil]
      exact h
    | cons w ids ih =>
      intro done o h
      rw [flatMap_cons, filter_append, foldl_append, flatMap_cons,
        ← append_assoc]
      refine ih _ _ ?_
      rw [filter_eq_toList_mapLookup (nodup_workerMap _) ((order w).perm _), foldl_map]
      exact h.mergeGroup hacc (represents_workerMap hacc _ k)
  rw [mapLookup_groupFold]
  exact hfold ids [] none rfl

/-- An item of a series in the map of a worker, or an entry of a worker in the merged map. -/
def insertEntry {β : Type} (f : Option (IncrementalAggrContext n) → β → IncrementalAggrContext n)
    (limit : ℤ) (m : AggrContextMap n) (e : Bytes × β) : AggrContextMap n :=
  if isSkipped limit m e.1 then m else groupInsert f e.1 e.2 m

/-- The series that a worker was given. -/
def seriesOf (calls : List (ℕ × Timeseries n)) (workerId : ℕ) : List (Timeseries n) :=
  (calls.filter fun call => call.1 = workerId).map snd

variable {calls : List (ℕ × Timeseries n)}

/-- The workers were given all series. -/
theorem flatMap_seriesOf_perm {ids : List ℕ} (hnodup : ids.Nodup)
    (h : ∀ call ∈ calls, call.1 ∈ ids) :
    (ids.flatMap (seriesOf calls)).Perm (calls.map snd) := by
  induction ids generalizing calls with
  | nil =>
    obtain rfl : calls = [] := eq_nil_iff_forall_not_mem.mpr fun call hcall =>
      not_mem_nil (h call hcall)
    rfl
  | cons w ids ih =>
    obtain ⟨hw, hnodup⟩ := nodup_cons.mp hnodup
    -- The workers behind `w` were given what is left of the calls.
    have hrest : ids.flatMap (seriesOf calls) =
        ids.flatMap (seriesOf (calls.filter fun call => !decide (call.1 = w))) := by
      refine flatMap_congr fun w' hw' => ?_
      rw [seriesOf, seriesOf, filter_filter]
      refine congrArg (List.map snd) (filter_congr fun call _ => ?_)
      by_cases hcall : call.1 = w'
      · have hne : call.1 ≠ w := fun heq => hw (heq ▸ hcall ▸ hw')
        simp [hcall, hcall ▸ hne]
      · simp [hcall]
    rw [flatMap_cons, hrest]
    have hids : ∀ call ∈ calls.filter fun call => !decide (call.1 = w), call.1 ∈ ids := by
      intro call hcall
      obtain ⟨hmem, hne⟩ := mem_filter.mp hcall
      exact (mem_cons.mp (h call hmem)).resolve_left (by simpa using hne)
    refine ((ih hnodup hids).append_left _).trans ?_
    rw [seriesOf, ← map_append]
    exact (filter_append_perm _ calls).map snd

variable {modifier : ModifierExpr} (hg : ∀ mn, removeGroupTags mn modifier = .ok (g mn))
  {iafc : IncrementalAggrFuncContext n}
include hg

/-- A call updates the map of its worker. -/
theorem updateTimeseries_eq (hmod : iafc.modifier = modifier)
    (hkeep : iafc.callbacks.keepOriginal = false) {workerId : ℕ} {m : AggrContextMap n}
    (hm : iafc.byWorkerId[workerId]? = some m) (ts : Timeseries n) :
    iafc.updateTimeseries ts workerId =
      .ok { iafc with
        byWorkerId := iafc.byWorkerId.set workerId
          (insertEntry (updateGroup iafc.callbacks) iafc.limit m ((g ts.metricName).groupKey,
            withGroupName g ts)) } := by
  rw [updateTimeseries, hm, Outcome.index_some, Outcome.ok_bind, hkeep, hmod, groupSeries_eq hg,
    Outcome.ok_bind, insertEntry]
  by_cases hskip : isSkipped iafc.limit m (g ts.metricName).groupKey
  · have hset : iafc.byWorkerId.set workerId m = iafc.byWorkerId := by
      obtain ⟨hlt, rfl⟩ := List.getElem?_eq_some_iff.mp hm
      exact set_getElem_self hlt
    refine (if_pos hskip).trans ?_
    rw [if_pos hskip, hset, ← hmod]
  · refine (if_neg hskip).trans ?_
    rw [if_neg hskip, ← hmod]

/-- The maps of the workers after the calls. -/
theorem exists_updateAll (hmod : iafc.modifier = modifier)
    (hkeep : iafc.callbacks.keepOriginal = false)
    (hids : ∀ call ∈ calls, call.1 < iafc.byWorkerId.length) :
    ∃ byWorkerId, iafc.updateAll calls = .ok { iafc with byWorkerId } ∧
      ∀ w, byWorkerId[w]? = iafc.byWorkerId[w]?.map fun m =>
        ((seriesOf calls w).map fun ts => ((g ts.metricName).groupKey, withGroupName g ts)).foldl
          (insertEntry (updateGroup iafc.callbacks) iafc.limit) m := by
  induction calls generalizing iafc with
  | nil => exact ⟨iafc.byWorkerId, rfl, fun w => by simp [seriesOf]⟩
  | cons call calls ih =>
    obtain ⟨m, hm⟩ : ∃ m, iafc.byWorkerId[call.1]? = some m :=
      ⟨_, getElem?_eq_getElem (hids call mem_cons_self)⟩
    let iafc' : IncrementalAggrFuncContext n := { iafc with
      byWorkerId := iafc.byWorkerId.set call.1 (insertEntry (updateGroup iafc.callbacks)
        iafc.limit m ((g call.2.metricName).groupKey, withGroupName g call.2)) }
    have hids' : ∀ call' ∈ calls, call'.1 < iafc'.byWorkerId.length := by
      intro call' hcall'
      rw [length_set]
      exact hids call' (mem_cons_of_mem _ hcall')
    obtain ⟨byWorkerId, hall, hmaps⟩ := @ih iafc' hmod hkeep hids'
    refine ⟨byWorkerId, ?_, fun w => ?_⟩
    · rw [updateAll, foldlM_cons, updateTimeseries_eq hg hmod hkeep hm, Outcome.ok_bind]
      exact hall
    · rw [hmaps w]
      by_cases hw : call.1 = w
      · subst hw
        have hlt := hids call mem_cons_self
        simp only [iafc', getElem?_set_self hlt, hm, Option.map_some, seriesOf,
          filter_cons_of_pos (p := fun c : ℕ × Timeseries n => decide (c.1 = call.1))
            (decide_eq_true rfl)]
        rfl
      · simp only [iafc', getElem?_set_ne hw, seriesOf,
          filter_cons_of_neg (p := fun c : ℕ × Timeseries n => decide (c.1 = w))
            (by simpa using hw : ¬ decide (call.1 = w) = true)]

/-- A run: the calls, and the map over the entries of all workers. -/
theorem exists_finalizeTimeseries (hkeep : callbacks.keepOriginal = false) (limit : ℤ)
    {maxWorkers : ℕ}
    (hids : ∀ call ∈ calls, call.1 < max maxWorkers 1)
    (order : ℕ → IterOrder (Bytes × IncrementalAggrContext n))
    (orderGlobal : IterOrder (Bytes × IncrementalAggrContext n)) :
    ∃ iafc', (new modifier limit callbacks maxWorkers).updateAll calls = .ok iafc' ∧
      iafc'.finalizeTimeseries order orderGlobal =
        (orderGlobal.visit (((List.range (max maxWorkers 1)).flatMap fun w => (order w).visit
          (((seriesOf calls w).map fun ts => ((g ts.metricName).groupKey, withGroupName g ts)).foldl
            (insertEntry (updateGroup callbacks) limit) [])).foldl
          (insertEntry (mergeGroup callbacks) limit) [])).map
          fun e => (callbacks.finalize e.2).ts := by
  have hids' : ∀ call ∈ calls,
      call.1 < (new modifier limit callbacks maxWorkers).byWorkerId.length := by
    simpa [new] using hids
  obtain ⟨byWorkerId, hall, hmaps⟩ := exists_updateAll hg rfl hkeep hids'
  refine ⟨_, hall, ?_⟩
  have hzip : byWorkerId.zipIdx = (List.range (max maxWorkers 1)).map fun w =>
      (((seriesOf calls w).map fun ts => ((g ts.metricName).groupKey, withGroupName g ts)).foldl
        (insertEntry (updateGroup callbacks) limit) [], w) := by
    refine ext_getElem? fun w => ?_
    rw [getElem?_zipIdx, hmaps w, getElem?_map]
    by_cases hw : w < max maxWorkers 1
    · rw [getElem?_range hw, new, getElem?_replicate_of_lt hw]
      simp
    · have hnew : (new modifier limit callbacks maxWorkers).byWorkerId.length ≤ w := by
        rw [new, length_replicate]
        exact not_lt.mp hw
      have hrange : (List.range (max maxWorkers 1)).length ≤ w := by
        rw [length_range]
        exact not_lt.mp hw
      rw [getElem?_eq_none hnew, getElem?_eq_none hrange]
      rfl
  rw [finalizeTimeseries, hzip, foldl_map, foldl_flatMap]
  rfl

/-- The results of a run without a limit: one for every group of the series. -/
theorem isGrouped_finalizeTimeseries {f : AggrFunc}
    (hacc : Accumulates callbacks acc f.result) {limit : ℤ}
    (hlimit : limit ≤ 0) {maxWorkers : ℕ} (hids : ∀ call ∈ calls, call.1 < max maxWorkers 1)
    (order : ℕ → IterOrder (Bytes × IncrementalAggrContext n))
    (orderGlobal : IterOrder (Bytes × IncrementalAggrContext n)) (hf : f ≠ .any) :
    ∃ iafc', (new modifier limit callbacks maxWorkers).updateAll calls = .ok iafc' ∧
      IsGrouped g f (calls.map snd) (iafc'.finalizeTimeseries order orderGlobal) := by
  obtain ⟨iafc', hall, hfinal⟩ :=
    exists_finalizeTimeseries hg hacc.keepOriginal_eq limit hids order orderGlobal
  refine ⟨iafc', hall, ?_⟩
  set ids := List.range (max maxWorkers 1)
  have hinsert : ∀ {β : Type} (f : Option (IncrementalAggrContext n) → β →
      IncrementalAggrContext n),
      insertEntry f limit = fun m e => groupInsert f e.1 e.2 m := fun f =>
    funext fun m => funext fun e => if_neg fun h => absurd h.2.1 (not_lt.mpr hlimit)
  -- The merged map is the fold over the entries of all workers.
  set m := groupFold (IncrementalAggrFuncContext.mergeGroup callbacks) []
    (ids.flatMap fun w => (order w).visit (workerMap g callbacks (seriesOf calls w))) with hm
  have hresult : iafc'.finalizeTimeseries order orderGlobal =
      (orderGlobal.visit m).flatMap fun e => [(callbacks.finalize e.2).ts] := by
    rw [hfinal, hinsert, hinsert, map_eq_flatMap]
    rfl
  have hperm : (ids.flatMap (seriesOf calls)).Perm (calls.map snd) :=
    flatMap_seriesOf_perm nodup_range fun call hcall => mem_range.mpr (hids call hcall)
  have hrep : ∀ k, Represents g acc (mapLookup k m)
      (groupOf g (ids.flatMap (seriesOf calls)) k) := by
    intro k
    rw [groupOf, filter_flatMap]
    exact represents_merge hacc order (seriesOf calls) ids k
  have hnodup : (mapKeys m).Nodup := nodup_mapKeys_groupFold _ _ nodup_nil
  rw [hresult]
  refine isGrouped_of_entries (((orderGlobal.perm m).map fst).nodup_iff.mpr hnodup) ?_ ?_
  · rintro ⟨k, iac⟩ he
    have hlookup := (mem_iff_mapLookup_eq hnodup).mp ((orderGlobal.perm m).mem_iff.mp he)
    have hk := hrep k
    rw [hlookup] at hk
    obtain ⟨hholds, ts₀, hts₀, hname⟩ := hk
    obtain ⟨hts₀, hkey⟩ := mem_groupOf.mp hts₀
    have hname' := (hacc.finalize_name iac).trans hname
    refine ⟨_, rfl, ?_, ⟨ts₀, hperm.mem_iff.mp hts₀, hname'⟩, ?_⟩
    · rw [hname', MetricName.groupKey_sortMetricTags, hkey]
    · rw [hacc.finalize hholds]
      refine congrArg Vector.ofFn (funext fun i => ?_)
      exact f.result_perm hf (valuesAt_perm (groupOf_perm hperm k) i)
  · intro ts₀ hts₀
    have hk := hrep (g ts₀.metricName).groupKey
    have hmem : ts₀ ∈ groupOf g (ids.flatMap (seriesOf calls)) (g ts₀.metricName).groupKey :=
      mem_groupOf.mpr ⟨hperm.mem_iff.mpr hts₀, rfl⟩
    have hkeys : (g ts₀.metricName).groupKey ∈ mapKeys m := by
      cases hlookup : mapLookup (g ts₀.metricName).groupKey m with
      | none =>
        rw [hlookup] at hk
        exact absurd hk (ne_nil_of_mem hmem)
      | some iac => exact mem_map_of_mem ((mem_iff_mapLookup_eq hnodup).mpr hlookup)
    exact ((orderGlobal.perm m).map fst).mem_iff.mpr hkeys

end Run

end IncrementalAggrFuncContext

/-- **Incremental aggregation.** However the series are distributed over the workers, and in
whatever order the workers take them and the maps are visited: the groups that are not NaN
everywhere are those of the aggregate function over all series, with the same values. They also have
the same names if the names fit the lengths in the group keys. -/
theorem finalizeTimeseries_eq_call [NeZero n] (f : AggrFunc) (hf : f ≠ .any)
    (modifier : ModifierExpr) (hmod : modifier.IsGroupModifier) (limit : ℤ) (hlimit : limit ≤ 0)
    (maxWorkers : ℕ) (tss : List (Timeseries n)) (calls : List (ℕ × Timeseries n))
    (hperm : (calls.map snd).Perm tss) (hids : ∀ call ∈ calls, call.1 < max maxWorkers 1)
    (order : ℕ → IterOrder (Bytes × IncrementalAggrContext n))
    (orderGlobal : IterOrder (Bytes × IncrementalAggrContext n))
    (iter : IterOrder (Bytes × List (Timeseries n))) :
    ∃ iafc r, (IncrementalAggrFuncContext.new modifier limit (getIncrementalAggrFuncCallbacks f)
        maxWorkers).updateAll calls = .ok iafc ∧
      f.call iter [tss] modifier limit = .ok r ∧
      (((iafc.finalizeTimeseries order orderGlobal).filter Timeseries.nonEmpty).map groupView).Perm
        (r.map groupView) ∧
      ((∀ ts ∈ tss, ∀ mn, removeGroupTags ts.metricName modifier = .ok mn → mn.Fits) →
        ((iafc.finalizeTimeseries order orderGlobal).filter Timeseries.nonEmpty).Perm r) := by
  choose g hg using exists_removeGroupTags hmod
  obtain ⟨acc, hacc⟩ := AggrFunc.exists_accumulates (n := n) hf
  obtain ⟨iafc, hall, hinc⟩ := IncrementalAggrFuncContext.isGrouped_finalizeTimeseries
    hg hacc hlimit hids order orderGlobal hf
  obtain ⟨r, hcall, hplain⟩ := exists_aggrFuncExt hg hf iter tss
  have hcall' : f.call iter [tss] modifier limit = .ok r := by
    have hnew : f.call iter [tss] modifier limit = newAggrFunc iter f.afe [tss] modifier limit := by
      cases f with
      | any => exact absurd rfl hf
      | _ => rfl
    rw [hnew, newAggrFunc, getAggrTimeseries, Outcome.ok_bind, flatten_singleton,
      Int.toNat_of_nonpos hlimit, hcall]
    exact cons_ne_nil _ _
  refine ⟨iafc, r, hall, hcall', hinc.perm_view hf hplain hperm, fun hfits => ?_⟩
  exact hinc.perm_of_fits hf hplain hperm fun ts hts => hfits ts hts _ (hg _)

/-- Three series of two groups, and the workers that take them. -/
def sumCalls : List (ℕ × Timeseries 2) :=
  [(1, ⟨⟨ascii "m", [⟨ascii "job", ascii "a"⟩]⟩, #v[some 1, none]⟩),
    (0, ⟨⟨ascii "m", [⟨ascii "job", ascii "b"⟩]⟩, #v[some 5, some 6]⟩),
    (0, ⟨⟨ascii "m", [⟨ascii "x", []⟩, ⟨ascii "job", ascii "a"⟩]⟩, #v[some 2, some 3]⟩)]

/-- Two workers sum the series by their jobs. -/
theorem finalizeTimeseries_eq_call_sum :
    ∃ iafc r, (IncrementalAggrFuncContext.new ⟨ascii "By", [ascii "job"]⟩ 0
        (getIncrementalAggrFuncCallbacks .sum) 2).updateAll sumCalls = .ok iafc ∧
      AggrFunc.sum.call ⟨id, fun _ => .refl _⟩ [sumCalls.map snd]
        ⟨ascii "By", [ascii "job"]⟩ 0 = .ok r ∧
      (((iafc.finalizeTimeseries (fun _ => ⟨id, fun _ => .refl _⟩) ⟨id, fun _ => .refl _⟩).filter
        Timeseries.nonEmpty).map groupView).Perm (r.map groupView) := by
  obtain ⟨iafc, r, hall, hcall, hview, -⟩ := finalizeTimeseries_eq_call .sum (by decide)
    ⟨ascii "By", [ascii "job"]⟩ (by decide) 0 le_rfl 2 (sumCalls.map snd) sumCalls
    (Perm.refl _) (by decide) (fun _ => ⟨id, fun _ => .refl _⟩) ⟨id, fun _ => .refl _⟩
    ⟨id, fun _ => .refl _⟩
  exact ⟨iafc, r, hall, hcall, hview⟩

end Esmetrics
