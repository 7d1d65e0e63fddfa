import Esmetrics.Lib.GroupFold
import Esmetrics.Promql.Timeseries

/-!
# Aggregate functions

Model of `esm-promql/src/aggr.rs` for the functions that have an incremental form. The series of a
group are reduced point by point into the first of them. Where a point has no value the result is
NaN, and each function takes the values of a point in any order (`Reduces`).
-/

namespace Esmetrics

open List hiding Vector

variable {n : ℕ}

/-! ### Reducers -/

/-- Replaces the values of the first series by what `f` makes of the values of a point. -/
def reducePoints (f : List Val → Val) (tss : List (Timeseries n)) : List (Timeseries n) :=
  match tss with
  | [] => []
  | ts :: tss =>
    { ts with values := Vector.ofFn fun i => f ((ts :: tss).map fun ts => ts.values.get i) } :: tss

/-- A sum of values, and their number; NaN values are skipped. -/
def sumPoint (f : ℚ → ℚ) (vs : List Val) : ℚ × ℕ :=
  vs.foldl
    (fun acc v =>
      match v with
      | none => acc
      | some v => (acc.1 + f v, acc.2 + 1)) (0, 0)

def aggrFuncGroup (tss : List (Timeseries n)) : List (Timeseries n) :=
  reducePoints (fun vs => vs.foldl (fun acc v => if v.isNone then acc else some 1) none) tss

def aggrFuncSum (tss : List (Timeseries n)) : List (Timeseries n) :=
  -- One series is its own sum.
  if tss.length = 1 then tss
  else
    reducePoints
      (fun vs =>
        let (sum, count) := sumPoint (fun v => v) vs
        if count = 0 then none else some sum) tss

def aggrFuncSum2 (tss : List (Timeseries n)) : List (Timeseries n) :=
  reducePoints
    (fun vs =>
      let (sum2, count) := sumPoint (fun v => v * v) vs
      if count = 0 then none else some sum2) tss

def aggrFuncMin (tss : List (Timeseries n)) : List (Timeseries n) :=
  if tss.length = 1 then tss
  else
    reducePoints
      (fun vs => vs.foldl (fun minV v => if minV.isNone || v.lt minV then v else minV)
        (vs.head?.getD none)) tss

def aggrFuncMax (tss : List (Timeseries n)) : List (Timeseries n) :=
  if tss.length = 1 then tss
  else
    reducePoints
      (fun vs => vs.foldl (fun maxV v => if maxV.isNone || maxV.lt v then v else maxV)
        (vs.head?.getD none)) tss

def aggrFuncAvg (tss : List (Timeseries n)) : List (Timeseries n) :=
  if tss.length = 1 then tss
  else
    reducePoints
      (fun vs =>
        let (sum, count) := sumPoint (fun v => v) vs
        if count > 0 then some (sum / count) else none) tss

def aggrFuncCount (tss : List (Timeseries n)) : List (Timeseries n) :=
  reducePoints
    (fun vs =>
      let count := vs.foldl (fun count v => if v.isNone then count else count + 1) 0
      if count = 0 then none else some (count : ℕ)) tss

/-! ### Groups -/

/-- The key of the group of a series, and the series as it is kept: with the name of the group, or
with its own name if `keepOriginal` is set. -/
def groupSeries (modifier : ModifierExpr) (keepOriginal : Bool) (ts : Timeseries n) :
    Outcome (Bytes × Timeseries n) := do
  let mn ← removeGroupTags ts.metricName modifier
  let (key, mn) := metricNameGroupKey mn
  .ok (key, if keepOriginal then ts else { ts with metricName := mn })

/-- Adds a series to its group; a new group is skipped if there are `maxSeries` ones already. -/
def aggrPrepareOne (modifier : ModifierExpr) (maxSeries : ℕ) (keepOriginal : Bool)
    (m : List (Bytes × List (Timeseries n))) (ts : Timeseries n) :
    Outcome (List (Bytes × List (Timeseries n))) := do
  let (key, ts) ← groupSeries modifier keepOriginal ts
  if key ∉ mapKeys m ∧ maxSeries > 0 ∧ m.length ≥ maxSeries then .ok m
  else .ok (groupInsert (fun tssl ts => tssl.getD [] ++ [ts]) key ts m)

/-- The groups of the series that are not empty. -/
def aggrPrepareSeries (argOrig : List (Timeseries n)) (modifier : ModifierExpr) (maxSeries : ℕ)
    (keepOriginal : Bool) : Outcome (List (Bytes × List (Timeseries n))) :=
  (removeEmptySeries argOrig).foldlM (aggrPrepareOne modifier maxSeries keepOriginal) []

/-- Reduces every group; `iter` is the order in which the entries of a hash map are visited. -/
def aggrFuncExt (iter : IterOrder (Bytes × List (Timeseries n)))
    (afe : List (Timeseries n) → List (Timeseries n)) (argOrig : List (Timeseries n))
    (modifier : ModifierExpr) (maxSeries : ℕ) (keepOriginal : Bool) :
    Outcome (List (Timeseries n)) := do
  let m ← aggrPrepareSeries argOrig modifier maxSeries keepOriginal
  .ok ((iter.visit m).flatMap fun e => (afe e.2).take 1)

/-- All arguments of an aggregate function in one list. -/
def getAggrTimeseries (args : List (List (Timeseries n))) : Outcome (List (Timeseries n)) :=
  match args with
  | [] => .err "expecting at least one arg"
  | args => .ok args.flatten

/-- An aggregate function from its reducer. -/
def newAggrFunc (iter : IterOrder (Bytes × List (Timeseries n)))
    (afe : List (Timeseries n) → List (Timeseries n)) (args : List (List (Timeseries n)))
    (modifier : ModifierExpr) (limit : ℤ) : Outcome (List (Timeseries n)) := do
  let tss ← getAggrTimeseries args
  aggrFuncExt iter afe tss modifier limit.toNat false

/-- The aggregate functions that have an incremental form and an exact result, and `any`. -/
inductive AggrFunc where
  | any | avg | count | group | max | min | sum | sum2
deriving DecidableEq, Repr

/-- The reducer of a function. -/
def AggrFunc.afe : AggrFunc → List (Timeseries n) → List (Timeseries n)
  | any => List.take 1
  | avg => aggrFuncAvg
  | count => aggrFuncCount
  | group => aggrFuncGroup
  | max => aggrFuncMax
  | min => aggrFuncMin
  | sum => aggrFuncSum
  | sum2 => aggrFuncSum2

/-- Takes one series per group, with its own name. -/
def aggrFuncAny (iter : IterOrder (Bytes × List (Timeseries n))) (args : List (List (Timeseries n)))
    (modifier : ModifierExpr) (limit : ℤ) : Outcome (List (Timeseries n)) := do
  let tss ← getAggrTimeseries args
  aggrFuncExt iter AggrFunc.any.afe tss modifier (Max.max 0 (Min.min limit 1)).toNat true

/-- An aggregate function. -/
def AggrFunc.call (f : AggrFunc) (iter : IterOrder (Bytes × List (Timeseries n)))
    (args : List (List (Timeseries n))) (modifier : ModifierExpr) (limit : ℤ) :
    Outcome (List (Timeseries n)) :=
  match f with
  | any => aggrFuncAny iter args modifier limit
  | f => newAggrFunc iter f.afe args modifier limit

/-! ### What the reducers compute -/

/-- The values at a point that are not NaN. -/
def valuesAt (tss : List (Timeseries n)) (i : Fin n) : List ℚ := tss.filterMap fun ts =>
  ts.values.get i

/-- The values under an operation, if there are any. -/
def reduceBy (op : ℚ → ℚ → ℚ) : List ℚ → Val
  | [] => none
  | v :: vs => some (vs.foldl op v)

/-- The result at a point with the given values. -/
def AggrFunc.result : AggrFunc → List ℚ → Val
  | any, vs => vs.head?
  | avg, vs => if vs = [] then none else some (vs.sum / vs.length)
  | count, vs => if vs = [] then none else some vs.length
  | group, vs => if vs = [] then none else some 1
  | max, vs => reduceBy Max.max vs
  | min, vs => reduceBy Min.min vs
  | sum, vs => reduceBy (· + ·) vs
  | sum2, vs => reduceBy (· + ·) (vs.map fun v => v * v)

section ReduceBy

variable {op : ℚ → ℚ → ℚ}

@[simp]
theorem reduceBy_eq_none_iff {vs : List ℚ} : reduceBy op vs = none ↔ vs = [] := by
  cases vs with
  | nil => simp [reduceBy]
  | cons v vs => simp [reduceBy]

theorem reduceBy_concat (vs : List ℚ) (v : ℚ) :
    reduceBy op (vs ++ [v]) = some (((reduceBy op vs).map (op · v)).getD v) := by
  cases vs with
  | nil => rfl
  | cons w vs => simp [reduceBy, foldl_append]

theorem reduceBy_cons [Std.Associative op] (v : ℚ) (vs : List ℚ) :
    reduceBy op (v :: vs) = some (((reduceBy op vs).map (op v)).getD v) := by
  cases vs with
  | nil => rfl
  | cons w vs => simp [reduceBy, foldl_assoc]

theorem reduceBy_append [Std.Associative op] (vs ws : List ℚ) :
    reduceBy op (vs ++ ws) =
      match reduceBy op vs, reduceBy op ws with
      | none, r => r
      | r, none => r
      | some a, some b => some (op a b) := by
  cases vs with
  | nil => rfl
  | cons v vs =>
    cases ws with
    | nil => simp [reduceBy]
    | cons w ws => simp [reduceBy, foldl_append, foldl_assoc]

theorem reduceBy_perm [Std.Associative op] [Std.Commutative op] {vs ws : List ℚ} (h : vs.Perm ws) :
    reduceBy op vs = reduceBy op ws := by
  induction h with
  | nil => rfl
  | cons v _ ih => rw [reduceBy_cons, reduceBy_cons, ih]
  | swap v w vs =>
    rw [reduceBy_cons, reduceBy_cons, reduceBy_cons, reduceBy_cons]
    cases reduceBy op vs with
    | none => exact congrArg some (Std.Commutative.comm w v : op w v = op v w)
    | some a =>
      simp only [Option.map_some, Option.getD_some, Option.some.injEq]
      calc op w (op v a) = op (op w v) a := (Std.Associative.assoc w v a).symm
        _ = op (op v w) a := by rw [(Std.Commutative.comm w v : op w v = op v w)]
        _ = op v (op w a) := Std.Associative.assoc v w a
  | trans _ _ ih₁ ih₂ => exact ih₁.trans ih₂

end ReduceBy

/-- A result does not depend on the order of the values. -/
theorem AggrFunc.result_perm {f : AggrFunc} (hf : f ≠ .any) {vs ws : List ℚ} (h : vs.Perm ws) :
    f.result vs = f.result ws := by
  have hnil : vs = [] ↔ ws = [] := by
    rw [← length_eq_zero_iff, h.length_eq, length_eq_zero_iff]
  cases f with
  | any => exact absurd rfl hf
  | avg => simp only [result, hnil, h.sum_eq, h.length_eq]
  | count => simp only [result, hnil, h.length_eq]
  | group => simp only [result, hnil]
  | max => exact reduceBy_perm h
  | min => exact reduceBy_perm h
  | sum => exact reduceBy_perm h
  | sum2 => exact reduceBy_perm (h.map _)

/-- A result is NaN only where there are no values. -/
theorem AggrFunc.result_eq_none_iff {f : AggrFunc} {vs : List ℚ} : f.result vs = none ↔
    vs = [] := by
  cases f with
  | any => simp [result]
  | avg => simp [result]
  | count => simp [result]
  | group => simp [result]
  | max => simp [result]
  | min => simp [result]
  | sum => simp [result]
  | sum2 => simp [result]

section Reducers

/-- The sum of the values of a point, and their number. -/
theorem sumPoint_eq (f : ℚ → ℚ) (vs : List Val) :
    sumPoint f vs = ((vs.reduceOption.map f).sum, vs.reduceOption.length) := by
  have hfold : ∀ (vs : List Val) (acc : ℚ × ℕ),
      vs.foldl
        (fun acc v =>
          match v with
          | none => acc
          | some v => (acc.1 + f v, acc.2 + 1)) acc =
        (acc.1 + (vs.reduceOption.map f).sum, acc.2 + vs.reduceOption.length) := by
    intro vs
    induction vs with
    | nil => simp [List.reduceOption]
    | cons v vs ih =>
      intro acc
      cases v with
      | none => rw [foldl_cons, reduceOption_cons_of_none, ih]
      | some v =>
        rw [foldl_cons, reduceOption_cons_of_some, ih, map_cons, sum_cons,
          length_cons]
        simp only [Prod.mk.injEq]
        exact ⟨add_assoc _ _ _, by omega⟩
  rw [sumPoint, hfold, zero_add, Nat.zero_add]

theorem reduceBy_add_eq (vs : List ℚ) :
    reduceBy (· + ·) vs = if vs = [] then none else some vs.sum := by
  induction vs with
  | nil => rfl
  | cons v vs ih =>
    rw [reduceBy_cons, ih, if_neg (cons_ne_nil v vs)]
    split_ifs with h
    · rw [h]
      simp
    · simp

theorem foldl_count_eq (vs : List Val) :
    vs.foldl (fun count v => if v.isNone then count else count + 1) 0 = vs.reduceOption.length := by
  have hfold : ∀ (vs : List Val) (count : ℕ),
      vs.foldl (fun count v => if v.isNone then count else count + 1) count =
        count + vs.reduceOption.length := by
    intro vs
    induction vs with
    | nil => intro count; rfl
    | cons v vs ih =>
      intro count
      cases v with
      | none => simpa using ih count
      | some v =>
        rw [foldl_cons, reduceOption_cons_of_some, length_cons, ih]
        simp only [Option.isNone_some, Bool.false_eq_true, if_false]
        exact Nat.succ_add_eq_add_succ count _
  rw [hfold, Nat.zero_add]

theorem foldl_group_eq (vs : List Val) :
    vs.foldl (fun acc v => if v.isNone then acc else some 1) none =
      AggrFunc.group.result vs.reduceOption := by
  have hone : ∀ vs : List Val,
      vs.foldl (fun acc v => if v.isNone then acc else some 1) (some (1 : ℚ)) = some 1 := by
    intro vs
    induction vs with
    | nil => rfl
    | cons v vs ih => rw [foldl_cons, ite_self, ih]
  induction vs with
  | nil => rfl
  | cons v vs ih =>
    cases v with
    | none => simpa using ih
    | some v =>
      rw [foldl_cons, reduceOption_cons_of_some, AggrFunc.result,
        if_neg (cons_ne_nil _ _)]
      exact hone vs

/-- A fold that keeps the better of the values at a point, from the first one on. -/
theorem foldl_pick_eq {op : ℚ → ℚ → ℚ} (better : Val → Val → Bool) [Std.IdempotentOp op]
    (hbetter : ∀ a b, (if better (some b) (some a) then b else a) = op a b)
    (hnone : ∀ a, better none a = false) (vs : List Val) :
    vs.foldl (fun best v => if best.isNone || better v best then v else best) (vs.head?.getD none) =
      reduceBy op vs.reduceOption := by
  have hstep : ∀ (vs : List Val) (a : ℚ),
      vs.foldl (fun best v => if best.isNone || better v best then v else best) (some a) =
        some (vs.reduceOption.foldl op a) := by
    intro vs
    induction vs with
    | nil => intro a; rfl
    | cons v vs ih =>
      intro a
      cases v with
      | none =>
        rw [foldl_cons, reduceOption_cons_of_none]
        simp only [Option.isNone_some, hnone, Bool.or_self, Bool.false_eq_true, if_false]
        exact ih a
      | some v =>
        rw [foldl_cons, reduceOption_cons_of_some, foldl_cons, ← hbetter a v, ← ih]
        simp only [Option.isNone_some, Bool.false_or]
        split_ifs <;> rfl
  cases vs with
  | nil => rfl
  | cons v vs =>
    cases v with
    | none =>
      -- A NaN at the front gives way to whatever comes next.
      induction vs with
      | nil => rfl
      | cons w vs ih =>
        cases w with
        | none => simpa using ih
        | some w =>
          simp only [head?_cons, Option.getD_some, foldl_cons, Option.isNone_none,
            Bool.true_or, if_true, reduceOption_cons_of_none, reduceOption_cons_of_some]
          exact hstep vs w
    | some v =>
      rw [head?_cons, Option.getD_some, hstep, reduceOption_cons_of_some, foldl_cons,
        (Std.IdempotentOp.idempotent v : op v v = v)]
      rfl

/-- A reducer that makes `result` of the values of a point. -/
theorem take_reducePoints {f : List Val → Val} (result : List ℚ → Val)
    (hf : ∀ vs, f vs = result vs.reduceOption) (ts : Timeseries n) (tss : List (Timeseries n)) :
    (reducePoints f (ts :: tss)).take 1 =
      [{ ts with values := Vector.ofFn fun i => result (valuesAt (ts :: tss) i) }] := by
  have hvalues : ∀ i : Fin n, ((ts :: tss).map fun ts => ts.values.get i).reduceOption =
      valuesAt (ts :: tss) i := by
    intro i
    rw [List.reduceOption, filterMap_map]
    rfl
  rw [reducePoints, take_succ_cons, take_zero]
  simp only [hf, hvalues]

/-- A single series is its own result. -/
theorem ofFn_result_singleton {result : List ℚ → Val} (hnone : result [] = none)
    (hsome : ∀ v, result [v] = some v) (ts : Timeseries n) :
    { ts with values := Vector.ofFn fun i => result (valuesAt [ts] i) } = ts := by
  have hvalues : (Vector.ofFn fun i : Fin n => result (valuesAt [ts] i)) = ts.values := by
    refine Vector.ext fun i hi => ?_
    rw [Vector.getElem_ofFn, valuesAt]
    change result ([ts].filterMap fun ts => ts.values.get ⟨i, hi⟩) = ts.values.get ⟨i, hi⟩
    cases h : ts.values.get ⟨i, hi⟩ with
    | none => simp [h, hnone]
    | some v => simp [h, hsome]
  rw [hvalues]

/-- A reducer that leaves a single series as it is. -/
theorem take_ite_reducePoints {f : List Val → Val} (result : List ℚ → Val)
    (hf : ∀ vs, f vs = result vs.reduceOption) (hnone : result [] = none)
    (hsome : ∀ v, result [v] = some v) (ts : Timeseries n) (tss : List (Timeseries n)) :
    (if (ts :: tss).length = 1 then ts :: tss else reducePoints f (ts :: tss)).take 1 =
      [{ ts with values := Vector.ofFn fun i => result (valuesAt (ts :: tss) i) }] := by
  split_ifs with hlen
  · obtain rfl : tss = [] := by simpa using hlen
    rw [ofFn_result_singleton hnone hsome]
    rfl
  · exact take_reducePoints result hf ts tss

/-- What a function makes of a group. -/
theorem AggrFunc.take_afe {f : AggrFunc} (hf : f ≠ .any) (ts : Timeseries n)
    (tss : List (Timeseries n)) : (f.afe (ts :: tss)).take 1 =
      [{ ts with values := Vector.ofFn fun i => f.result (valuesAt (ts :: tss) i) }] := by
  have hlen : ∀ vs : List Val, vs.reduceOption.length = 0 ↔ vs.reduceOption = [] := fun vs =>
    length_eq_zero_iff
  cases f with
  | any => exact absurd rfl hf
  | avg =>
    refine take_ite_reducePoints avg.result (fun vs => ?_) rfl (fun v => by simp [result]) ts tss
    simp only [sumPoint_eq, result, map_id_fun', id, gt_iff_lt, Nat.pos_iff_ne_zero, ne_eq,
      hlen, ite_not]
  | count =>
    change (aggrFuncCount (ts :: tss)).take 1 = _
    rw [aggrFuncCount]
    refine take_reducePoints count.result (fun vs => ?_) ts tss
    simp only [foldl_count_eq, result, hlen]
  | group => exact take_reducePoints group.result foldl_group_eq ts tss
  | max =>
    refine take_ite_reducePoints max.result (fun vs => ?_) rfl (fun v => rfl) ts tss
    refine foldl_pick_eq (fun v best => best.lt v) (fun a b => ?_) (fun a => ?_) vs
    · simp [Val.lt, max_def_lt]
    · cases a <;> rfl
  | min =>
    refine take_ite_reducePoints min.result (fun vs => ?_) rfl (fun v => rfl) ts tss
    refine foldl_pick_eq Val.lt (fun a b => ?_) (fun a => rfl) vs
    rw [min_comm]
    simp [Val.lt, min_def_lt]
  | sum =>
    refine take_ite_reducePoints sum.result (fun vs => ?_) rfl (fun v => rfl) ts tss
    simp only [sumPoint_eq, result, map_id_fun', id, hlen, reduceBy_add_eq]
  | sum2 =>
    change (aggrFuncSum2 (ts :: tss)).take 1 = _
    rw [aggrFuncSum2]
    refine take_reducePoints sum2.result (fun vs => ?_) ts tss
    simp only [sumPoint_eq, result, hlen, reduceBy_add_eq, map_eq_nil_iff]

end Reducers

/-! ### Grouped results -/

section Grouped

variable (g : MetricName → MetricName)

/-- The series of a group, where `g` is the name of the group of a name. -/
def groupOf (tss : List (Timeseries n)) (k : Bytes) : List (Timeseries n) :=
  tss.filter fun ts => (g ts.metricName).groupKey = k

/-- The series has the name of its group. -/
def withGroupName (ts : Timeseries n) : Timeseries n :=
  { ts with metricName := (g ts.metricName).sortMetricTags }

/-- `r` holds one series for every group of `tss`, with the results of `f`. -/
structure IsGrouped (f : AggrFunc) (tss r : List (Timeseries n)) : Prop where
  nodup : (r.map fun ts => ts.metricName.groupKey).Nodup
  sound : ∀ ts ∈ r, (∃ ts₀ ∈ tss, ts.metricName = (g ts₀.metricName).sortMetricTags) ∧
    ts.values = Vector.ofFn fun i => f.result (valuesAt (groupOf g tss ts.metricName.groupKey) i)
  complete : ∀ ts₀ ∈ tss, ∃ ts ∈ r, ts.metricName.groupKey = (g ts₀.metricName).groupKey

variable {g}

theorem Timeseries.nonEmpty_iff {ts : Timeseries n} :
    ts.nonEmpty = true ↔ ∃ (i : Fin n) (v : ℚ), ts.values.get i = some v := by
  rw [nonEmpty, Vector.any_eq_true]
  constructor
  · rintro ⟨i, hi, hv⟩
    obtain ⟨v, hv⟩ := Option.isSome_iff_exists.mp hv
    exact ⟨⟨i, hi⟩, v, hv⟩
  · rintro ⟨i, v, hv⟩
    exact ⟨i, i.isLt, Option.isSome_iff_exists.mpr ⟨v, hv⟩⟩

/-- A series without values contributes nothing. -/
theorem valuesAt_removeEmptySeries (tss : List (Timeseries n)) (k : Bytes) (i : Fin n) :
    valuesAt (groupOf g (removeEmptySeries tss) k) i = valuesAt (groupOf g tss k) i := by
  rw [groupOf, removeEmptySeries, filter_comm, ← groupOf, valuesAt, filterMap_filter]
  refine filterMap_congr fun ts _ => ?_
  split_ifs with hts
  · rfl
  · refine (Option.eq_none_iff_forall_ne_some.mpr fun v hv => hts ?_).symm
    exact Timeseries.nonEmpty_iff.mpr ⟨i, v, hv⟩

theorem groupOf_perm {tss tss' : List (Timeseries n)} (h : tss.Perm tss') (k : Bytes) :
    (groupOf g tss k).Perm (groupOf g tss' k) :=
  h.filter _

theorem valuesAt_perm {tss tss' : List (Timeseries n)} (h : tss.Perm tss') (i : Fin n) :
    (valuesAt tss i).Perm (valuesAt tss' i) :=
  h.filterMap _

theorem mem_groupOf {tss : List (Timeseries n)} {k : Bytes} {ts : Timeseries n} :
    ts ∈ groupOf g tss k ↔ ts ∈ tss ∧ (g ts.metricName).groupKey = k := by
  rw [groupOf, mem_filter, decide_eq_true_iff]

/-- The results of a group from all series, and from those that are not empty. -/
theorem result_groupOf_eq {f : AggrFunc} (hf : f ≠ .any) {tss tss' : List (Timeseries n)}
    (hperm : tss'.Perm tss) (k : Bytes) :
    (Vector.ofFn fun i : Fin n => f.result (valuesAt (groupOf g tss' k) i)) =
      Vector.ofFn fun i => f.result (valuesAt (groupOf g (removeEmptySeries tss) k) i) := by
  refine congrArg Vector.ofFn (funext fun i => ?_)
  rw [valuesAt_removeEmptySeries]
  exact f.result_perm hf (valuesAt_perm (groupOf_perm hperm k) i)

section Compare

variable {f : AggrFunc} {tss tss' r r' : List (Timeseries n)}

/-- A group with a value has a series with a value. -/
theorem IsGrouped.exists_of_nonEmpty (h : IsGrouped g f tss' r) (hperm : tss'.Perm tss)
    {ts : Timeseries n} (hts : ts ∈ r) (hne : ts.nonEmpty = true) :
    ∃ ts₀ ∈ removeEmptySeries tss, (g ts₀.metricName).groupKey = ts.metricName.groupKey := by
  obtain ⟨i, v, hv⟩ := Timeseries.nonEmpty_iff.mp hne
  rw [(h.sound ts hts).2, Vector.get_eq_getElem, Vector.getElem_ofFn] at hv
  have hvalues : valuesAt (groupOf g tss' ts.metricName.groupKey) i ≠ [] := by
    intro hnil
    rw [Fin.eta, AggrFunc.result_eq_none_iff.mpr hnil] at hv
    cases hv
  obtain ⟨w, hw⟩ := exists_mem_of_ne_nil _ hvalues
  obtain ⟨ts₀, hmem, hvalue⟩ := mem_filterMap.mp hw
  obtain ⟨hmem, hkey⟩ := mem_groupOf.mp hmem
  exact ⟨ts₀, mem_filter.mpr ⟨hperm.mem_iff.mp hmem, Timeseries.nonEmpty_iff.mpr ⟨i, w, hvalue⟩⟩,
    hkey⟩

/-- The groups of the series that are not empty have a value. -/
theorem IsGrouped.nonEmpty (h : IsGrouped g f (removeEmptySeries tss) r) {ts : Timeseries n}
    (hts : ts ∈ r) : ts.nonEmpty = true := by
  obtain ⟨⟨ts₀, hts₀, hname⟩, hvalues⟩ := h.sound ts hts
  obtain ⟨i, v, hv⟩ := Timeseries.nonEmpty_iff.mp (mem_filter.mp hts₀).2
  rw [Timeseries.nonEmpty_iff]
  have hmem : v ∈ valuesAt (groupOf g (removeEmptySeries tss) ts.metricName.groupKey) i := by
    refine mem_filterMap.mpr ⟨ts₀, mem_groupOf.mpr ⟨hts₀, ?_⟩, hv⟩
    rw [hname, MetricName.groupKey_sortMetricTags]
  have hsome : f.result (valuesAt (groupOf g (removeEmptySeries tss) ts.metricName.groupKey) i) ≠
      none := fun hnone => ne_nil_of_mem hmem (AggrFunc.result_eq_none_iff.mp hnone)
  obtain ⟨w, hw⟩ := Option.ne_none_iff_exists'.mp hsome
  refine ⟨i, w, ?_⟩
  rw [hvalues, Vector.get_eq_getElem, Vector.getElem_ofFn]
  exact hw

/-- What is compared of two results: the group keys and the values. -/
def groupView (ts : Timeseries n) : Bytes × Vector Val n := (ts.metricName.groupKey, ts.values)

/-- The groups of all series that have a value are the groups of the series that are not empty. -/
theorem IsGrouped.view_mem_iff (hf : f ≠ .any) (h : IsGrouped g f tss' r)
    (h' : IsGrouped g f (removeEmptySeries tss) r') (hperm : tss'.Perm tss)
    {e : Bytes × Vector Val n} :
    e ∈ (r.filter Timeseries.nonEmpty).map groupView ↔ e ∈ r'.map groupView := by
  simp only [mem_map, mem_filter]
  constructor
  · rintro ⟨ts, ⟨hts, hne⟩, rfl⟩
    obtain ⟨ts₀, hts₀, hkey⟩ := h.exists_of_nonEmpty hperm hts hne
    obtain ⟨ts', hts', hkey'⟩ := h'.complete ts₀ hts₀
    refine ⟨ts', hts', ?_⟩
    rw [groupView, groupView, (h'.sound ts' hts').2, (h.sound ts hts).2, hkey', hkey,
      result_groupOf_eq hf hperm]
  · rintro ⟨ts', hts', rfl⟩
    obtain ⟨⟨ts₀, hts₀, hname⟩, hvalues⟩ := h'.sound ts' hts'
    obtain ⟨ts, hts, hkey⟩ := h.complete ts₀ (hperm.mem_iff.mpr (mem_filter.mp hts₀).1)
    rw [← MetricName.groupKey_sortMetricTags (g ts₀.metricName), ← hname] at hkey
    have hsame : ts.values = ts'.values := by
      rw [(h.sound ts hts).2, hvalues, hkey, result_groupOf_eq hf hperm]
    refine ⟨ts, ⟨hts, ?_⟩, ?_⟩
    · have hne := h'.nonEmpty hts'
      rw [Timeseries.nonEmpty, ← hsame] at hne
      exact hne
    · rw [groupView, groupView, hkey, hsame]

theorem IsGrouped.nodup_view (h : IsGrouped g f tss r) : (r.map groupView).Nodup := by
  have hnodup := h.nodup
  rw [show (fun ts : Timeseries n => ts.metricName.groupKey) = Prod.fst ∘ groupView from rfl,
    ← map_map] at hnodup
  exact hnodup.of_map _

theorem IsGrouped.perm_view (hf : f ≠ .any) (h : IsGrouped g f tss' r)
    (h' : IsGrouped g f (removeEmptySeries tss) r') (hperm : tss'.Perm tss) :
    ((r.filter Timeseries.nonEmpty).map groupView).Perm (r'.map groupView) := by
  refine (perm_ext_iff_of_nodup ?_ h'.nodup_view).mpr fun e => h.view_mem_iff hf h' hperm
  exact h.nodup_view.sublist (filter_sublist.map groupView)

/-- Where the group keys identify the names, the results are the same series. -/
theorem IsGrouped.perm_of_fits (hf : f ≠ .any) (h : IsGrouped g f tss' r)
    (h' : IsGrouped g f (removeEmptySeries tss) r') (hperm : tss'.Perm tss)
    (hfits : ∀ ts ∈ tss, (g ts.metricName).Fits) : (r.filter Timeseries.nonEmpty).Perm r' := by
  have hinj : ∀ ts ∈ r, ∀ ts' ∈ r', groupView ts = groupView ts' → ts = ts' := by
    intro ts hts ts' hts' hview
    obtain ⟨⟨ts₀, hts₀, hname⟩, -⟩ := h.sound ts hts
    obtain ⟨⟨ts₁, hts₁, hname'⟩, -⟩ := h'.sound ts' hts'
    obtain ⟨hkey, hvalues⟩ := Prod.mk.inj hview
    rw [hname, hname', MetricName.groupKey_sortMetricTags,
      MetricName.groupKey_sortMetricTags] at hkey
    have hsorted := MetricName.groupKey_inj (hfits ts₀ (hperm.mem_iff.mp hts₀))
      (hfits ts₁ (mem_filter.mp hts₁).1) hkey
    rw [← hname, ← hname'] at hsorted
    cases ts
    cases ts'
    simp only at hsorted hvalues
    rw [hsorted, hvalues]
  refine (perm_ext_iff_of_nodup ?_ ?_).mpr fun ts => ?_
  · exact (h.nodup_view.of_map _).sublist filter_sublist
  · exact h'.nodup_view.of_map _
  · constructor
    · intro hts
      have hmem := (h.view_mem_iff hf h' hperm).mp (mem_map_of_mem hts)
      obtain ⟨ts', hts', hview⟩ := mem_map.mp hmem
      rwa [hinj ts (mem_filter.mp hts).1 ts' hts' hview.symm]
    · intro hts'
      have hmem := (h.view_mem_iff hf h' hperm).mpr (mem_map_of_mem hts')
      obtain ⟨ts₁, hts₁, hview⟩ := mem_map.mp hmem
      rwa [← hinj ts₁ (mem_filter.mp hts₁).1 ts hts' hview]

end Compare

/-- A list of groups with one result for each of them. -/
theorem isGrouped_of_entries {ε : Type} {f : AggrFunc} {tss : List (Timeseries n)}
    {es : List (Bytes × ε)} {out : Bytes × ε → List (Timeseries n)} (hnodup : (mapKeys es).Nodup)
    (hout : ∀ e ∈ es, ∃ ts, out e = [ts] ∧ ts.metricName.groupKey = e.1 ∧
      (∃ ts₀ ∈ tss, ts.metricName = (g ts₀.metricName).sortMetricTags) ∧
      ts.values = Vector.ofFn fun i => f.result (valuesAt (groupOf g tss e.1) i))
    (hcomplete : ∀ ts₀ ∈ tss, (g ts₀.metricName).groupKey ∈ mapKeys es) :
    IsGrouped g f tss (es.flatMap out) := by
  have hkeys : ∀ es' : List (Bytes × ε), (∀ e ∈ es', e ∈ es) →
      (es'.flatMap out).map (fun ts => ts.metricName.groupKey) = mapKeys es' := by
    intro es' hes'
    induction es' with
    | nil => rfl
    | cons e es' ih =>
      obtain ⟨ts, hts, hkey, -⟩ := hout e (hes' e mem_cons_self)
      rw [flatMap_cons, map_append, hts, ih fun e he => hes' e (mem_cons_of_mem _ he),
        map_singleton, hkey]
      rfl
  have hall := hkeys es fun _ h => h
  refine ⟨hall ▸ hnodup, fun ts hts => ?_, fun ts₀ hts₀ => ?_⟩
  · obtain ⟨e, he, hmem⟩ := mem_flatMap.mp hts
    obtain ⟨ts', hts', hkey, hname, hvalues⟩ := hout e he
    rw [hts', mem_singleton] at hmem
    rw [hmem, hkey]
    exact ⟨hname, hvalues⟩
  · have hmem := hcomplete ts₀ hts₀
    rw [← hall] at hmem
    exact mem_map.mp hmem

section Plain

variable {modifier : ModifierExpr} (hg : ∀ mn, removeGroupTags mn modifier = .ok (g mn))
include hg

theorem groupSeries_eq (ts : Timeseries n) : groupSeries modifier false ts =
    .ok ((g ts.metricName).groupKey, withGroupName g ts) := by
  rw [groupSeries, hg]
  rfl

/-- Without a limit the groups are those of the fold. -/
theorem aggrPrepareSeries_eq (tss : List (Timeseries n)) :
    aggrPrepareSeries tss modifier 0 false =
      .ok (groupFold (fun tssl ts => tssl.getD [] ++ [ts]) []
        ((removeEmptySeries tss).map fun ts =>
          ((g ts.metricName).groupKey, withGroupName g ts))) := by
  have hfold : ∀ (tss : List (Timeseries n)) (m : List (Bytes × List (Timeseries n))),
      tss.foldlM (aggrPrepareOne modifier 0 false) m =
        .ok (groupFold (fun tssl ts => tssl.getD [] ++ [ts]) m
          (tss.map fun ts => ((g ts.metricName).groupKey, withGroupName g ts))) := by
    intro tss
    induction tss with
    | nil => intro m; rfl
    | cons ts tss ih =>
      intro m
      have hone : aggrPrepareOne modifier 0 false m ts =
          .ok (groupInsert (fun tssl ts => tssl.getD [] ++ [ts]) (g ts.metricName).groupKey
            (withGroupName g ts) m) := by
        rw [aggrPrepareOne, groupSeries_eq hg, Outcome.ok_bind]
        exact if_neg fun h => lt_irrefl 0 h.2.1
      rw [foldlM_cons, hone, Outcome.ok_bind, ih]
      rfl
  exact hfold _ _

omit hg in
/-- The series of a group, with their keys. -/
theorem filter_keyed (tss : List (Timeseries n)) (k : Bytes) :
    ((tss.map fun ts => ((g ts.metricName).groupKey, withGroupName g ts)).filter fun x => x.1 = k) =
      (groupOf g tss k).map fun ts => ((g ts.metricName).groupKey, withGroupName g ts) := by
  rw [groupOf, filter_map]
  rfl

omit hg in
/-- The series of a group are collected in their order. -/
theorem lookup_groups (tss : List (Timeseries n)) (k : Bytes) :
    mapLookup k (groupFold (fun tssl ts => tssl.getD [] ++ [ts]) []
      (tss.map fun ts => ((g ts.metricName).groupKey, withGroupName g ts))) =
      if groupOf g tss k = [] then none else some ((groupOf g tss k).map (withGroupName g)) := by
  have hcollect : ∀ (xs : List (Bytes × Timeseries n)) (l : List (Timeseries n)),
      xs.foldl (fun o x => some (o.getD [] ++ [x.2])) (some l) = some (l ++ xs.map Prod.snd) := by
    intro xs
    induction xs with
    | nil => simp
    | cons x xs ih =>
      intro l
      rw [foldl_cons, Option.getD_some, ih]
      simp
  rw [mapLookup_groupFold, filter_keyed]
  split_ifs with hnil
  · rw [hnil]
    rfl
  · obtain ⟨ts, tss', heq⟩ := exists_cons_of_ne_nil hnil
    rw [heq, map_cons, foldl_cons]
    refine (hcollect _ _).trans ?_
    rw [map_map]
    rfl

omit hg in
theorem valuesAt_map_withGroupName (tss : List (Timeseries n)) (i : Fin n) :
    valuesAt (tss.map (withGroupName g)) i = valuesAt tss i := by
  rw [valuesAt, filterMap_map]
  rfl

/-- The results of an aggregate function without a limit. -/
theorem exists_aggrFuncExt {f : AggrFunc} (hf : f ≠ .any)
    (iter : IterOrder (Bytes × List (Timeseries n))) (tss : List (Timeseries n)) :
    ∃ r, aggrFuncExt iter f.afe tss modifier 0 false = .ok r ∧
      IsGrouped g f (removeEmptySeries tss) r := by
  rw [aggrFuncExt, aggrPrepareSeries_eq hg, Outcome.ok_bind]
  refine ⟨_, rfl, ?_⟩
  set m := groupFold (fun tssl ts => tssl.getD [] ++ [ts]) []
    ((removeEmptySeries tss).map fun ts => ((g ts.metricName).groupKey, withGroupName g ts)) with hm
  have hnodup : (mapKeys m).Nodup := nodup_mapKeys_groupFold _ _ nodup_nil
  have hmemKeys : ∀ k, k ∈ mapKeys (iter.visit m) ↔ k ∈ mapKeys m := fun k =>
    ((iter.perm m).map Prod.fst).mem_iff
  refine isGrouped_of_entries (((iter.perm m).map Prod.fst).nodup_iff.mpr hnodup) ?_ ?_
  · rintro ⟨k, tssl⟩ he
    have hlookup := (mem_iff_mapLookup_eq hnodup).mp ((iter.perm m).mem_iff.mp he)
    rw [hm, lookup_groups] at hlookup
    split_ifs at hlookup with hnil
    obtain ⟨ts, rest, heq⟩ := exists_cons_of_ne_nil hnil
    obtain ⟨hts, hkey⟩ : ts ∈ removeEmptySeries tss ∧ (g ts.metricName).groupKey = k :=
      mem_groupOf.mp (heq ▸ mem_cons_self)
    rw [Option.some.injEq] at hlookup
    refine ⟨⟨(g ts.metricName).sortMetricTags,
      Vector.ofFn fun i => f.result (valuesAt (groupOf g (removeEmptySeries tss) k) i)⟩,
      ?_, ?_, ⟨ts, hts, rfl⟩, rfl⟩
    · rw [← hlookup, heq, map_cons, AggrFunc.take_afe hf, ← map_cons, ← heq]
      simp only [valuesAt_map_withGroupName]
      rfl
    · rw [MetricName.groupKey_sortMetricTags, hkey]
  · intro ts₀ hts₀
    rw [hmemKeys]
    have hne : groupOf g (removeEmptySeries tss) (g ts₀.metricName).groupKey ≠ [] :=
      ne_nil_of_mem (mem_groupOf.mpr ⟨hts₀, rfl⟩)
    have hlookup := lookup_groups (g := g) (removeEmptySeries tss) (g ts₀.metricName).groupKey
    rw [if_neg hne, ← hm] at hlookup
    exact mem_map_of_mem (f := Prod.fst) ((mem_iff_mapLookup_eq hnodup).mpr hlookup)

end Plain

end Grouped

end Esmetrics
