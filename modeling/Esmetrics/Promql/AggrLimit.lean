import Esmetrics.Promql.AggrIncremental

/-!
# Incremental aggregation with a limit

What the limit of an aggregate function does to the groups of `IncrementalAggrFuncContext`. A worker
keeps the first groups that it is given, at most as many as the limit, and skips the series of the
others; the merge of the workers keeps the first groups again. So a group that one worker keeps may
lack the series that another one has skipped (`limit_partial_group`). Exactly when no returned group
is one that some worker has skipped, every returned group is complete whatever the values are
(`limit_complete_iff`).

The names of the series and the workers that take them decide which groups are kept; a hash map
visits its entries in an order that depends on their keys.
-/

namespace Esmetrics

open List hiding Vector
open Prod (fst snd)

variable {n : ℕ}

/-! ### The geometric mean -/

section Geomean

-- `f64::powf`.
variable (powf : ℚ → ℚ → ℚ)

def updateAggrGeomean : IncrementalAggrContext n → Vector Val n → IncrementalAggrContext n :=
  .updatePoints fun acc count v =>
    if v.isNone then (acc, count)
    else if count = 0 then (v, 1)
    else (acc.mul v, count + 1)

def mergeAggrGeomean : IncrementalAggrContext n → IncrementalAggrContext n →
    IncrementalAggrContext n :=
  .mergePoints fun acc count v srcCount =>
    if srcCount = 0 then (acc, count)
    else if count = 0 then (v, srcCount)
    else (acc.mul v, count + srcCount)

def finalizeAggrGeomean : IncrementalAggrContext n → IncrementalAggrContext n :=
  .finalizePoints fun acc count => if count = 0 then none else acc.map (powf · (1 / count))

/-- The callbacks of `geomean`. -/
def geomeanCallbacks : IncrementalAggrFuncCallbacks n :=
  ⟨updateAggrGeomean, mergeAggrGeomean, finalizeAggrGeomean powf, false⟩

/-- The result of `geomean` at a point with the given values. -/
def geomeanResult (vs : List ℚ) : Val := if vs = [] then none
  else some (powf vs.prod (1 / vs.length))

theorem accumulates_geomean : Accumulates (n := n) (geomeanCallbacks powf)
    (fun vs => (some (if vs = [] then 0 else vs.prod), vs.length)) (geomeanResult powf) := by
  refine AccumulatesPoint.accumulates ⟨rfl, fun _ _ => rfl, ?_, ?_, ?_⟩
  · intro vs v
    cases vs with
    | nil => simp
    | cons w vs =>
      have hne : ((w :: vs).length : ℚ) ≠ 0 := by simp [Nat.cast_add_one_ne_zero]
      simp only [Option.isNone_some, Bool.false_eq_true, if_false, if_neg hne]
      simp [Val.mul, mul_assoc]
  · intro vs ws
    by_cases hws : ws = []
    · simp [hws]
    · have hne : (ws.length : ℚ) ≠ 0 := by simpa using hws
      by_cases hvs : vs = []
      · simp [hvs, hne]
      · have hne' : (vs.length : ℚ) ≠ 0 := by simpa using hvs
        simp [hne, hne', Val.mul, hvs, hws]
  · intro vs
    by_cases hvs : vs = []
    · simp [hvs, geomeanResult]
    · have hne : (vs.length : ℚ) ≠ 0 := by simpa using hvs
      simp [hne, geomeanResult, hvs]

end Geomean

/-! ### Which groups are kept -/

/-- The workers and the names of the series that they take. -/
def callNames (calls : List (ℕ × Timeseries n)) : List (ℕ × MetricName) :=
  calls.map fun call => (call.1, call.2.metricName)

section Keys

variable (g : MetricName → MetricName) (limit : ℕ) (names : List (ℕ × MetricName))

/-- The groups of the series of a worker, in their order. -/
def workerKeys (w : ℕ) : List Bytes := (names.filter fun call => call.1 = w).map fun call =>
  (g call.2).groupKey

/-- The groups that a worker keeps. -/
def keptKeys (w : ℕ) : List Bytes := firstKeys limit [] (workerKeys g names w)

/-- The groups that are returned, where the map of a worker is visited in an order of its keys. -/
def returnedKeys (maxWorkers : ℕ) (keyOrder : ℕ → IterOrder Bytes) : List Bytes :=
  firstKeys limit []
    ((List.range (max maxWorkers 1)).flatMap fun w => (keyOrder w).visit (keptKeys g limit names w))

/-- No worker has skipped a series of a returned group. -/
def NoGroupCut (maxWorkers : ℕ) (keyOrder : ℕ → IterOrder Bytes) : Prop :=
  ∀ k ∈ returnedKeys g limit names maxWorkers keyOrder, ∀ w, k ∈ workerKeys g names w →
  k ∈ keptKeys g limit names w

end Keys

/-- At most `limit` groups, each with the results of all its series. -/
structure CompleteGroups (g : MetricName → MetricName) (result : List ℚ → Val) (limit : ℕ)
    (tss r : List (Timeseries n)) : Prop where
  length_le : r.length ≤ limit
  complete : ∀ ts ∈ r, (∃ ts₀ ∈ tss, (g ts₀.metricName).groupKey = ts.metricName.groupKey) ∧
    ts.values = Vector.ofFn fun i => result (valuesAt (groupOf g tss ts.metricName.groupKey) i)

namespace IncrementalAggrFuncContext

variable {g : MetricName → MetricName} {callbacks : IncrementalAggrFuncCallbacks n}
  {acc : List ℚ → Val × ℚ} {result : List ℚ → Val}

theorem map_key_seriesOf (calls : List (ℕ × Timeseries n)) (w : ℕ) :
    ((seriesOf calls w).map fun ts => (g ts.metricName).groupKey) =
    workerKeys g (callNames calls) w := by
  rw [seriesOf, workerKeys, callNames, filter_map, map_map, map_map]
  rfl

/-- The series that a worker does not skip. -/
def keptSeries (g : MetricName → MetricName) (limit : ℕ) (calls : List (ℕ × Timeseries n)) (w : ℕ) :
    List (Timeseries n) :=
  (seriesOf calls w).filter fun ts =>
    (g ts.metricName).groupKey ∈ keptKeys g limit (callNames calls) w

/-- The items of a worker. -/
def workerItems (g : MetricName → MetricName) (calls : List (ℕ × Timeseries n)) (w : ℕ) :
    List (Bytes × Timeseries n) :=
  (seriesOf calls w).map fun ts => ((g ts.metricName).groupKey, withGroupName g ts)

theorem map_fst_workerItems (calls : List (ℕ × Timeseries n)) (w : ℕ) :
    (workerItems g calls w).map fst = workerKeys g (callNames calls) w := by
  rw [workerItems, map_map, ← map_key_seriesOf]
  rfl

theorem foldl_insertEntry {β : Type} (f : Option (IncrementalAggrContext n) → β →
    IncrementalAggrContext n)
    {limit : ℤ} (hlimit : 0 < limit) (m : AggrContextMap n) (xs : List (Bytes × β)) :
    xs.foldl (insertEntry f limit) m = groupFoldMax limit.toNat f m xs := by
  refine congrArg (List.foldl · m xs) (funext fun m => funext fun e => ?_)
  by_cases hskip : e.1 ∉ mapKeys m ∧ limit.toNat ≤ m.length
  · exact (if_pos ⟨hskip.1, hlimit, hskip.2⟩).trans (if_pos hskip).symm
  · exact (if_neg fun h => hskip ⟨h.1, h.2.2⟩).trans (if_neg hskip).symm

/-- The map of a worker is that of the series it does not skip. -/
theorem groupFoldMax_workerItems (limit : ℕ) (calls : List (ℕ × Timeseries n)) (w : ℕ) :
    groupFoldMax limit (IncrementalAggrFuncContext.updateGroup callbacks) []
    (workerItems g calls w) =
      workerMap g callbacks (keptSeries g limit calls w) := by
  rw [groupFoldMax_eq, map_fst_workerItems, workerMap, keptSeries, workerItems, filter_map]
  refine congrArg (fun tss => groupFold _ [] (List.map _ tss)) (filter_congr fun ts _ => ?_)
  exact decide_eq_decide.mpr Iff.rfl

theorem mapKeys_workerMap (limit : ℕ) (calls : List (ℕ × Timeseries n)) (w : ℕ) :
    mapKeys (workerMap g callbacks (keptSeries g limit calls w)) =
    keptKeys g limit (callNames calls) w := by
  rw [← groupFoldMax_workerItems, mapKeys_groupFoldMax, map_fst_workerItems]
  rfl

section Run

variable {modifier : ModifierExpr} (hg : ∀ mn, removeGroupTags mn modifier = .ok (g mn))
  (hacc : Accumulates callbacks acc result) {limit : ℤ} (hlimit : 0 < limit) {maxWorkers : ℕ}
  {calls : List (ℕ × Timeseries n)} (hids : ∀ call ∈ calls, call.1 < max maxWorkers 1)
  {order : ℕ → IterOrder (Bytes × IncrementalAggrContext n)} {keyOrder : ℕ → IterOrder Bytes}
  (horder : ∀ w m, mapKeys ((order w).visit m) = (keyOrder w).visit (mapKeys m))
  (orderGlobal : IterOrder (Bytes × IncrementalAggrContext n))

include hg hacc hlimit hids horder in
/-- The results of a run with a limit: one for every returned group, of the series that the workers
keep. -/
theorem exists_limited :
    ∃ iafc', (new modifier limit callbacks maxWorkers).updateAll calls = .ok iafc' ∧
      (iafc'.finalizeTimeseries order orderGlobal).length ≤ limit.toNat ∧
      (∀ ts ∈ iafc'.finalizeTimeseries order orderGlobal,
        ts.metricName.groupKey ∈ returnedKeys g limit.toNat (callNames calls) maxWorkers keyOrder ∧
        (∃ ts₀ ∈ calls.map snd, (g ts₀.metricName).groupKey = ts.metricName.groupKey) ∧
        ts.values = Vector.ofFn fun i =>
        result (valuesAt ((List.range (max maxWorkers 1)).flatMap fun w =>
          groupOf g (keptSeries g limit.toNat calls w) ts.metricName.groupKey) i)) ∧
      ∀ k ∈ returnedKeys g limit.toNat (callNames calls) maxWorkers keyOrder,
        ∃ ts ∈ iafc'.finalizeTimeseries order orderGlobal, ts.metricName.groupKey = k := by
  obtain ⟨iafc', hall, hfinal⟩ :=
    exists_finalizeTimeseries hg hacc.keepOriginal_eq limit hids order orderGlobal
  set ids := List.range (max maxWorkers 1) with hidsEq
  -- The maps of the workers, and the merged map.
  have hworkers : ∀ w, ((seriesOf calls w).map fun ts =>
      ((g ts.metricName).groupKey, withGroupName g ts)).foldl
      (insertEntry (updateGroup callbacks) limit) [] =
        workerMap g callbacks (keptSeries g limit.toNat calls w) := fun w => by
    rw [foldl_insertEntry _ hlimit, ← groupFoldMax_workerItems, workerItems]
  set entries := ids.flatMap fun w =>
    (order w).visit (workerMap g callbacks (keptSeries g limit.toNat calls w))
    with hentries
  have hkeys : entries.map fst =
      ids.flatMap fun w => (keyOrder w).visit (keptKeys g limit.toNat (callNames calls) w) := by
    rw [hentries, map_flatMap]
    refine flatMap_congr fun w _ => ?_
    rw [← @mapKeys_workerMap _ g callbacks]
    exact horder w _
  set m := groupFoldMax limit.toNat (mergeGroup callbacks) [] entries with hm
  have hmkeys : mapKeys m = returnedKeys g limit.toNat (callNames calls) maxWorkers keyOrder := by
    rw [hm, mapKeys_groupFoldMax, hkeys]
    rfl
  have hnodup : (mapKeys m).Nodup := by
    rw [hm, groupFoldMax_eq]
    exact nodup_mapKeys_groupFold _ _ nodup_nil
  have hresult : iafc'.finalizeTimeseries order orderGlobal =
      (orderGlobal.visit m).map fun e => (callbacks.finalize e.2).ts := by
    rw [hfinal, foldl_insertEntry _ hlimit, hm, hentries]
    simp only [hworkers]
  have hentry : ∀ e ∈ m, e.1 ∈ mapKeys m ∧ (callbacks.finalize e.2).ts.metricName.groupKey = e.1 ∧
      (∃ ts₀ ∈ calls.map snd, (g ts₀.metricName).groupKey = e.1) ∧
      (callbacks.finalize e.2).ts.values = Vector.ofFn fun i =>
      result (valuesAt (ids.flatMap fun w =>
        groupOf g (keptSeries g limit.toNat calls w) e.1) i) := by
    rintro ⟨k, iac⟩ he
    have hk : k ∈ mapKeys m := mem_map_of_mem he
    have hrep := represents_merge (g := g) hacc order (keptSeries g limit.toNat calls) ids k
    have hlookup : mapLookup k (groupFold (mergeGroup callbacks) [] entries) = some iac := by
      rw [← (mem_iff_mapLookup_eq hnodup).mp he, hm, groupFoldMax_eq, mapLookup_groupFold,
        mapLookup_groupFold, filter_filter]
      have hfirst : k ∈ firstKeys limit.toNat (mapKeys ([] : AggrContextMap n))
          (entries.map fst) := by
        rwa [hm, mapKeys_groupFoldMax] at hk
      refine congrArg (List.foldl _ _) (filter_congr fun x _ => ?_)
      by_cases hx : x.1 = k
      · simp [hx, hfirst]
      · simp [hx]
    rw [← hentries, hlookup] at hrep
    obtain ⟨hholds, ts₀, hts₀, hname⟩ := hrep
    obtain ⟨w, _, hw⟩ := mem_flatMap.mp hts₀
    obtain ⟨hkept, hkey⟩ := mem_groupOf.mp hw
    have hts₀ : ts₀ ∈ calls.map snd := by
      obtain ⟨call, hcall, rfl⟩ := mem_map.mp (mem_of_mem_filter hkept)
      exact mem_map_of_mem (mem_of_mem_filter hcall)
    refine ⟨hk, ?_, ⟨ts₀, hts₀, hkey⟩, hacc.finalize hholds⟩
    rw [hacc.finalize_name, hname, MetricName.groupKey_sortMetricTags, hkey]
  refine ⟨iafc', hall, ?_, fun ts hts => ?_, fun k hk => ?_⟩
  · rw [hresult, length_map, (orderGlobal.perm m).length_eq, ← length_map (f := fst)]
    change (mapKeys m).length ≤ _
    rw [hmkeys]
    exact length_firstKeys_le (Nat.zero_le _) _
  · rw [hresult] at hts
    obtain ⟨e, he, rfl⟩ := mem_map.mp hts
    obtain ⟨hk, hkey, hmem, hvalues⟩ := hentry e ((orderGlobal.perm m).mem_iff.mp he)
    rw [hkey, ← hmkeys]
    exact ⟨hk, hmem, hvalues⟩
  · rw [← hmkeys] at hk
    obtain ⟨e, he, rfl⟩ := mem_map.mp hk
    refine ⟨(callbacks.finalize e.2).ts, ?_, (hentry e he).2.1⟩
    rw [hresult]
    exact mem_map_of_mem ((orderGlobal.perm m).mem_iff.mpr he)

end Run

/-- The series of a group that a worker keeps, if it keeps the group. -/
theorem groupOf_keptSeries {limit : ℕ} {calls : List (ℕ × Timeseries n)} {k : Bytes} {w : ℕ}
    (h : k ∈ workerKeys g (callNames calls) w → k ∈ keptKeys g limit (callNames calls) w) :
    groupOf g (keptSeries g limit calls w) k = groupOf g (seriesOf calls w) k := by
  rw [groupOf, keptSeries, filter_filter]
  refine filter_congr fun ts hts => ?_
  by_cases hk : (g ts.metricName).groupKey = k
  · have hmem : k ∈ workerKeys g (callNames calls) w := by
      rw [← map_key_seriesOf, ← hk]
      exact mem_map_of_mem hts
    simp [hk, h hmem]
  · simp [hk]

/-- The calls for some names, with values for each of them. -/
def callsOf (names : List (ℕ × MetricName)) (values : ℕ × MetricName → Vector Val n) :
    List (ℕ × Timeseries n) :=
  names.map fun call => (call.1, ⟨call.2, values call⟩)

theorem callNames_callsOf (names : List (ℕ × MetricName)) (values : ℕ × MetricName → Vector Val n) :
    callNames (callsOf names values) = names := by
  rw [callNames, callsOf, map_map]
  exact map_id _

section Iff

variable [NeZero n] {modifier : ModifierExpr} (hg : ∀ mn, removeGroupTags mn modifier = .ok (g mn))
  (hacc : Accumulates callbacks acc result) (hnone : ∀ vs, result vs = none ↔ vs = [])
  (hperm : ∀ {vs ws : List ℚ}, vs.Perm ws → result vs = result ws) {limit : ℤ} (hlimit : 0 < limit)
  {maxWorkers : ℕ}
  {names : List (ℕ × MetricName)} (hids : ∀ call ∈ names, call.1 < max maxWorkers 1)
  {order : ℕ → IterOrder (Bytes × IncrementalAggrContext n)} {keyOrder : ℕ → IterOrder Bytes}
  (horder : ∀ w m, mapKeys ((order w).visit m) = (keyOrder w).visit (mapKeys m))
  (orderGlobal : IterOrder (Bytes × IncrementalAggrContext n))

include hg hacc hnone hperm hlimit hids horder in
/-- Every returned group is complete for all values exactly when no worker has skipped a series of
one. -/
theorem complete_iff_noGroupCut :
    (∀ calls : List (ℕ × Timeseries n), callNames calls = names →
      ∃ iafc, (new modifier limit callbacks maxWorkers).updateAll calls = .ok iafc ∧
        CompleteGroups g result limit.toNat (calls.map snd)
        (iafc.finalizeTimeseries order orderGlobal)) ↔
      NoGroupCut g limit.toNat names maxWorkers keyOrder := by
  have hcalls : ∀ calls : List (ℕ × Timeseries n), callNames calls = names →
      ∀ call ∈ calls, call.1 < max maxWorkers 1 := by
    rintro calls rfl call hcall
    exact hids (call.1, call.2.metricName) (mem_map_of_mem hcall)
  constructor
  · intro hall k hk w hw
    by_contra hcut
    -- The series of the group that are kept have no values, and the skipped ones have.
    let values : ℕ × MetricName → Vector Val n := fun call =>
      Vector.replicate n (if k ∈ keptKeys g limit.toNat names call.1 then none else some 1)
    have hnames : callNames (callsOf names values) = names := callNames_callsOf names values
    obtain ⟨iafc, hrun, hcomplete⟩ := hall (callsOf names values) hnames
    obtain ⟨iafc', hrun', -, hvalues, hreturned⟩ :=
      exists_limited hg hacc hlimit (hcalls _ hnames) horder orderGlobal
    obtain rfl := Outcome.ok.inj (hrun.symm.trans hrun')
    rw [hnames] at hreturned
    obtain ⟨ts, hts, rfl⟩ := hreturned k hk
    have hpartial := (hvalues ts hts).2.2
    rw [(hcomplete.complete ts hts).2] at hpartial
    have hpoint := congrArg (fun v : Vector Val n => v[(0 : Fin n)]) hpartial
    simp only [Fin.getElem_fin, Vector.getElem_ofFn] at hpoint
    have hkept : valuesAt ((List.range (max maxWorkers 1)).flatMap fun w =>
        groupOf g (keptSeries g limit.toNat (callsOf names values) w) ts.metricName.groupKey)
          (0 : Fin n) = [] := by
      rw [valuesAt, filterMap_eq_nil_iff]
      intro ts' hts'
      obtain ⟨w', _, hw'⟩ := mem_flatMap.mp hts'
      obtain ⟨hmem, hkey⟩ := mem_groupOf.mp hw'
      obtain ⟨hseries, hkept⟩ := mem_filter.mp hmem
      obtain ⟨call, hcall, rfl⟩ := mem_map.mp hseries
      obtain ⟨hcall, hworker⟩ := mem_filter.mp hcall
      obtain ⟨name, _, rfl⟩ := mem_map.mp hcall
      rw [hnames, hkey, decide_eq_true_eq, ← of_decide_eq_true hworker] at hkept
      simp [values, hkept]
    obtain ⟨name, hname, hkey⟩ := mem_map.mp hw
    obtain ⟨hname, hworker⟩ := mem_filter.mp hname
    have hskipped : (1 : ℚ) ∈ valuesAt (groupOf g ((callsOf names values).map snd)
        ts.metricName.groupKey) (0 : Fin n) := by
      refine mem_filterMap.mpr ⟨⟨name.2, values name⟩, mem_groupOf.mpr ⟨?_, hkey⟩, ?_⟩
      · exact mem_map.mpr ⟨(name.1, _), mem_map_of_mem hname, rfl⟩
      · rw [← of_decide_eq_true hworker] at hcut
        simp [values, hcut]
    have hempty := (hnone _).mp (hpoint.trans ((hnone _).mpr hkept))
    rw [hempty] at hskipped
    exact absurd hskipped not_mem_nil
  · rintro hcut calls rfl
    obtain ⟨iafc, hrun, hlength, hvalues, -⟩ :=
      exists_limited hg hacc hlimit (hcalls calls rfl) horder orderGlobal
    refine ⟨iafc, hrun, hlength, fun ts hts => ?_⟩
    obtain ⟨hk, hmem, hts⟩ := hvalues ts hts
    refine ⟨hmem, hts.trans (congrArg Vector.ofFn (funext fun i => ?_))⟩
    refine hperm (valuesAt_perm ?_ i)
    have hgroups : (List.range (max maxWorkers 1)).flatMap (fun w =>
        groupOf g (keptSeries g limit.toNat calls w) ts.metricName.groupKey) =
          groupOf g ((List.range (max maxWorkers 1)).flatMap (seriesOf calls))
          ts.metricName.groupKey := by
      rw [groupOf, filter_flatMap]
      exact flatMap_congr fun w _ => groupOf_keptSeries (hcut _ hk w)
    rw [hgroups]
    exact groupOf_perm (flatMap_seriesOf_perm nodup_range fun call hcall =>
      mem_range.mpr (hcalls calls rfl call hcall)) _

end Iff

/-! ### `any` -/

section Any

variable [NeZero n] {all : List (ℕ × Timeseries n)}

/-- An entry that holds one series, with its own name. -/
def HoldsSeries (all : List (ℕ × Timeseries n)) (e : Bytes × IncrementalAggrContext n) : Prop :=
  ∃ ts ∈ all.map snd, e.2 = ⟨ts, Vector.replicate n 1⟩

theorem replicate_one_pos : (Vector.replicate n (1 : ℚ)).get 0 > 0 := by simp [Vector.get]

theorem HoldsSeries.updateGroup {m : AggrContextMap n} (hm : ∀ e ∈ m, HoldsSeries all e) {k : Bytes}
    {ts : Timeseries n} (hts : ts ∈ all.map snd) :
    ∀ e ∈ groupInsert (IncrementalAggrFuncContext.updateGroup
      (getIncrementalAggrFuncCallbacks .any)) k ts m,
      HoldsSeries all e := by
  intro e he
  obtain he | rfl | ⟨a, ha, rfl⟩ := mem_groupInsert he
  · exact hm e he
  · refine ⟨ts, hts, ?_⟩
    have hnew : ¬ (Vector.replicate n (0 : ℚ))[(0 : Fin n)] > 0 := by simp
    exact if_neg hnew
  · obtain ⟨ts', hts', ha⟩ := hm _ ha
    refine ⟨ts', hts', ?_⟩
    dsimp only at ha
    rw [ha]
    exact if_pos replicate_one_pos

theorem HoldsSeries.mergeGroup {m : AggrContextMap n} (hm : ∀ e ∈ m, HoldsSeries all e) {k : Bytes}
    {iac : IncrementalAggrContext n} (hiac : HoldsSeries all (k, iac)) :
    ∀ e ∈ groupInsert (IncrementalAggrFuncContext.mergeGroup
      (getIncrementalAggrFuncCallbacks .any)) k iac m,
      HoldsSeries all e := by
  intro e he
  obtain he | rfl | ⟨a, ha, rfl⟩ := mem_groupInsert he
  · exact hm e he
  · exact hiac
  · obtain ⟨ts', hts', ha⟩ := hm _ ha
    refine ⟨ts', hts', ?_⟩
    dsimp only at ha
    rw [ha]
    exact if_pos replicate_one_pos

/-- The maps of the workers hold series, whatever is skipped. -/
theorem HoldsSeries.updateAll {g : MetricName → MetricName} (iafc : IncrementalAggrFuncContext n)
    (hg : ∀ mn, removeGroupTags mn iafc.modifier = .ok (g mn))
    (hcallbacks : iafc.callbacks = getIncrementalAggrFuncCallbacks .any)
    {calls : List (ℕ × Timeseries n)}
    (hcalls : calls ⊆ all) (hids : ∀ call ∈ calls, call.1 < iafc.byWorkerId.length)
    (hmaps : ∀ m ∈ iafc.byWorkerId, ∀ e ∈ m, HoldsSeries all e) :
    ∃ byWorkerId, iafc.updateAll calls = .ok { iafc with byWorkerId } ∧
      ∀ m ∈ byWorkerId, ∀ e ∈ m, HoldsSeries all e := by
  induction calls generalizing iafc with
  | nil => exact ⟨iafc.byWorkerId, rfl, hmaps⟩
  | cons call calls ih =>
    obtain ⟨hcall, hcalls⟩ := cons_subset.mp hcalls
    have hid := hids call mem_cons_self
    have hm : iafc.byWorkerId[call.1]? = some iafc.byWorkerId[call.1] := getElem?_eq_getElem hid
    have hseries : groupSeries iafc.modifier iafc.callbacks.keepOriginal call.2 =
        .ok ((g call.2.metricName).groupKey, call.2) := by
      rw [groupSeries, hg, hcallbacks]
      rfl
    -- Whether the series is skipped or not.
    have hstep : ∃ m, iafc.updateTimeseries call.2 call.1 =
        .ok { iafc with byWorkerId := iafc.byWorkerId.set call.1 m } ∧ ∀ e ∈ m,
        HoldsSeries all e := by
      rw [updateTimeseries, hm, Outcome.index_some, Outcome.ok_bind, hseries, Outcome.ok_bind]
      by_cases hskip : isSkipped iafc.limit iafc.byWorkerId[call.1] (g call.2.metricName).groupKey
      · refine ⟨iafc.byWorkerId[call.1], (if_pos hskip).trans ?_, hmaps _ (getElem_mem hid)⟩
        rw [set_getElem_self]
      · refine ⟨_, if_neg hskip, ?_⟩
        rw [hcallbacks]
        exact HoldsSeries.updateGroup (hmaps _ (getElem_mem hid)) (mem_map_of_mem hcall)
    obtain ⟨m, hstep, hholds⟩ := hstep
    have hmaps' : ∀ m' ∈ iafc.byWorkerId.set call.1 m, ∀ e ∈ m', HoldsSeries all e := by
      intro m' hm'
      obtain hm' | rfl := mem_or_eq_of_mem_set hm'
      · exact hmaps m' hm'
      · exact hholds
    obtain ⟨byWorkerId, hall, hholds'⟩ :=
      ih { iafc with byWorkerId := iafc.byWorkerId.set call.1 m } hg hcallbacks
      hcalls (fun c hc => by rw [length_set]; exact hids c (mem_cons_of_mem call hc)) hmaps'
    refine ⟨byWorkerId, ?_, hholds'⟩
    rw [IncrementalAggrFuncContext.updateAll, foldlM_cons, hstep, Outcome.ok_bind]
    exact hall

/-- `any` returns series that it was given, at most `limit`. -/
theorem exists_any {g : MetricName → MetricName} {modifier : ModifierExpr}
    (hg : ∀ mn, removeGroupTags mn modifier = .ok (g mn)) {limit : ℤ} (hlimit : 0 < limit)
    {maxWorkers : ℕ}
    (hids : ∀ call ∈ all, call.1 < max maxWorkers 1)
    (order : ℕ → IterOrder (Bytes × IncrementalAggrContext n))
    (orderGlobal : IterOrder (Bytes × IncrementalAggrContext n)) :
    ∃ iafc, (new modifier limit (getIncrementalAggrFuncCallbacks .any) maxWorkers).updateAll
    all = .ok iafc ∧
      (iafc.finalizeTimeseries order orderGlobal).length ≤ limit.toNat ∧
      ∀ ts ∈ iafc.finalizeTimeseries order orderGlobal, ts ∈ all.map snd := by
  have hnew : ∀ m ∈ (new modifier limit (getIncrementalAggrFuncCallbacks (n := n) .any)
    maxWorkers).byWorkerId,
      ∀ e ∈ m, HoldsSeries all e := by
    intro m hm
    rw [eq_of_mem_replicate hm]
    exact nofun
  obtain ⟨byWorkerId, hall, hholds⟩ := HoldsSeries.updateAll
    (new modifier limit (getIncrementalAggrFuncCallbacks (n := n) .any) maxWorkers) hg rfl
    (Subset.refl all) (by simpa [new] using hids) hnew
  refine ⟨_, hall, ?_⟩
  -- The merged map holds series, and has room for them.
  let Ok (m : AggrContextMap n) : Prop := (∀ e ∈ m, HoldsSeries all e) ∧ m.length ≤ limit.toNat
  have hentry : ∀ m, Ok m → ∀ e, HoldsSeries all e → Ok (mergeEntry
      ⟨modifier, limit, byWorkerId, getIncrementalAggrFuncCallbacks .any⟩ m e) := by
    rintro m ⟨hm, hlength⟩ e he
    rw [mergeEntry]
    split_ifs with hskip
    · exact ⟨hm, hlength⟩
    · refine ⟨HoldsSeries.mergeGroup hm he, ?_⟩
      rw [← length_map (f := fst), ← mapKeys, mapKeys_groupInsert]
      split_ifs with hmem
      · rwa [mapKeys, length_map]
      · have hroom : ¬ m.length ≥ limit.toNat := fun hfull => hskip ⟨hmem, hlimit, hfull⟩
        rw [length_append, mapKeys, length_map, length_singleton]
        omega
  have hmerged := List.foldlRecOn byWorkerId.zipIdx (fun mGlobal m => ((order m.2).visit m.1).foldl
    (mergeEntry ⟨modifier, limit, byWorkerId, getIncrementalAggrFuncCallbacks .any⟩) mGlobal)
    (motive := Ok) (b := []) ⟨nofun, Nat.zero_le _⟩ fun mGlobal hmGlobal m hm => by
      refine List.foldlRecOn _ _ hmGlobal fun mGlobal hmGlobal e he => hentry mGlobal hmGlobal e ?_
      exact hholds m.1 (fst_mem_of_mem_zipIdx hm) e (((order m.2).perm m.1).mem_iff.mp he)
  refine ⟨?_, fun ts hts => ?_⟩
  · rw [finalizeTimeseries, length_map, (orderGlobal.perm _).length_eq]
    exact hmerged.2
  · obtain ⟨e, he, rfl⟩ := mem_map.mp hts
    obtain ⟨ts, hts, hiac⟩ := hmerged.1 e ((orderGlobal.perm _).mem_iff.mp he)
    have hfinalize : ((getIncrementalAggrFuncCallbacks .any).finalize e.2).ts = ts := by
      rw [hiac]
      change ({ ts with values := Vector.ofFn fun i =>
        if (Vector.replicate n (1 : ℚ))[i] = 0 then none else ts.values[i] } : Timeseries n) = ts
      simp
    change ((getIncrementalAggrFuncCallbacks .any).finalize e.2).ts ∈ _
    rw [hfinalize]
    exact hts

end Any

/-- The name of the group of a name. -/
def groupName (modifier : ModifierExpr) (mn : MetricName) : MetricName :=
  match removeGroupTags mn modifier with
  | .ok mn => mn
  | _ => mn

theorem removeGroupTags_eq {modifier : ModifierExpr} (hmod : modifier.IsGroupModifier)
    (mn : MetricName) : removeGroupTags mn modifier = .ok (groupName modifier mn) := by
  obtain ⟨mn', h⟩ := exists_removeGroupTags hmod mn
  rw [groupName, h]

/-- **Incremental aggregation with a limit.** For series with the given names, taken by the given
workers: whatever the values are, at most `limit` groups are returned, each with the results of all
its series, exactly when no worker has skipped a series of a returned group. `any` returns series of
its input in any case. -/
theorem limit_complete_iff [NeZero n] (modifier : ModifierExpr)
    (hmod : modifier.IsGroupModifier) (limit : ℤ)
    (hlimit : 0 < limit) (maxWorkers : ℕ) (names : List (ℕ × MetricName))
    (hids : ∀ call ∈ names, call.1 < max maxWorkers 1)
    (order : ℕ → IterOrder (Bytes × IncrementalAggrContext n))
    (keyOrder : ℕ → IterOrder Bytes) (horder : ∀ w m,
      mapKeys ((order w).visit m) = (keyOrder w).visit (mapKeys m))
    (orderGlobal : IterOrder (Bytes × IncrementalAggrContext n)) :
    (∀ f : AggrFunc, f ≠ .any →
      ((∀ calls : List (ℕ × Timeseries n), callNames calls = names →
        ∃ iafc, (new modifier limit (getIncrementalAggrFuncCallbacks f) maxWorkers).updateAll
        calls = .ok iafc ∧
          CompleteGroups (groupName modifier) f.result limit.toNat (calls.map snd)
            (iafc.finalizeTimeseries order orderGlobal)) ↔
        NoGroupCut (groupName modifier) limit.toNat names maxWorkers keyOrder)) ∧
    (∀ powf : ℚ → ℚ → ℚ,
      ((∀ calls : List (ℕ × Timeseries n), callNames calls = names →
        ∃ iafc, (new modifier limit (geomeanCallbacks powf) maxWorkers).updateAll calls = .ok iafc ∧
          CompleteGroups (groupName modifier) (geomeanResult powf) limit.toNat (calls.map snd)
            (iafc.finalizeTimeseries order orderGlobal)) ↔
        NoGroupCut (groupName modifier) limit.toNat names maxWorkers keyOrder)) ∧
    ∀ calls : List (ℕ × Timeseries n), callNames calls = names →
      ∃ iafc, (new modifier limit (getIncrementalAggrFuncCallbacks .any) maxWorkers).updateAll
      calls = .ok iafc ∧
        (iafc.finalizeTimeseries order orderGlobal).length ≤ limit.toNat ∧
        ∀ ts ∈ iafc.finalizeTimeseries order orderGlobal, ts ∈ calls.map snd := by
  have hg := removeGroupTags_eq hmod
  refine ⟨fun f hf => ?_, fun powf => ?_, ?_⟩
  · obtain ⟨acc, hacc⟩ := AggrFunc.exists_accumulates (n := n) hf
    exact complete_iff_noGroupCut hg hacc (fun vs => f.result_eq_none_iff)
      (f.result_perm hf) hlimit hids horder
      orderGlobal
  · have hnone : ∀ vs, geomeanResult powf vs = none ↔ vs = [] := by
      intro vs
      rw [geomeanResult]
      split_ifs with h
      · exact iff_of_true rfl h
      · exact iff_of_false nofun h
    have hperm : ∀ {vs ws : List ℚ}, vs.Perm ws → geomeanResult powf vs =
        geomeanResult powf ws := by
      intro vs ws h
      rw [geomeanResult, geomeanResult, h.prod_eq, h.length_eq]
      exact if_congr ⟨fun hvs => perm_nil.mp (hvs ▸ h.symm),
        fun hws => perm_nil.mp (hws ▸ h)⟩ rfl rfl
    exact complete_iff_noGroupCut hg (accumulates_geomean powf) hnone hperm hlimit hids
      horder orderGlobal
  · rintro calls rfl
    refine exists_any hg hlimit (fun call hcall => ?_) order orderGlobal
    exact hids (call.1, call.2.metricName) (mem_map_of_mem hcall)

/-- The first worker keeps the job `a`, the second one the job `b` and not the other series of the
job `a`. -/
def limitCalls : List (ℕ × Timeseries 1) :=
  [(0, ⟨⟨ascii "m", [⟨ascii "job", ascii "a"⟩]⟩, #v[some 1]⟩),
    (1, ⟨⟨ascii "m", [⟨ascii "job", ascii "b"⟩]⟩, #v[some 5]⟩),
    (1, ⟨⟨ascii "n", [⟨ascii "job", ascii "a"⟩]⟩, #v[some 2]⟩)]

/-- With a limit of one group, two workers return a group without one of its series. -/
theorem limit_partial_group :
    ∃ iafc, (new ⟨ascii "by", [ascii "job"]⟩ 1 (getIncrementalAggrFuncCallbacks .sum) 2).updateAll
    limitCalls =
        .ok iafc ∧
      iafc.finalizeTimeseries (fun _ => ⟨id, fun _ => .refl _⟩) ⟨id, fun _ => .refl _⟩ =
        [⟨⟨[], [⟨ascii "job", ascii "a"⟩]⟩, #v[some 1]⟩] ∧
      AggrFunc.sum.result (valuesAt (groupOf (groupName ⟨ascii "by", [ascii "job"]⟩)
        (limitCalls.map snd)
        (MetricName.groupKey ⟨[], [⟨ascii "job", ascii "a"⟩]⟩)) 0) = some 3 := by
  refine ⟨_, rfl, ?_, ?_⟩
  · decide +kernel
  · decide +kernel

/-- With a limit of two groups no worker skips a series. -/
theorem limit_complete_iff_two :
    ∃ iafc, (new ⟨ascii "by", [ascii "job"]⟩ 2 (getIncrementalAggrFuncCallbacks .sum) 2).updateAll
    limitCalls =
        .ok iafc ∧
      CompleteGroups (groupName ⟨ascii "by", [ascii "job"]⟩) AggrFunc.sum.result 2
        (limitCalls.map snd)
        (iafc.finalizeTimeseries (fun _ => ⟨id, fun _ => .refl _⟩) ⟨id, fun _ => .refl _⟩) := by
  have hcut : NoGroupCut (groupName ⟨ascii "by", [ascii "job"]⟩) 2 (callNames limitCalls) 2
      (fun _ => ⟨id, fun _ => .refl _⟩) := by
    intro k _ w hw
    have hkept : ∀ w, w < 2 → keptKeys (groupName ⟨ascii "by", [ascii "job"]⟩) 2
        (callNames limitCalls) w =
        workerKeys (groupName ⟨ascii "by", [ascii "job"]⟩) (callNames limitCalls) w := by
      decide +kernel
    have hids : ∀ call ∈ callNames limitCalls, call.1 < 2 := by decide
    obtain ⟨call, hcall, rfl⟩ := mem_map.mp hw
    obtain ⟨hcall, hworker⟩ := mem_filter.mp hcall
    rw [hkept w (of_decide_eq_true hworker ▸ hids call hcall)]
    exact hw
  exact ((limit_complete_iff (n := 1) ⟨ascii "by", [ascii "job"]⟩ (by decide) 2 (by decide) 2
    (callNames limitCalls)
    (by decide) (fun _ => ⟨id, fun _ => .refl _⟩) (fun _ => ⟨id, fun _ => .refl _⟩) (fun _ _ => rfl)
    ⟨id, fun _ => .refl _⟩).1 .sum (by decide)).mpr hcut limitCalls rfl

end IncrementalAggrFuncContext

end Esmetrics
