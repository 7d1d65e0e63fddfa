import Esmetrics.Esmalert.Alerting

/-!
# Recording rules

Model of `esmalert/src/rule/recording.rs` and `labels.rs`: a recording rule turns the results of its
query into series under its own name, with its labels laid over the queried ones.
-/

namespace Esmetrics.Esmalert

/-- Sets `__name__`: replaces it where it is, or appends it. -/
def setName (base : List (Bytes × Bytes)) (name : Bytes) : List (Bytes × Bytes) :=
  let out := base.map fun kv => if kv.1 = nameLabel then (kv.1, name) else kv
  if base.any fun kv => kv.1 = nameLabel then out else out ++ [(nameLabel, name)]

/-- Renames the first label with the name `k`. -/
def renameFirst (k k' : Bytes) : List (Bytes × Bytes) → List (Bytes × Bytes)
  | [] => []
  | kv :: labels => if kv.1 = k then (k', kv.2) :: labels else kv :: renameFirst k k' labels

/-- Lays one label of the rule over the labels of a series. -/
def overlayLabel (out : List (Bytes × Bytes)) (k v : Bytes) : List (Bytes × Bytes) :=
  if v = [] then out.filter fun kv => kv.1 ≠ k
  else
    match out.find? fun kv => kv.1 = k with
    | some existing =>
      if existing.2 = v then out else renameFirst k (ascii "exported_" ++ k) out ++ [(k, v)]
    | none => out ++ [(k, v)]

/-- The labels of a recorded series: those of the queried metric, with `__name__` set and the labels
of the rule on top. -/
def mergeLabels (base : List (Bytes × Bytes)) (extra : StringMap) (name : Bytes) :
    List (Bytes × Bytes) :=
  sortLabels (extra.toList.foldl (fun out kv => overlayLabel out kv.1 kv.2) (setName base name))

/-- The key of a label set: its sorted pairs `name=value`, joined with commas. -/
def labelsToKey (labels : List (Bytes × Bytes)) : Bytes :=
  [44].intercalate ((sortLabels labels).map fun kv => kv.1 ++ [61] ++ kv.2)

structure RecordingRule where
  id : UInt64
  name : Bytes
  expr : Bytes
  labels : StringMap

/-- The multiplication `saturating_mul` by 1000. -/
def secsToMs (secs : ℤ) : ℤ := max (-2 ^ 63) (min (secs * 1000) i64Max)

/-- The recorded series of a queried metric. -/
def toTimeSeries (m : Metric) (name : Bytes) (ruleLabels : StringMap) : Series where
  labels := mergeLabels m.labels ruleLabels name
  samples := m.values.zipWith (fun value secs => ⟨value, secsToMs secs⟩) m.timestamps

/-- Builds the series of the results; a second series with a key fails. -/
def recordSeries (name : Bytes) (ruleLabels : StringMap) (seen : List Bytes) (out : List Series) :
    List Metric → Except RuleError (List Series)
  | [] => .ok out
  | m :: data =>
    let series := toTimeSeries m name ruleLabels
    let key := labelsToKey series.labels
    if key ∈ seen then .error (.duplicateSeries m.labels key)
    else recordSeries name ruleLabels (key :: seen) (out ++ [series]) data

/-- Evaluates the rule at `ts`. -/
def RecordingRule.exec (rule : RecordingRule) (q : Querier) (ts limit : ℤ) :
    Except RuleError (List Series) :=
  match q rule.expr ts with
  | .error e => .error (.query rule.expr e)
  | .ok res =>
    let numSeries : ℤ := res.data.length
    if 0 < limit ∧ limit < numSeries then .error (.limitExceeded limit numSeries)
    else recordSeries rule.name rule.labels [] [] res.data

end Esmetrics.Esmalert
