import Mathlib.Data.List.Infix
import Mathlib.Data.Rat.Defs
import Std.Data.ExtTreeMap
import Esmetrics.Lib.F64
import Esmetrics.Lib.FixedWidth
import Esmetrics.Lib.StableSort

/-!
# Alerts

Model of `esmalert/src/rule/alert.rs` and of the types of `datasource` and `series.rs` that it
reads: the alert, its identity, and the `ALERTS` and `ALERTS_FOR_STATE` series it is converted to.

Strings are their bytes, and a `BTreeMap<String, String>` is an extensional tree map, so that two
label sets are equal when they have the same entries. Times are milliseconds. The template engine is
a parameter: what it makes of a text is not modelled, only which texts it is given.
-/

namespace Esmetrics.Esmalert

/-- A `BTreeMap<String, String>`. -/
abbrev StringMap : Type := Std.ExtTreeMap Bytes Bytes

/-- An `f64` of a sample: a finite number, or one of the other classes. The staleness marker is one
bit pattern of NaN. -/
inductive SampleValue where
  | num (q : ℚ)
  | posInf
  | negInf
  | nan
  | staleNan
deriving DecidableEq

/-- The conversion `as f64` of an `i64`: it keeps 53 significant bits. -/
def SampleValue.ofInt (n : ℤ) : SampleValue :=
  if n < 0 then .num (-roundF64 (-n)) else .num (roundF64 n)

/-- The conversion `as i64`: towards zero, saturating, and zero for NaN. -/
def SampleValue.toI64 : SampleValue → ℤ
  | .num q => max (-2 ^ 63) (min (if q < 0 then ⌈q⌉ else ⌊q⌋) (2 ^ 63 - 1))
  | .posInf => 2 ^ 63 - 1
  | .negInf => -2 ^ 63
  | .nan => 0
  | .staleNan => 0

structure Sample where
  value : SampleValue
  timestamp : ℤ
deriving DecidableEq

structure Series where
  labels : List (Bytes × Bytes)
  samples : List Sample
deriving DecidableEq

/-- One series of a query result. -/
structure Metric where
  labels : List (Bytes × Bytes)
  timestamps : List ℤ
  values : List SampleValue

/-! ### Label names -/

/-- The metric name for the series reflecting the alert state. -/
def alertMetric : Bytes := ascii "ALERTS"

/-- The metric name for the series reflecting the moment an alert became active. -/
def alertForStateMetric : Bytes := ascii "ALERTS_FOR_STATE"

/-- The label naming the alert. -/
def alertNameLabel : Bytes := ascii "alertname"

/-- The label naming the alert's group. -/
def alertGroupLabel : Bytes := ascii "alertgroup"

/-- The label naming the alert's current state. -/
def alertStateLabel : Bytes := ascii "alertstate"

def nameLabel : Bytes := ascii "__name__"

/-- How long an alert is kept after it resolved. -/
def resolvedRetentionMs : ℤ := 15 * 60 * 1000

/-! ### The alert -/

inductive AlertState where
  | inactive
  | pending
  | firing
deriving DecidableEq

def AlertState.asStr : AlertState → Bytes
  | .inactive => ascii "inactive"
  | .pending => ascii "pending"
  | .firing => ascii "firing"

/-- A single active or recently resolved alert. -/
structure Alert where
  state : AlertState
  activeAt : ℤ
  keepFiringSince : Option ℤ
  resolvedAt : Option ℤ
  value : SampleValue
  labels : StringMap
  annotations : StringMap

/-- One step of the FNV-1a hash. -/
def fnvStep (h : UInt64) (b : UInt8) : UInt64 := (h ^^^ b.toUInt64) * 0x100000001b3

/-- The identity of a label set: a hash of its entries apart from `__name__`. -/
def hashLabels (labels : StringMap) : UInt64 :=
  labels.toList.foldl
    (fun h kv =>
      if kv.1 = nameLabel then h
      else fnvStep (kv.2.foldl fnvStep (kv.1.foldl fnvStep h)) 0xff)
    0xcbf29ce484222325

/-! ### Labels of an alert -/

/-- All the queried labels, and the labels of the alert. -/
structure LabelSet where
  origin : StringMap
  processed : StringMap

namespace LabelSet

def fromMetric (m : Metric) : LabelSet :=
  m.labels.foldl
    (fun ls kv =>
      { origin := ls.origin.insert kv.1 kv.2
        processed := if kv.1 = nameLabel then ls.processed else ls.processed.insert kv.1 kv.2 })
    ⟨∅, ∅⟩

/-- Adds a label. An empty value removes it; a queried value that differs is kept under another
name. -/
def add (ls : LabelSet) (k v : Bytes) : LabelSet :=
  if v = [] then { ls with processed := ls.processed.erase k }
  else
    let processed := ls.processed.insert k v
    match ls.origin[k]? with
    | none => { origin := ls.origin.insert k v, processed := processed }
    | some ov =>
      if ov ≠ v then { ls with processed := processed.insert (ascii "exported_" ++ k) ov }
      else { ls with processed := processed }

end LabelSet

/-- What a template is rendered against. -/
structure TplData where
  value : SampleValue
  alertType : Bytes
  labels : StringMap
  expr : Bytes
  alertId : UInt64
  groupId : UInt64
  activeAtMs : ℤ
  forMs : ℕ
  isPartial : Bool

/-- The template engine with its functions and its context: it parses and renders a text behind the
declarations of the variables. -/
structure Templates where
  render : Bytes → TplData → Except Bytes Bytes

/-- Renders every value of a map. A value without both delimiters is passed through; one that fails
becomes the text of the error. -/
def renderMap (tpl : Templates) (templates : StringMap) (data : TplData) : StringMap :=
  templates.map fun _ text =>
    if ¬ ascii "\x7b\x7b" <:+: text ∨ ¬ ascii "\x7d\x7d" <:+: text then text
    else
      match tpl.render text data with
      | .ok s => s
      | .error e => e

/-- The labels of the alert of one query result. -/
def buildAlertLabels (tpl : Templates) (m : Metric) (ruleLabels : StringMap)
    (ruleName groupName expr : Bytes) (disableAlertgroupLabel : Bool) : LabelSet :=
  let ls := LabelSet.fromMetric m
  let value := m.values.head?.getD (.num 0)
  let data : TplData := ⟨value, [], ls.origin, expr, 0, 0, 0, 0, false⟩
  let rendered := renderMap tpl ruleLabels data
  let ls := rendered.toList.foldl (fun ls kv => ls.add kv.1 kv.2) ls
  let ls := if ruleName ≠ [] then ls.add alertNameLabel ruleName else ls
  if disableAlertgroupLabel = false ∧ groupName ≠ [] then ls.add alertGroupLabel groupName else ls

/-! ### Series of an alert -/

/-- The order of the labels of a series. -/
def sortLabels (labels : List (Bytes × Bytes)) : List (Bytes × Bytes) := sortByKey Prod.fst labels

/-- Overwrites the first label with the name `alertstate`, or appends one. -/
def setAlertState (state : Bytes) : List (Bytes × Bytes) → List (Bytes × Bytes)
  | [] => [(alertStateLabel, state)]
  | (k, v) :: labels =>
    if k = alertStateLabel then (k, state) :: labels else (k, v) :: setAlertState state labels

/-- The `ALERTS` series of an active alert. -/
def alertTimeSeries (a : Alert) (ts : ℤ) : Series where
  labels := sortLabels (setAlertState a.state.asStr (a.labels.toList ++ [(nameLabel, alertMetric)]))
  samples := [⟨.num 1, ts⟩]

/-- The `ALERTS_FOR_STATE` series of an active alert. Its value is in whole seconds. -/
def alertForTimeSeries (a : Alert) (ts : ℤ) : Series where
  labels := sortLabels (a.labels.toList ++ [(nameLabel, alertForStateMetric)])
  samples := [⟨.ofInt (a.activeAt / 1000), ts⟩]

/-- A series with a staleness marker. -/
def staleSeries (labels : StringMap) (name : Bytes) (state : Option Bytes) (ts : ℤ) : Series where
  labels := sortLabels (labels.toList ++ [(nameLabel, name)] ++
    (state.map fun s => (alertStateLabel, s)).toList)
  samples := [⟨.staleNan, ts⟩]

/-- The staleness markers of an alert that leaves `pending`. -/
def pendingAlertStaleSeries (labels : StringMap) (ts : ℤ) (includeForState : Bool) : List Series :=
  staleSeries labels alertMetric (some AlertState.pending.asStr) ts ::
    if includeForState then [staleSeries labels alertForStateMetric none ts] else []

/-- The staleness markers of an alert that leaves `firing`. -/
def firingAlertStaleSeries (labels : StringMap) (ts : ℤ) : List Series :=
  [staleSeries labels alertMetric (some AlertState.firing.asStr) ts,
    staleSeries labels alertForStateMetric none ts]

end Esmetrics.Esmalert
