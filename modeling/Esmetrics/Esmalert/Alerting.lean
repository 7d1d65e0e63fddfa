import Mathlib.Data.Finset.Insert
import Esmetrics.Esmalert.Alert
import Esmetrics.Lib.GroupFold

/-!
# Alerting rules

Model of `esmalert/src/rule/alerting.rs`: one evaluation of a rule evicts the alerts that resolved
long ago, updates the alerts of the query's results, resolves the alerts that are absent and
promotes those that were active long enough.

The order in which the entries of a hash map are visited is a parameter; it only decides the order
of the series. Timestamps are unbounded integers: the statements about whole runs say where the
differences of their timestamps have to fit an `i64`.

What an evaluation does to the alert of one identity depends on this alert and on the result of this
identity alone: `Evaluated.getElem?_eq` reduces it to `alertStep`.
-/

namespace Esmetrics.Esmalert

open List

/-- The result of a query. -/
structure QueryResult where
  data : List Metric
  isPartial : Option Bool

/-- The datasource: what it answers to an expression at a time. -/
abbrev Querier : Type := Bytes → ℤ → Except Bytes QueryResult

/-- Why an evaluation failed: the query `failed to execute`, or two results have the same labels. -/
inductive RuleError where
  | query (expr e : Bytes)
  | duplicate (labels : StringMap)
  | limitExceeded (limit numSeries : ℤ)
  | duplicateSeries (metric : List (Bytes × Bytes)) (key : Bytes)

/-- The live alerts by their identities. -/
abbrev AlertMap : Type := Std.ExtTreeMap UInt64 Alert

/-- The order in which the live alerts are visited. -/
abbrev AlertOrder : Type := IterOrder (UInt64 × Alert)

structure AlertingRule where
  id : UInt64
  name : Bytes
  groupName : Bytes
  expr : Bytes
  forDuration : ℕ
  keepFiringFor : ℕ
  labels : StringMap
  annotations : StringMap
  disableAlertgroupLabel : Bool
  alerts : AlertMap

/-- The identity, the labels and the annotations of one query result. -/
structure PendingAlert where
  id : UInt64
  labels : StringMap
  annotations : StringMap
  value : SampleValue

/-- A duration in milliseconds as an `i64`, cut to its largest value. -/
def clampMs (ms : ℕ) : ℤ := min (ms : ℤ) i64Max

/-! ### One alert -/

namespace Alert

/-- The alert resolved too long ago to be kept. -/
def Evictable (a : Alert) (ts : ℤ) : Prop :=
  a.state = .inactive ∧ ∃ r ∈ a.resolvedAt, resolvedRetentionMs < ts - r

instance (a : Alert) (ts : ℤ) : Decidable (a.Evictable ts) := by
  unfold Evictable
  infer_instance

/-- The alert of a result that was not tracked. -/
def new (p : PendingAlert) (ts : ℤ) : Alert where
  state := .pending
  activeAt := ts
  keepFiringSince := none
  resolvedAt := none
  value := p.value
  labels := p.labels
  annotations := p.annotations

/-- The alert of a result that was tracked. -/
def seenAgain (a : Alert) (p : PendingAlert) (ts : ℤ) : Alert :=
  let a := if a.state = .inactive then { a with state := .pending, activeAt := ts } else a
  { a with value := p.value, annotations := p.annotations, keepFiringSince := none }

/-- Starts the keep-firing period of an absent alert, unless it is running. -/
def startKeepFiring (a : Alert) (keepFiringForMs ts : ℤ) : Alert :=
  if 0 < keepFiringForMs ∧ a.keepFiringSince = none then { a with keepFiringSince := some ts }
    else a

/-- The time since the start of the keep-firing period; without one the alert resolves at once. -/
def keepFiringElapsed (a : Alert) (ts : ℤ) : ℤ :=
  (a.keepFiringSince.map fun s => ts - s).getD i64Max

/-- The alert at the end of its keep-firing period. -/
def resolved (a : Alert) (ts : ℤ) : Alert := { a with state := .inactive, resolvedAt := some ts }

/-- Resolves an absent alert: whether it is kept, and the staleness markers. -/
def resolve (a : Alert) (keepFiringForMs ts : ℤ) : Option Alert × List Series :=
  match a.state with
  | .pending => (none, pendingAlertStaleSeries a.labels ts true)
  | .firing =>
    let a := a.startKeepFiring keepFiringForMs ts
    if keepFiringForMs ≤ a.keepFiringElapsed ts then (some (a.resolved ts),
      firingAlertStaleSeries a.labels ts)
    else (some a, [])
  | .inactive => (some a, [])

/-- Promotes a pending alert that was active long enough. -/
def promote (a : Alert) (forMs ts : ℤ) : Alert × List Series :=
  if a.state = .pending ∧ forMs ≤ ts - a.activeAt then
    ({ a with state := .firing },
      if 0 < forMs then pendingAlertStaleSeries a.labels ts false else [])
  else (a, [])

/-- The part of a sweep that concerns one alert. -/
def sweep (a : Alert) (present : Bool) (forMs keepFiringForMs ts : ℤ) :
    Option Alert × List Series :=
  match if present then (some a, []) else a.resolve keepFiringForMs ts with
  | (none, stale) => (none, stale)
  | (some a, stale) => (some (a.promote forMs ts).1, stale ++ (a.promote forMs ts).2)

/-! ### One sweep -/

theorem resolve_of_pending {a : Alert} (h : a.state = .pending) (keepFiringForMs ts : ℤ) :
    a.resolve keepFiringForMs ts = (none, pendingAlertStaleSeries a.labels ts true) := by
  rw [resolve, h]

theorem resolve_of_inactive {a : Alert} (h : a.state = .inactive) (keepFiringForMs ts : ℤ) :
    a.resolve keepFiringForMs ts = (some a, []) := by
  rw [resolve, h]

/-- When an absent alert was first absent: now, unless it was before. -/
def absentSince (a : Alert) (ts : ℤ) : ℤ := a.keepFiringSince.getD ts

@[simp]
theorem startKeepFiring_state (a : Alert) (keepFiringForMs ts : ℤ) :
    (a.startKeepFiring keepFiringForMs ts).state = a.state := by
  rw [startKeepFiring]
  split_ifs <;> rfl

@[simp]
theorem startKeepFiring_labels (a : Alert) (keepFiringForMs ts : ℤ) :
    (a.startKeepFiring keepFiringForMs ts).labels = a.labels := by
  rw [startKeepFiring]
  split_ifs <;> rfl

@[simp]
theorem startKeepFiring_activeAt (a : Alert) (keepFiringForMs ts : ℤ) :
    (a.startKeepFiring keepFiringForMs ts).activeAt = a.activeAt := by
  rw [startKeepFiring]
  split_ifs <;> rfl

@[simp]
theorem startKeepFiring_resolvedAt (a : Alert) (keepFiringForMs ts : ℤ) :
    (a.startKeepFiring keepFiringForMs ts).resolvedAt = a.resolvedAt := by
  rw [startKeepFiring]
  split_ifs <;> rfl

variable {keepFiringForMs : ℤ}

theorem startKeepFiring_keepFiringSince {a : Alert} (hpos : 0 < keepFiringForMs) (ts : ℤ) :
    (a.startKeepFiring keepFiringForMs ts).keepFiringSince = some (a.absentSince ts) := by
  rw [startKeepFiring, absentSince]
  split_ifs with hstart
  · rw [hstart.2]
    rfl
  · obtain ⟨s, hs⟩ := Option.ne_none_iff_exists'.mp fun hnone => hstart ⟨hpos, hnone⟩
    rw [hs, Option.getD_some]

/-- An absent alert that fires resolves when the keep-firing period is over. -/
theorem resolve_of_firing {a : Alert} (h : a.state = .firing) (keepFiringForMs ts : ℤ) :
    a.resolve keepFiringForMs ts =
      if keepFiringForMs ≤ (a.startKeepFiring keepFiringForMs ts).keepFiringElapsed ts then
        (some ((a.startKeepFiring keepFiringForMs ts).resolved ts),
          firingAlertStaleSeries a.labels ts)
      else (some (a.startKeepFiring keepFiringForMs ts), []) := by
  rw [resolve, h]
  simp only [startKeepFiring_labels]

/-- The keep-firing period is over when its duration has passed since the alert was first absent. -/
theorem le_keepFiringElapsed_iff {a : Alert} (hkeep : 0 ≤ keepFiringForMs) (ts : ℤ)
    (hsince : a.keepFiringSince = none ∨ 0 < keepFiringForMs) :
    keepFiringForMs ≤ (a.startKeepFiring keepFiringForMs ts).keepFiringElapsed ts ↔
      keepFiringForMs ≤ ts - a.absentSince ts := by
  obtain rfl | hpos := hkeep.eq_or_lt
  · have hnone : a.keepFiringSince = none := hsince.resolve_right (lt_irrefl 0)
    simp [startKeepFiring, keepFiringElapsed, absentSince, hnone, i64Max]
  · rw [keepFiringElapsed, startKeepFiring_keepFiringSince hpos, Option.map_some, Option.getD_some]

theorem promote_of_ne_pending {a : Alert} (h : a.state ≠ .pending) (forMs ts : ℤ) :
    a.promote forMs ts = (a, []) := by
  rw [promote, if_neg fun hp => h hp.1]

theorem sweep_present (a : Alert) (forMs keepFiringForMs ts : ℤ) :
    a.sweep true forMs keepFiringForMs ts =
      (some (a.promote forMs ts).1, (a.promote forMs ts).2) := rfl

theorem sweep_of_pending {a : Alert} (h : a.state = .pending) (forMs keepFiringForMs ts : ℤ) :
    a.sweep false forMs keepFiringForMs ts = (none, pendingAlertStaleSeries a.labels ts true) := by
  rw [sweep, if_neg Bool.false_ne_true, resolve_of_pending h]

/-- An absent alert that is kept is not pending, so it is not promoted. -/
theorem sweep_of_resolve {a a' : Alert} {ts : ℤ} {stale : List Series}
    (h : a.resolve keepFiringForMs ts = (some a', stale)) (ha' : a'.state ≠ .pending) (forMs : ℤ) :
    a.sweep false forMs keepFiringForMs ts = (some a', stale) := by
  rw [sweep, if_neg Bool.false_ne_true, h]
  simp only [promote_of_ne_pending ha', append_nil]

theorem sweep_of_inactive {a : Alert} (h : a.state = .inactive) (forMs keepFiringForMs ts : ℤ) :
    a.sweep false forMs keepFiringForMs ts = (some a, []) :=
  sweep_of_resolve (resolve_of_inactive h _ _) (by simp [h]) forMs

theorem sweep_of_firing {a : Alert} (h : a.state = .firing) (forMs keepFiringForMs ts : ℤ) :
    a.sweep false forMs keepFiringForMs ts =
      if keepFiringForMs ≤ (a.startKeepFiring keepFiringForMs ts).keepFiringElapsed ts then
        (some ((a.startKeepFiring keepFiringForMs ts).resolved ts),
          firingAlertStaleSeries a.labels ts)
      else (some (a.startKeepFiring keepFiringForMs ts), []) := by
  have hres := resolve_of_firing h keepFiringForMs ts
  split_ifs at hres ⊢
  · exact sweep_of_resolve hres (by simp [resolved]) forMs
  · exact sweep_of_resolve hres (by simp [h]) forMs

end Alert

/-! ### The rule -/

/-- Creates or updates the alert of one result. -/
def applyUpdate (alerts : AlertMap) (p : PendingAlert) (ts : ℤ) : AlertMap :=
  match alerts[p.id]? with
  | some a => alerts.insert p.id (a.seenAgain p ts)
  | none => alerts.insert p.id (Alert.new p ts)

/-- Creates or updates the alerts of the results, and returns the identities seen. A second result
with an identity fails the evaluation; the alerts are updated up to it. -/
def applyUpdates (ts : ℤ) (updated : Finset UInt64) (alerts : AlertMap) :
    List PendingAlert → AlertMap × Except RuleError (Finset UInt64)
  | [] => (alerts, .ok updated)
  | p :: pending =>
    if p.id ∈ updated then (alerts, .error (.duplicate p.labels))
    else applyUpdates ts (insert p.id updated) (applyUpdate alerts p ts) pending

namespace AlertingRule

def forMs (rule : AlertingRule) : ℤ := clampMs rule.forDuration

def keepFiringForMs (rule : AlertingRule) : ℤ := clampMs rule.keepFiringFor

/-- The labels of the alert of a result. -/
def alertLabels (rule : AlertingRule) (tpl : Templates) (m : Metric) : LabelSet :=
  buildAlertLabels tpl m rule.labels rule.name rule.groupName rule.expr rule.disableAlertgroupLabel

/-- The identity and the annotations of one result. -/
def expandResult (rule : AlertingRule) (tpl : Templates) (isPartial : Bool) (ts : ℤ) (m : Metric) :
    PendingAlert :=
  let value := m.values.head?.getD (.num 0)
  let built := rule.alertLabels tpl m
  let id := hashLabels built.processed
  let activeAt :=
    match rule.alerts[id]? with
    | some a => if a.state ≠ .inactive then a.activeAt else ts
    | none => ts
  let data : TplData :=
    ⟨value, ascii "prometheus", built.origin, rule.expr, id, 0, activeAt,
      rule.forDuration, isPartial⟩
  ⟨id, built.processed, renderMap tpl rule.annotations data, value⟩

/-- The identities and the annotations of the results. -/
def expandResults (rule : AlertingRule) (tpl : Templates) (data : List Metric) (isPartial : Bool)
    (ts : ℤ) : List PendingAlert :=
  data.map (rule.expandResult tpl isPartial ts)

/-- Resolves the absent alerts and promotes the pending ones; returns the staleness markers of the
alerts that changed. -/
def sweepAndPromote (rule : AlertingRule) (order : AlertOrder) (updated : Finset UInt64) (ts : ℤ) :
    AlertingRule × List Series :=
  let swept := fun (id : UInt64) (a : Alert) =>
    a.sweep (decide (id ∈ updated)) rule.forMs rule.keepFiringForMs ts
  ({ rule with alerts := rule.alerts.filterMap fun id a => (swept id a).1 },
    (order.visit rule.alerts.toList).flatMap fun e => (swept e.1 e.2).2)

/-- The series of the active alerts. -/
def liveSeries (rule : AlertingRule) (order : AlertOrder) (ts : ℤ) : List Series :=
  (order.visit rule.alerts.toList).flatMap fun e =>
    if e.2.state = .inactive then [] else [alertTimeSeries e.2 ts, alertForTimeSeries e.2 ts]

/-- Evaluates the rule at `ts`: the staleness markers come first, then the live series. -/
def exec (rule : AlertingRule) (tpl : Templates) (order : AlertOrder) (q : Querier) (ts : ℤ) :
    AlertingRule × Except RuleError (List Series) :=
  match q rule.expr ts with
  | .error e => (rule, .error (.query rule.expr e))
  | .ok res =>
    let pending := rule.expandResults tpl res.data (res.isPartial.getD false) ts
    let kept := rule.alerts.filter fun _ a => ¬ a.Evictable ts
    match applyUpdates ts ∅ kept pending with
    | (alerts, .error e) => ({ rule with alerts := alerts }, .error e)
    | (alerts, .ok updated) =>
      let swept := sweepAndPromote { rule with alerts := alerts } order updated ts
      (swept.1, .ok (swept.2 ++ swept.1.liveSeries order ts))

/-- The alerts that are handed to the notifiers. -/
def alertsToSend (rule : AlertingRule) (order : AlertOrder) : List Alert :=
  ((order.visit rule.alerts.toList).map Prod.snd).filter fun a => a.state ≠ .pending

/-! ### One evaluation -/

/-- The results of the query, when it succeeds. -/
def results (rule : AlertingRule) (tpl : Templates) (q : Querier) (ts : ℤ) :
    Option (List PendingAlert) :=
  match q rule.expr ts with
  | .error _ => none
  | .ok res => some (rule.expandResults tpl res.data (res.isPartial.getD false) ts)

end AlertingRule

/-- The result of an identity. -/
def resultOf (pending : List PendingAlert) (id : UInt64) : Option PendingAlert :=
  pending.find? fun p => p.id = id

/-- What an update makes of the alert of one identity. -/
def alertUpdate (ts : ℤ) (result : Option PendingAlert) (o : Option Alert) : Option Alert :=
  match result with
  | none => o
  | some p => some ((o.map fun a => a.seenAgain p ts).getD (Alert.new p ts))

/-- What an eviction makes of the alert of one identity. -/
def alertKept (ts : ℤ) (o : Option Alert) : Option Alert := o.filter fun a => ¬ a.Evictable ts

/-- What a successful evaluation makes of the alert of one identity. -/
def alertStep (rule : AlertingRule) (ts : ℤ) (result : Option PendingAlert) (o : Option Alert) :
    Option Alert :=
  (alertUpdate ts result (alertKept ts o)).bind fun a =>
    (a.sweep result.isSome rule.forMs rule.keepFiringForMs ts).1

theorem resultOf_cons (p : PendingAlert) (pending : List PendingAlert) (id : UInt64) :
    resultOf (p :: pending) id = if p.id = id then some p else resultOf pending id := by
  rw [resultOf, find?_cons]
  by_cases hp : p.id = id
  · rw [if_pos hp]
    simp [hp]
  · rw [if_neg hp]
    simp [hp, resultOf]

variable {pending : List PendingAlert}

theorem resultOf_eq_none_iff {id : UInt64} :
    resultOf pending id = none ↔ id ∉ pending.map PendingAlert.id := by
  rw [resultOf, find?_eq_none]
  simp

theorem mem_of_resultOf_eq_some {id : UInt64} {p : PendingAlert}
    (h : resultOf pending id = some p) :
    p ∈ pending ∧ p.id = id :=
  ⟨mem_of_find?_eq_some h, by simpa using find?_some h⟩

theorem isSome_resultOf {id : UInt64} :
    (resultOf pending id).isSome ↔ id ∈ pending.map PendingAlert.id := by
  rw [← not_iff_not, ← resultOf_eq_none_iff]
  simp

theorem resultOf_id (h : (pending.map PendingAlert.id).Nodup) {p : PendingAlert}
    (hp : p ∈ pending) : resultOf pending p.id = some p := by
  obtain ⟨p', hp'⟩ := Option.isSome_iff_exists.mp
    (isSome_resultOf.mpr (mem_map_of_mem (f := PendingAlert.id) hp))
  obtain ⟨hmem, hid⟩ := mem_of_resultOf_eq_some hp'
  rw [hp', inj_on_of_nodup_map h hmem hp hid]

theorem getElem?_applyUpdate (alerts : AlertMap) (p : PendingAlert) (ts : ℤ) (id : UInt64) :
    (applyUpdate alerts p ts)[id]? =
      if p.id = id then alertUpdate ts (some p) alerts[id]? else alerts[id]? := by
  have hinsert : applyUpdate alerts p ts = alerts.insert p.id
      ((alerts[p.id]?.map fun a => a.seenAgain p ts).getD (Alert.new p ts)) := by
    rw [applyUpdate]
    split <;> rename_i h <;> rw [h] <;> rfl
  rw [hinsert, Std.ExtTreeMap.getElem?_insert]
  by_cases hp : p.id = id
  · subst hp
    simp [alertUpdate]
  · rw [if_neg hp, if_neg (by simpa using hp)]

/-- The updates reach some of the results, each with an identity of its own; they fail exactly when
these are not all. -/
theorem exists_applyUpdates (ts : ℤ) (pending : List PendingAlert) (updated : Finset UInt64)
    (alerts : AlertMap) : ∃ seen, seen <+: pending ∧ (seen.map PendingAlert.id).Nodup ∧
      (∀ p ∈ seen, p.id ∉ updated) ∧
      (∀ id : UInt64, (applyUpdates ts updated alerts pending).1[id]? =
        alertUpdate ts (resultOf seen id) alerts[id]?) ∧
      (∀ updated', (applyUpdates ts updated alerts pending).2 = .ok updated' → seen = pending ∧
        ∀ id, id ∈ updated' ↔ id ∈ updated ∨ id ∈ pending.map PendingAlert.id) ∧
      (∀ e, (applyUpdates ts updated alerts pending).2 = .error e →
        ¬ ((pending.map PendingAlert.id).Nodup ∧ ∀ p ∈ pending, p.id ∉ updated)) := by
  induction pending generalizing updated alerts with
  | nil =>
    refine ⟨[], prefix_rfl, nodup_nil, by simp, fun id => rfl, ?_, by simp [applyUpdates]⟩
    rintro updated' h
    injection h with h
    simp [h]
  | cons p pending ih =>
    rw [applyUpdates]
    by_cases hp : p.id ∈ updated
    · rw [if_pos hp]
      refine ⟨[], nil_prefix, nodup_nil, by simp, fun id => rfl, by simp, ?_⟩
      rintro e - ⟨-, hdisj⟩
      exact hdisj p mem_cons_self hp
    · rw [if_neg hp]
      obtain ⟨seen, hseen, hnodup, hdisj, hget, hok, herr⟩ :=
        ih (insert p.id updated) (applyUpdate alerts p ts)
      have hnew : p.id ∉ seen.map PendingAlert.id := by
        rintro hmem
        obtain ⟨p', hp', heq⟩ := mem_map.mp hmem
        exact hdisj p' hp' (heq ▸ Finset.mem_insert_self _ _)
      refine ⟨p :: seen, cons_prefix_cons.mpr ⟨rfl, hseen⟩,
        nodup_cons.mpr ⟨hnew, hnodup⟩, ?_, fun id => ?_, fun updated' h => ?_, ?_⟩
      · rintro p' hp'
        obtain rfl | hp' := mem_cons.mp hp'
        · exact hp
        · exact fun hmem => hdisj p' hp' (Finset.mem_insert_of_mem hmem)
      · rw [hget, getElem?_applyUpdate, resultOf_cons]
        by_cases hid : p.id = id
        · subst hid
          rw [if_pos rfl, if_pos rfl, resultOf_eq_none_iff.mpr hnew]
          rfl
        · rw [if_neg hid, if_neg hid]
      · obtain ⟨rfl, hmem⟩ := hok updated' h
        refine ⟨rfl, fun id => ?_⟩
        rw [hmem, Finset.mem_insert, map_cons, mem_cons]
        tauto
      · rintro e h ⟨hids, hfresh⟩
        obtain ⟨hids₀, hids⟩ := nodup_cons.mp hids
        refine herr e h ⟨hids, fun p' hp' hmem => ?_⟩
        obtain heq | hmem := Finset.mem_insert.mp hmem
        · exact hids₀ (heq ▸ mem_map_of_mem hp')
        · exact hfresh p' (mem_cons_of_mem _ hp') hmem

/-! ### What can happen to one alert -/

section Alert

variable {rule : AlertingRule} {ts : ℤ} {result : Option PendingAlert} {o : Option Alert}
  {a a' : Alert}

theorem Alert.seenAgain_state_ne_inactive (a : Alert) (p : PendingAlert) (ts : ℤ) :
    (a.seenAgain p ts).state ≠ .inactive := by
  by_cases h : a.state = .inactive <;> simp [Alert.seenAgain, h]

theorem Alert.seenAgain_state_eq_firing_iff {p : PendingAlert} :
    (a.seenAgain p ts).state = .firing ↔ a.state = .firing := by
  by_cases h : a.state = .inactive <;> simp [Alert.seenAgain, h]

@[simp]
theorem Alert.seenAgain_resolvedAt (a : Alert) (p : PendingAlert) (ts : ℤ) :
    (a.seenAgain p ts).resolvedAt = a.resolvedAt := by
  by_cases h : a.state = .inactive <;> simp [Alert.seenAgain, h]

/-- When the activation of a present alert starts. -/
def Alert.activeFrom (a : Alert) (ts : ℤ) : ℤ := if a.state = .inactive then ts else a.activeAt

@[simp]
theorem Alert.seenAgain_activeAt (a : Alert) (p : PendingAlert) (ts : ℤ) :
    (a.seenAgain p ts).activeAt = a.activeFrom ts := by
  by_cases h : a.state = .inactive <;> simp [Alert.seenAgain, Alert.activeFrom, h]

@[simp]
theorem Alert.promote_resolvedAt (a : Alert) (forMs ts : ℤ) :
    (a.promote forMs ts).1.resolvedAt = a.resolvedAt := by
  rw [Alert.promote]
  split_ifs <;> rfl

/-- The alert before a sweep: a kept one, one that is seen again, or a new one. -/
theorem alertUpdate_cases (h : alertUpdate ts result (alertKept ts o) = some a') :
    (result = none ∧ o = some a' ∧ ¬ a'.Evictable ts) ∨
      (∃ p a, result = some p ∧ o = some a ∧ ¬ a.Evictable ts ∧ a' = a.seenAgain p ts) ∨
      ∃ p, result = some p ∧ a' = Alert.new p ts := by
  have hkept : ∀ {a}, alertKept ts o = some a → o = some a ∧ ¬ a.Evictable ts := fun h => by
    obtain ⟨ho, hev⟩ := Option.filter_eq_some_iff.mp h
    exact ⟨ho, by simpa using hev⟩
  cases result with
  | none => exact .inl ⟨rfl, hkept h⟩
  | some p =>
    cases ho : alertKept ts o with
    | none =>
      rw [ho] at h
      exact .inr (.inr ⟨p, rfl, (Option.some.inj h).symm⟩)
    | some a =>
      rw [ho] at h
      exact .inr (.inl ⟨p, a, rfl, (hkept ho).1, (hkept ho).2, (Option.some.inj h).symm⟩)

/-- What a sweep makes of an absent alert. -/
theorem sweep_absent_cases {forMs keepFiringForMs : ℤ}
    (h : (a.sweep false forMs keepFiringForMs ts).1 = some a') :
    (a.state = .inactive ∧ a' = a) ∨
      (a.state = .firing ∧ a'.state = .inactive ∧ a'.resolvedAt = some ts) ∨
      (a.state = .firing ∧ a'.state = .firing ∧ a'.resolvedAt = a.resolvedAt) := by
  cases hstate : a.state with
  | pending =>
    rw [Alert.sweep_of_pending hstate] at h
    cases h
  | inactive =>
    rw [Alert.sweep_of_inactive hstate] at h
    exact .inl ⟨rfl, (Option.some.inj h).symm⟩
  | firing =>
    rw [Alert.sweep_of_firing hstate] at h
    split_ifs at h <;> cases h
    · exact .inr (.inl ⟨rfl, rfl, rfl⟩)
    · exact .inr (.inr ⟨rfl, by simpa using hstate, by simp⟩)

/-- What a successful evaluation makes of an alert. -/
theorem alertStep_cases (h : alertStep rule ts result o = some a') :
    (result = none ∧ o = some a' ∧ a'.state = .inactive) ∨
      (∃ a, result = none ∧ o = some a ∧ a.state = .firing ∧ a'.state = .inactive ∧
        a'.resolvedAt = some ts) ∨
      (∃ a, result = none ∧ o = some a ∧ a.state = .firing ∧ a'.state = .firing ∧
        a'.resolvedAt = a.resolvedAt) ∨
      (∃ p a, result = some p ∧ o = some a ∧ ¬ a.Evictable ts ∧
        a' = ((a.seenAgain p ts).promote rule.forMs ts).1) ∨
      ∃ p, result = some p ∧ a' = ((Alert.new p ts).promote rule.forMs ts).1 := by
  rw [alertStep, Option.bind_eq_some_iff] at h
  obtain ⟨a₁, hup, hsweep⟩ := h
  obtain ⟨rfl, ho, -⟩ | ⟨p, a, rfl, ho, hev, rfl⟩ | ⟨p, rfl, rfl⟩ := alertUpdate_cases hup
  · obtain ⟨hstate, rfl⟩ | ⟨hstate, hs, hr⟩ | ⟨hstate, hs, hr⟩ := sweep_absent_cases hsweep
    · exact .inl ⟨rfl, ho, hstate⟩
    · exact .inr (.inl ⟨a₁, rfl, ho, hstate, hs, hr⟩)
    · exact .inr (.inr (.inl ⟨a₁, rfl, ho, hstate, hs, hr⟩))
  · exact .inr (.inr (.inr (.inl ⟨p, a, rfl, ho, hev, (Option.some.inj hsweep).symm⟩)))
  · exact .inr (.inr (.inr (.inr ⟨p, rfl, (Option.some.inj hsweep).symm⟩)))

theorem Alert.promote_state_ne_inactive (h : a.state ≠ .inactive) (forMs ts : ℤ) :
    (a.promote forMs ts).1.state ≠ .inactive := by
  rw [Alert.promote]
  by_cases hprom : a.state = .pending ∧ forMs ≤ ts - a.activeAt
  · rw [if_pos hprom]
    exact fun hs => nomatch hs
  · rwa [if_neg hprom]

end Alert

namespace AlertingRule

/-- The query succeeds, and its results have distinct identities. -/
def Succeeds (rule : AlertingRule) (tpl : Templates) (q : Querier) (ts : ℤ) : Prop :=
  ∃ pending, rule.results tpl q ts = some pending ∧ (pending.map PendingAlert.id).Nodup

/-- What a successful evaluation does: with the alerts that are kept and updated, the rule is
swept. -/
structure Evaluated (rule : AlertingRule) (order : AlertOrder) (ts : ℤ)
    (pending : List PendingAlert) (alerts : AlertMap) (updated : Finset UInt64)
    (rule' : AlertingRule) (tss : List Series) : Prop where
  nodup : (pending.map PendingAlert.id).Nodup
  mem_updated : ∀ id, id ∈ updated ↔ id ∈ pending.map PendingAlert.id
  getElem?_alerts : ∀ id : UInt64,
    alerts[id]? = alertUpdate ts (resultOf pending id) (alertKept ts rule.alerts[id]?)
  rule_eq : rule' = (sweepAndPromote { rule with alerts := alerts } order updated ts).1
  series_eq : tss = (sweepAndPromote { rule with alerts := alerts } order updated ts).2 ++
    rule'.liveSeries order ts

/-- What a failed evaluation does: some of the alerts may be updated, and none is swept. -/
structure Failed (rule : AlertingRule) (ts : ℤ) (pending : List PendingAlert)
    (rule' : AlertingRule) : Prop where
  eq : rule' = { rule with alerts := rule'.alerts }
  getElem?_alerts : (∀ id : UInt64, rule'.alerts[id]? = rule.alerts[id]?) ∨ ∃ seen,
    seen <+: pending ∧
    ∀ id : UInt64,
      rule'.alerts[id]? = alertUpdate ts (resultOf seen id) (alertKept ts rule.alerts[id]?)

/-- What an evaluation can do. -/
theorem exec_cases (rule : AlertingRule) (tpl : Templates) (order : AlertOrder) (q : Querier)
    (ts : ℤ) :
    (∃ e, (rule.exec tpl order q ts).2 = .error e ∧ ¬ rule.Succeeds tpl q ts ∧
      rule.Failed ts ((rule.results tpl q ts).getD []) (rule.exec tpl order q ts).1) ∨
    ∃ pending alerts updated tss, rule.results tpl q ts = some pending ∧
      (rule.exec tpl order q ts).2 = .ok tss ∧
      rule.Evaluated order ts pending alerts updated (rule.exec tpl order q ts).1 tss := by
  unfold exec
  split
  · rename_i e hq
    refine .inl ⟨_, rfl, ?_, ⟨rfl, .inl fun id => rfl⟩⟩
    rintro ⟨pending, hres, -⟩
    rw [results, hq] at hres
    cases hres
  · rename_i res hq
    have hres : rule.results tpl q ts =
        some (rule.expandResults tpl res.data (res.isPartial.getD false) ts) := by
      rw [results, hq]
    rw [hres]
    obtain ⟨seen, hseen, hnodup, -, hget, hok, herr⟩ := exists_applyUpdates ts
      (rule.expandResults tpl res.data (res.isPartial.getD false) ts) ∅
      (rule.alerts.filter fun _ a => ¬ a.Evictable ts)
    simp only [Std.ExtTreeMap.getElem?_filter'] at hget
    cases happly : applyUpdates ts ∅ (rule.alerts.filter fun _ a => ¬ a.Evictable ts)
      (rule.expandResults tpl res.data (res.isPartial.getD false) ts) with
    | mk alerts updated =>
      rw [happly] at hget hok herr
      cases updated with
      | error e =>
        refine .inl ⟨e, by simp only [happly], ?_, ?_⟩
        · rintro ⟨pending, hres', hids⟩
          rw [hres] at hres'
          cases hres'
          exact herr e rfl ⟨hids, by simp⟩
        · simp only [happly]
          exact ⟨rfl, .inr ⟨seen, hseen, hget⟩⟩
      | ok updated =>
        obtain ⟨rfl, hmem⟩ := hok updated rfl
        simp only [happly]
        refine .inr ⟨_, alerts, updated, _, rfl, rfl, ?_⟩
        exact ⟨hnodup, fun id => (hmem id).trans (by simp only [Finset.notMem_empty, false_or]),
          hget, rfl, rfl⟩

/-- **One evaluation, one identity.** A successful evaluation changes the alert of an identity as a
function of this alert and of the result of this identity. -/
theorem Evaluated.getElem?_eq {rule rule' : AlertingRule} {order : AlertOrder} {ts : ℤ}
    {pending : List PendingAlert} {alerts : AlertMap} {updated : Finset UInt64} {tss : List Series}
    (h : rule.Evaluated order ts pending alerts updated rule' tss) (id : UInt64) :
    rule'.alerts[id]? = alertStep rule ts (resultOf pending id) rule.alerts[id]? := by
  have hpresent : decide (id ∈ updated) = (resultOf pending id).isSome := by
    rw [Bool.eq_iff_iff, decide_eq_true_iff, isSome_resultOf, h.mem_updated]
  rw [h.rule_eq, sweepAndPromote, alertStep, ← h.getElem?_alerts, ← hpresent]
  simp only [Std.ExtTreeMap.getElem?_filterMap']
  rfl

/-- An evaluation changes nothing of a rule but its alerts. -/
theorem exec_fst (rule : AlertingRule) (tpl : Templates) (order : AlertOrder)
    (q : Querier) (ts : ℤ) : (rule.exec tpl order q ts).1 =
      { rule with alerts := (rule.exec tpl order q ts).1.alerts } := by
  obtain ⟨e, -, -, hfailed⟩ | ⟨pending, alerts, updated, tss, -, -, heval⟩ :=
    rule.exec_cases tpl order q ts
  · exact hfailed.eq
  · rw [heval.rule_eq]
    rfl

theorem exec_ok_iff {rule : AlertingRule} {tpl : Templates} {order : AlertOrder} {q : Querier}
    {ts : ℤ} : (∃ tss, (rule.exec tpl order q ts).2 = .ok tss) ↔ rule.Succeeds tpl q ts := by
  obtain ⟨e, herr, hnot, -⟩ | ⟨pending, alerts, updated, tss, hres, hok, heval⟩ :=
    rule.exec_cases tpl order q ts
  · exact ⟨fun ⟨tss, h⟩ => (by rw [herr] at h; cases h), fun h => absurd h hnot⟩
  · exact ⟨fun _ => ⟨pending, hres, heval.nodup⟩, fun _ => ⟨tss, hok⟩⟩

end AlertingRule

end Esmetrics.Esmalert
