import Esmetrics.Esmalert.Notifications
import Esmetrics.Esmalert.RestoreQuery
import Esmetrics.Esmalert.StaleSeries

/-!
# Restoring the state of alerts

Model of `esmalert/src/remoteread/mod.rs`, and of how `esm-promql/src/rollup.rs` answers its query.
A new process asks for the last sample of each `ALERTS_FOR_STATE` series of a rule within a lookback
window, and starts with one pending alert for each series in the answer.

The store holds the samples that the previous process wrote. The engine drops staleness markers
before it looks for the last sample, so an alert that resolved within the window has one: it is
restored. The tracked alerts are the active ones after the last evaluation in the window exactly
when no label set with a live sample in the window is inactive after this evaluation; and where the
query is not one of the query language, exactly when no alert is active then (`restore_exact_iff`).
-/

namespace Esmetrics.Esmalert

open List

/-! ### The query engine -/

/-- Drops staleness markers, unless the function needs them. -/
def dropStaleNans (funcName : Bytes) (samples : List Sample) (noStaleMarkers : Bool) :
    List Sample :=
  if noStaleMarkers ∨ funcName = ascii "default_rollup" ∨ funcName = ascii "stale_samples_over_time"
    then samples
  else samples.filter fun s => s.value ≠ .staleNan

/-- The lookbehind window of an instant query in milliseconds; one that is not given is a step. -/
def rollupWindow (window step : ℤ) : ℤ := if window ≤ 0 then step else window

/-- The value of `last_over_time` at `t`: the last of the samples after `t - window` and up to
`t`. -/
def lastOverTime (samples : List Sample) (window t : ℤ) : Option SampleValue :=
  ((dropStaleNans (ascii "last_over_time") samples false).filter fun s =>
    t - window < s.timestamp ∧ s.timestamp ≤ t).getLast?.map Sample.value

/-- The labels satisfy a matcher `label="value"`: an empty value asks for no label. -/
def matchesLabel (labels : List (Bytes × Bytes)) (filter : Bytes × Bytes) : Bool :=
  if filter.2 = [] then decide (filter.1 ∉ labels.map Prod.fst) else decide (filter ∈ labels)

/-! ### The restore -/

namespace AlertingRule

/-- Restores one series of the answer: it sets the time the alert became active, or seeds a pending
alert. -/
def restoreSeries (alerts : AlertMap) (m : Metric) : AlertMap :=
  let labels : StringMap := .ofList (m.labels.filter fun kv => kv.1 ≠ nameLabel)
  let value := m.values.head?.getD (.num 0)
  let activeAt := value.toI64 * 1000
  let id := hashLabels labels
  match alerts[id]? with
  | some a => alerts.insert id { a with activeAt := activeAt }
  | none => alerts.insert id ⟨.pending, activeAt, none, none, .num 0, labels, ∅⟩

/-- Restores the alerts from the series a previous run wrote, as of one second before `ts`. -/
def restore (rule : AlertingRule) (q : Querier) (ts : ℤ) (lookback : ℕ) :
    AlertingRule × Except RuleError Unit :=
  let expr :=
    buildRestoreQuery rule.name rule.groupName rule.disableAlertgroupLabel lookback
  match q expr (ts - 1000) with
  | .error e => (rule, .error (.query expr e))
  | .ok res => ({ rule with alerts := res.data.foldl restoreSeries rule.alerts }, .ok ())

/-- The matchers of the restore query of a rule. -/
def restoreFilters (rule : AlertingRule) : List (Bytes × Bytes) :=
  Esmalert.restoreFilters rule.name rule.groupName rule.disableAlertgroupLabel

/-- The restore query of a rule is one of the query language: its names have no line break. -/
def RestoreQueryParses (rule : AlertingRule) : Prop :=
  Esmalert.RestoreQueryParses rule.name rule.groupName rule.disableAlertgroupLabel

end AlertingRule

/-! ### The store -/

namespace Evaluations

variable (ev : Evaluations) (rule : AlertingRule) (n : ℕ)

/-- The series that the first `n` evaluations wrote. -/
def written : List Series := (List.range n).flatMap (ev.seriesAt rule)

/-- The samples of a series, in the order in which they were written. -/
def samplesOf (labels : List (Bytes × Bytes)) : List Sample :=
  ((ev.written rule n).filter fun s => s.labels = labels).flatMap Series.samples

/-- The answer of the store to a restore query: the last sample of each series that satisfies its
matchers. The order of the series is not defined. -/
def restoreAnswer (order : IterOrder (List (Bytes × Bytes))) (filters : List (Bytes × Bytes))
    (window t : ℤ) : List Metric :=
  (order.visit (((ev.written rule n).map Series.labels).dedup.filter fun labels =>
    filters.all (matchesLabel labels))).filterMap fun labels =>
      (lastOverTime (ev.samplesOf rule n labels) window t).map fun value =>
        ⟨labels, [t / 1000], [value]⟩

/-- The store as a datasource: it reads the query and answers it. -/
def store (order : IterOrder (List (Bytes × Bytes))) (step : ℤ) : Querier :=
  fun expr t =>
    match parseRestoreQuery expr with
    | some (filters, window) =>
      .ok ⟨ev.restoreAnswer rule n order filters (rollupWindow window step) t, none⟩
    | none => .error (ascii "cannot parse the query")

end Evaluations

/-! ### Labels -/

variable {labels : StringMap}

/-- Only the series `ALERTS_FOR_STATE` satisfy the matcher of their name. -/
theorem name_not_mem_alertsLabels (h : nameLabel ∉ labels) (state : AlertState) :
    (nameLabel, alertForStateMetric) ∉ alertsLabels labels state := by
  rw [alertsLabels, mem_sortLabels, mem_setAlertState (by decide), mem_append,
    mem_singleton, Std.ExtTreeMap.mem_toList_iff_getElem?_eq_some,
    Std.ExtTreeMap.getElem?_eq_none h]
  decide

theorem mem_forStateLabels {k v : Bytes} :
    (k, v) ∈ forStateLabels labels ↔ labels[k]? = some v ∨
    (k, v) = (nameLabel, alertForStateMetric) := by
  rw [forStateLabels, mem_sortLabels, mem_append, mem_singleton,
    Std.ExtTreeMap.mem_toList_iff_getElem?_eq_some]

theorem forStateLabels_injective {labels' : StringMap} (h : nameLabel ∉ labels)
    (h' : nameLabel ∉ labels')
    (heq : forStateLabels labels = forStateLabels labels') :
    labels = labels' := by
  refine Std.ExtTreeMap.ext_getElem? fun k => ?_
  by_cases hk : k = nameLabel
  · rw [hk, Std.ExtTreeMap.getElem?_eq_none h, Std.ExtTreeMap.getElem?_eq_none h']
  · refine Option.ext fun v => ?_
    have hmem : (k, v) ∈ forStateLabels labels ↔ (k, v) ∈ forStateLabels labels' := by rw [heq]
    simpa [mem_forStateLabels, hk] using hmem

/-- Without its name, a series `ALERTS_FOR_STATE` has the labels of its alert. -/
theorem ofList_forStateLabels (h : nameLabel ∉ labels) :
    (Std.ExtTreeMap.ofList ((forStateLabels labels).filter fun kv => kv.1 ≠ nameLabel) :
      StringMap) = labels := by
  have hmem : ∀ {k v : Bytes}, (k, v) ∈ ((forStateLabels labels).filter fun kv =>
      kv.1 ≠ nameLabel) ↔
      labels[k]? = some v := by
    intro k v
    rw [mem_filter, mem_forStateLabels, decide_eq_true_iff]
    constructor
    · rintro ⟨hv | hv, hk⟩
      · exact hv
      · exact absurd (congrArg Prod.fst hv) hk
    · refine fun hv => ⟨.inl hv, ?_⟩
      rintro rfl
      rw [Std.ExtTreeMap.getElem?_eq_none h] at hv
      cases hv
  have hdistinct : ((forStateLabels labels).filter fun kv => kv.1 ≠ nameLabel).Pairwise
      fun a b => ¬ compare a.1 b.1 = .eq := by
    have hnodup := pairwise_map.mp (nodup_forStateLabels h)
    exact (hnodup.sublist filter_sublist).imp fun hne heq => hne (by simpa using heq)
  refine Std.ExtTreeMap.ext_getElem? fun k => ?_
  cases hv : labels[k]? with
  | some v => exact Std.ExtTreeMap.getElem?_ofList_of_mem (by simp) hdistinct (hmem.mpr hv)
  | none =>
    refine Std.ExtTreeMap.getElem?_ofList_of_contains_eq_false (Bool.eq_false_iff.mpr fun hk => ?_)
    obtain ⟨⟨k', v⟩, hkv, rfl⟩ := mem_map.mp (contains_iff_mem.mp hk)
    cases hv.symm.trans (hmem.mp hkv)

theorem getElem?_add_of_ne {ls : LabelSet} {k k' v v' : Bytes} (h : ls.processed[k']? = some v')
    (hk : k' ≠ k) (hexported : k' ≠ ascii "exported_" ++ k) :
    (ls.add k v).processed[k']? = some v' := by
  rw [LabelSet.add]
  have hinsert : (ls.processed.insert k v)[k']? = some v' := by
    rw [Std.ExtTreeMap.getElem?_insert, if_neg (by simpa using Ne.symm hk), h]
  split_ifs
  · rw [Std.ExtTreeMap.getElem?_erase, if_neg (by simpa using Ne.symm hk), h]
  · dsimp only
    split
    · exact hinsert
    · split_ifs
      · rw [Std.ExtTreeMap.getElem?_insert, if_neg (by simpa using Ne.symm hexported), hinsert]
      · exact hinsert

theorem getElem?_add_self {ls : LabelSet} {k v : Bytes} (hv : v ≠ [])
    (hexported : k ≠ ascii "exported_" ++ k) : (ls.add k v).processed[k]? = some v := by
  rw [LabelSet.add, if_neg hv]
  dsimp only
  split
  · simp
  · split_ifs
    · rw [Std.ExtTreeMap.getElem?_insert, if_neg (by simpa using Ne.symm hexported)]
      simp
    · simp

/-- The labels of an alert satisfy the matchers of its rule. -/
theorem restoreFilters_mem {rule : AlertingRule} (hname : rule.name ≠ []) {tpl : Templates}
    {q : Querier} {ts : ℤ} (h : labels ∈ rule.resultLabels tpl q ts) :
    rule.restoreFilters.all (matchesLabel (forStateLabels labels)) = true := by
  have hmatch : ∀ {k v : Bytes}, v ≠ [] → labels[k]? = some v →
      matchesLabel (forStateLabels labels) (k, v) = true := fun hv hk => by
    rw [matchesLabel, if_neg hv, decide_eq_true_iff]
    exact mem_forStateLabels.mpr (.inl hk)
  rw [AlertingRule.resultLabels] at h
  split at h
  · cases h
  · obtain ⟨m, -, rfl⟩ := mem_map.mp h
    have hself : ∀ k : Bytes, k ≠ ascii "exported_" ++ k := fun k hk => by
      have hlen := congrArg List.length hk
      rw [length_append] at hlen
      exact absurd hlen (by simp [ascii])
    have hfilters : ∀ f ∈ rule.restoreFilters, f = (nameLabel, alertForStateMetric) ∨
        f.2 ≠ [] ∧ (rule.alertLabels tpl m).processed[f.1]? = some f.2 := by
      rw [AlertingRule.alertLabels, buildAlertLabels, if_pos hname,
        AlertingRule.restoreFilters, restoreFilters]
      by_cases hgroup : rule.disableAlertgroupLabel = false ∧ rule.groupName ≠ []
      · rw [if_pos hgroup, if_pos hgroup]
        intro f hf
        simp only [cons_append, nil_append, mem_cons, not_mem_nil, or_false] at hf
        obtain rfl | rfl | rfl := hf
        · exact .inl rfl
        · exact .inr ⟨hname, getElem?_add_of_ne (getElem?_add_self hname (hself _))
            (show alertNameLabel ≠ alertGroupLabel by decide)
            (show alertNameLabel ≠ ascii "exported_" ++ alertGroupLabel by decide)⟩
        · exact .inr ⟨hgroup.2, getElem?_add_self hgroup.2 (hself _)⟩
      · rw [if_neg hgroup, if_neg hgroup]
        intro f hf
        simp only [append_nil, mem_cons, not_mem_nil, or_false] at hf
        obtain rfl | rfl := hf
        · exact .inl rfl
        · exact .inr ⟨hname, getElem?_add_self hname (hself _)⟩
    refine all_eq_true.mpr fun f hf => ?_
    obtain rfl | ⟨hv, hget⟩ := hfilters f hf
    · rw [matchesLabel, if_neg (by decide), decide_eq_true_iff]
      exact mem_forStateLabels.mpr (.inr rfl)
    · exact hmatch hv hget

/-! ### What the query sees -/

/-- The last element of what the numbers below `n` give comes from the last of them that gives
one. -/
theorem exists_of_getLast?_flatMap_range {α : Type} {f : ℕ → List α} {n : ℕ} {x : α}
    (h : ((List.range n).flatMap f).getLast? = some x) :
    ∃ k < n, x ∈ f k ∧ ∀ j, k < j → j < n → f j = [] := by
  induction n with
  | zero => cases h
  | succ n ih =>
    rw [range_succ, flatMap_append, flatMap_singleton] at h
    by_cases hn : f n = []
    · rw [hn, append_nil] at h
      obtain ⟨k, hk, hx, hlast⟩ := ih h
      refine ⟨k, hk.trans (Nat.lt_succ_self n), hx, fun j hkj hj => ?_⟩
      obtain hj | rfl := Nat.lt_succ_iff_lt_or_eq.mp hj
      · exact hlast j hkj hj
      · exact hn
    · rw [getLast?_append_of_ne_nil _ hn] at h
      exact ⟨n, Nat.lt_succ_self n, mem_of_getLast? h, fun j hnj hj => absurd hj (by omega)⟩

namespace Evaluations

variable {ev : Evaluations} {rule : AlertingRule} {n k : ℕ} {window t : ℤ} {a : Alert}

/-- The alert is active after an evaluation. -/
def ActiveAfter (ev : Evaluations) (rule : AlertingRule) (k : ℕ) (a : Alert) : Prop :=
  (ev.after rule (k + 1)).alerts[hashLabels a.labels]? = some a ∧ a.state ≠ .inactive

/-- An evaluation whose samples are in the window of the query. -/
structure SeenAt (ev : Evaluations) (rule : AlertingRule) (n : ℕ) (window t : ℤ)
    (k : ℕ) : Prop where
  lt : k < n
  succeeds : ev.SucceedsAt rule k
  after_start : t - window < ev.time k
  le_end : ev.time k ≤ t

/-- The last evaluation in the window. -/
def LastSeen (ev : Evaluations) (rule : AlertingRule) (n : ℕ) (window t : ℤ) (k : ℕ) : Prop :=
  ev.SeenAt rule n window t k ∧ ∀ j, ev.SeenAt rule n window t j → j ≤ k

theorem succeedsAt_of_mem_seriesAt {s : Series} (h : s ∈ ev.seriesAt rule k) :
    ev.SucceedsAt rule k := by
  rw [seriesAt] at h
  cases hexec : ((ev.after rule k).exec ev.tpl (ev.order k) (ev.querier k) (ev.time k)).2 with
  | ok tss => exact ⟨tss, hexec⟩
  | error e =>
    rw [hexec] at h
    cases h

/-- The series of an evaluation: staleness markers, and the live series of the active alerts. -/
theorem mem_seriesAt_cases (hfresh : rule.alerts = ∅) {s : Series} (h : s ∈ ev.seriesAt rule k) :
    s.samples = staleSamples (ev.time k) ∨ ∃ a, ev.ActiveAfter rule k a ∧
      (s = alertTimeSeries a (ev.time k) ∨ s = alertForTimeSeries a (ev.time k)) := by
  obtain ⟨pending, alerts, stale, live, hstep⟩ := exists_step (succeedsAt_of_mem_seriesAt h)
  rw [hstep.series_eq, mem_append] at h
  obtain hs | hs := h
  · obtain ⟨id, hs⟩ := hstep.mem_stale.mp hs
    exact .inl (samples_of_mem_alertStale hs)
  · rw [hstep.live_eq, AlertingRule.liveSeries, mem_flatMap] at hs
    obtain ⟨⟨id, a⟩, hmem, hs⟩ := hs
    rw [((ev.order k).perm _).mem_iff, Std.ExtTreeMap.mem_toList_iff_getElem?_eq_some] at hmem
    split_ifs at hs with hstate
    · cases hs
    · obtain ⟨-, rfl⟩ := labelled_after hfresh (k + 1) id a hmem
      exact .inr ⟨a, ⟨hmem, hstate⟩, mem_pair.mp hs⟩

theorem forTimeSeries_mem_seriesAt (hok : ev.SucceedsAt rule k) (h : ev.ActiveAfter rule k a) :
    alertForTimeSeries a (ev.time k) ∈ ev.seriesAt rule k := by
  obtain ⟨pending, alerts, stale, live, hstep⟩ := exists_step hok
  rw [hstep.series_eq, hstep.live_eq, AlertingRule.liveSeries]
  refine mem_append_right _ (mem_flatMap.mpr ⟨(hashLabels a.labels, a), ?_, ?_⟩)
  · rw [((ev.order k).perm _).mem_iff, Std.ExtTreeMap.mem_toList_iff_getElem?_eq_some]
    exact h.1
  · rw [if_neg h.2]
    exact mem_pair.mpr (.inr rfl)

theorem nameLabel_not_mem_of_activeAfter (hfresh : rule.alerts = ∅)
    (hrule : nameLabel ∉ rule.labels)
    (h : ev.ActiveAfter rule k a) : nameLabel ∉ a.labels :=
  nameLabel_not_mem_of_involved hfresh hrule h.1

/-- The samples of an evaluation that the query sees in a series. -/
def visible (ev : Evaluations) (rule : AlertingRule) (window t : ℤ) (labels : List (Bytes × Bytes))
    (k : ℕ) : List Sample :=
  ((((ev.seriesAt rule k).filter fun s => s.labels = labels).flatMap Series.samples).filter fun s =>
    s.value ≠ .staleNan).filter fun s => t - window < s.timestamp ∧ s.timestamp ≤ t

theorem lastOverTime_samplesOf (labels : List (Bytes × Bytes)) :
    lastOverTime (ev.samplesOf rule n labels) window t =
      ((List.range n).flatMap (ev.visible rule window t labels)).getLast?.map Sample.value := by
  have hvisible : ev.visible rule window t labels = fun k =>
      (((ev.seriesAt rule k).filter fun s => s.labels = labels).flatMap fun s =>
        (s.samples.filter fun s => s.value ≠ .staleNan).filter fun s =>
          t - window < s.timestamp ∧ s.timestamp ≤ t) := by
    funext k
    simp only [visible, filter_flatMap]
  rw [lastOverTime, dropStaleNans, if_neg (by decide), samplesOf, written, hvisible]
  simp only [filter_flatMap, flatMap_assoc]

/-- The samples that the query sees in a series `ALERTS_FOR_STATE`: the live ones, from when the
alert was active. -/
theorem mem_visible_iff (hfresh : rule.alerts = ∅) (hrule : nameLabel ∉ rule.labels)
    {labels : List (Bytes × Bytes)} (hlabels : (nameLabel, alertForStateMetric) ∈ labels)
    {x : Sample} : x ∈ ev.visible rule window t labels k ↔
      (ev.SucceedsAt rule k ∧ t - window < ev.time k ∧ ev.time k ≤ t) ∧
        ∃ a, ev.ActiveAfter rule k a ∧ forStateLabels a.labels = labels ∧
          x = ⟨.ofInt (a.activeAt / 1000), ev.time k⟩ := by
  rw [visible, mem_filter, mem_filter, mem_flatMap]
  simp only [mem_filter, decide_eq_true_iff]
  constructor
  · rintro ⟨⟨⟨s, ⟨hs, rfl⟩, hx⟩, hlive⟩, hwindow⟩
    obtain hsamples | ⟨a, ha, rfl | rfl⟩ := mem_seriesAt_cases hfresh hs
    · rw [hsamples, staleSamples, mem_singleton] at hx
      exact absurd (congrArg Sample.value hx) hlive
    · exact absurd hlabels
        (name_not_mem_alertsLabels (nameLabel_not_mem_of_activeAfter hfresh hrule ha) a.state)
    · obtain rfl := mem_singleton.mp hx
      exact ⟨⟨succeedsAt_of_mem_seriesAt hs, hwindow⟩, a, ha, rfl, rfl⟩
  · rintro ⟨⟨hok, hwindow⟩, a, ha, rfl, rfl⟩
    refine ⟨⟨⟨_, ⟨forTimeSeries_mem_seriesAt hok ha, rfl⟩, mem_singleton_self _⟩, ?_⟩, hwindow⟩
    simp only [SampleValue.ofInt]
    split_ifs <;> simp

/-- The value of a series in the answer: when its alert became active, as of the last evaluation in
the window after which it was active. -/
theorem exists_of_lastOverTime (hfresh : rule.alerts = ∅) (hrule : nameLabel ∉ rule.labels)
    {labels : List (Bytes × Bytes)} (hlabels : (nameLabel, alertForStateMetric) ∈ labels)
    {v : SampleValue} (h : lastOverTime (ev.samplesOf rule n labels) window t = some v) :
    ∃ k a, ev.SeenAt rule n window t k ∧ ev.ActiveAfter rule k a ∧
      forStateLabels a.labels = labels ∧ v = .ofInt (a.activeAt / 1000) ∧
      ∀ j a', k < j → ev.SeenAt rule n window t j → ev.ActiveAfter rule j a' →
        forStateLabels a'.labels ≠ labels := by
  rw [lastOverTime_samplesOf, Option.map_eq_some_iff] at h
  obtain ⟨x, hx, rfl⟩ := h
  obtain ⟨k, hk, hmem, hlast⟩ := exists_of_getLast?_flatMap_range hx
  obtain ⟨⟨hok, hstart, hend⟩, a, ha, rfl, rfl⟩ := (mem_visible_iff hfresh hrule hlabels).mp hmem
  refine ⟨k, a, ⟨hk, hok, hstart, hend⟩, ha, rfl, rfl, fun j a' hkj hj ha' heq => ?_⟩
  have hvisible : ⟨.ofInt (a'.activeAt / 1000), ev.time j⟩ ∈
      ev.visible rule window t (forStateLabels a.labels) j :=
      (mem_visible_iff hfresh hrule hlabels).mpr
    ⟨⟨hj.succeeds, hj.after_start, hj.le_end⟩, a', ha', heq, rfl⟩
  rw [hlast j hkj hj.lt] at hvisible
  cases hvisible

/-- A series with a live sample in the window is in the answer. -/
theorem exists_lastOverTime (hfresh : rule.alerts = ∅) (hrule : nameLabel ∉ rule.labels)
    (hk : ev.SeenAt rule n window t k) (ha : ev.ActiveAfter rule k a) :
    ∃ v, lastOverTime (ev.samplesOf rule n (forStateLabels a.labels)) window t = some v := by
  rw [lastOverTime_samplesOf]
  have hvisible : ⟨.ofInt (a.activeAt / 1000), ev.time k⟩ ∈
      ev.visible rule window t (forStateLabels a.labels) k :=
    (mem_visible_iff hfresh hrule (mem_forStateLabels.mpr (.inr rfl))).mpr
    ⟨⟨hk.succeeds, hk.after_start, hk.le_end⟩, a, ha, rfl, rfl⟩
  have hne : (List.range n).flatMap (ev.visible rule window t (forStateLabels a.labels)) ≠ [] :=
    ne_nil_of_mem (mem_flatMap.mpr ⟨k, mem_range.mpr hk.lt, hvisible⟩)
  rw [getLast?_eq_some_getLast hne]
  exact ⟨_, rfl⟩

/-! ### The answer -/

/-- The value of the last live sample of an alert in the window: when it became active, as of the
last evaluation after which it was active. -/
def Shown (ev : Evaluations) (rule : AlertingRule) (n : ℕ) (window t : ℤ) (labels : StringMap)
    (v : SampleValue) : Prop :=
  ∃ k a, ev.SeenAt rule n window t k ∧ ev.ActiveAfter rule k a ∧ a.labels = labels ∧
    v = .ofInt (a.activeAt / 1000) ∧
    ∀ j a', k < j → ev.SeenAt rule n window t j → ev.ActiveAfter rule j a' → a'.labels ≠ labels

theorem activeAfter_unique {a' : Alert} (h : ev.ActiveAfter rule k a)
    (h' : ev.ActiveAfter rule k a')
    (hhash : hashLabels a.labels = hashLabels a'.labels) : a = a' := by
  have ha := h.1
  rw [hhash, h'.1] at ha
  exact (Option.some.inj ha).symm

theorem Shown.unique {labels : StringMap} {v v' : SampleValue}
    (h : ev.Shown rule n window t labels v) (h' : ev.Shown rule n window t labels v') : v = v' := by
  obtain ⟨k, a, hk, ha, hlabels, rfl, hlast⟩ := h
  obtain ⟨k', a', hk', ha', hlabels', rfl, hlast'⟩ := h'
  obtain hlt | rfl | hlt := lt_trichotomy k k'
  · exact absurd hlabels' (hlast k' a' hlt hk' ha')
  · rw [activeAfter_unique ha ha' (by rw [hlabels, hlabels'])]
  · exact absurd hlabels (hlast' k a hlt hk ha)

/-- A live sample of an alert is in the answer, or a later one is. -/
theorem exists_shown (hfresh : rule.alerts = ∅) (hrule : nameLabel ∉ rule.labels)
    (hk : ev.SeenAt rule n window t k) (ha : ev.ActiveAfter rule k a) :
    ∃ v, ev.Shown rule n window t a.labels v ∧
      lastOverTime (ev.samplesOf rule n (forStateLabels a.labels)) window t = some v := by
  obtain ⟨v, hv⟩ := exists_lastOverTime hfresh hrule hk ha
  obtain ⟨k', a', hk', ha', hlabels, rfl, hlast⟩ :=
    exists_of_lastOverTime hfresh hrule (mem_forStateLabels.mpr (.inr rfl)) hv
  have heq : a'.labels = a.labels := forStateLabels_injective
    (nameLabel_not_mem_of_activeAfter hfresh hrule ha')
    (nameLabel_not_mem_of_activeAfter hfresh hrule ha) hlabels
  refine ⟨_, ⟨k', a', hk', ha', heq, rfl, fun j a₁ hkj hj ha₁ heq₁ => ?_⟩, hv⟩
  exact hlast j a₁ hkj hj ha₁ (congrArg forStateLabels heq₁)

theorem Shown.nameLabel_not_mem (hfresh : rule.alerts = ∅) (hrule : nameLabel ∉ rule.labels)
    {labels : StringMap} {v : SampleValue} (h : ev.Shown rule n window t labels v) :
    nameLabel ∉ labels := by
  obtain ⟨k, a, -, ha, rfl, -⟩ := h
  exact nameLabel_not_mem_of_activeAfter hfresh hrule ha

/-- The answer of the store: one sample for each alert that was active after some evaluation in the
window. -/
theorem mem_restoreAnswer_iff (hfresh : rule.alerts = ∅) (hname : rule.name ≠ [])
    (hrule : nameLabel ∉ rule.labels) {order : IterOrder (List (Bytes × Bytes))} {m : Metric} :
    m ∈ ev.restoreAnswer rule n order rule.restoreFilters window t ↔
      ∃ labels v, ev.Shown rule n window t labels v ∧
        m = ⟨forStateLabels labels, [t / 1000], [v]⟩ := by
  rw [restoreAnswer, mem_filterMap]
  simp only [(order.perm _).mem_iff, mem_filter, mem_dedup, Option.map_eq_some_iff]
  constructor
  · rintro ⟨series, ⟨-, hfilters⟩, v, hv, rfl⟩
    have hseries : (nameLabel, alertForStateMetric) ∈ series := by
      have hmatch := all_eq_true.mp hfilters _ (mem_append_left _ (mem_cons_self ..))
      rw [matchesLabel, if_neg (by decide)] at hmatch
      exact of_decide_eq_true hmatch
    obtain ⟨k, a, hk, ha, rfl, rfl, hlast⟩ := exists_of_lastOverTime hfresh hrule hseries hv
    refine ⟨a.labels, _, ⟨k, a, hk, ha, rfl, rfl, fun j a' hkj hj ha' heq => ?_⟩, rfl⟩
    exact hlast j a' hkj hj ha' (congrArg forStateLabels heq)
  · rintro ⟨labels, v, hshown, rfl⟩
    obtain ⟨k, a, hk, ha, rfl, -, -⟩ := id hshown
    obtain ⟨v', hshown', hv'⟩ := exists_shown hfresh hrule hk ha
    obtain rfl := hshown'.unique hshown
    obtain ⟨⟨i, -, hmem⟩, -⟩ := @labelled_after ev rule hfresh (k + 1) _ a ha.1
    refine ⟨forStateLabels a.labels, ⟨?_, restoreFilters_mem hname hmem⟩, v', hv', rfl⟩
    exact mem_map.mpr ⟨_, mem_flatMap.mpr
      ⟨k, mem_range.mpr hk.lt, forTimeSeries_mem_seriesAt hk.succeeds ha⟩, rfl⟩

theorem nodup_labels_restoreAnswer (order : IterOrder (List (Bytes × Bytes)))
    (filters : List (Bytes × Bytes)) :
    ((ev.restoreAnswer rule n order filters window t).map Metric.labels).Nodup := by
  rw [restoreAnswer, map_filterMap]
  refine Nodup.filterMap ?_ ?_
  · intro l l' b hb hb'
    simp only [Option.map_map, Option.mem_def, Option.map_eq_some_iff,
      Function.comp_apply] at hb hb'
    obtain ⟨-, -, rfl⟩ := hb
    obtain ⟨-, -, rfl⟩ := hb'
    rfl
  · rw [(order.perm _).nodup_iff]
    exact (nodup_dedup _).filter _

end Evaluations

/-! ### The restored alerts -/

/-- A pending alert that became active at a given time. -/
def restoredAlert (labels : StringMap) (activeAt : ℤ) : Alert :=
  ⟨.pending, activeAt, none, none, .num 0, labels, ∅⟩

namespace Metric

/-- The labels of the alert of a series in the answer. -/
def alertLabels (m : Metric) : StringMap := .ofList (m.labels.filter fun kv => kv.1 ≠ nameLabel)

/-- When the alert of a series in the answer became active. -/
def activeAt (m : Metric) : ℤ := (m.values.head?.getD (.num 0)).toI64 * 1000

end Metric

theorem restoreSeries_of_none {alerts : AlertMap} {m : Metric}
    (h : alerts[hashLabels m.alertLabels]? = none) :
    AlertingRule.restoreSeries alerts m =
      alerts.insert (hashLabels m.alertLabels) (restoredAlert m.alertLabels m.activeAt) := by
  rw [AlertingRule.restoreSeries, ← Metric.alertLabels, h]
  rfl

/-- While their identities are new, each series adds one alert. -/
theorem getElem?_foldl_restoreSeries {answer : List Metric} {alerts : AlertMap} {id : UInt64}
    {x : Alert} (hnodup : (answer.map fun m => hashLabels m.alertLabels).Nodup)
    (hnew : ∀ m ∈ answer, alerts[hashLabels m.alertLabels]? = none) :
    (answer.foldl AlertingRule.restoreSeries alerts)[id]? = some x ↔
      alerts[id]? = some x ∨ ∃ m ∈ answer, hashLabels m.alertLabels = id ∧
        x = restoredAlert m.alertLabels m.activeAt := by
  induction answer generalizing alerts with
  | nil => simp
  | cons m answer ih =>
    rw [map_cons, nodup_cons] at hnodup
    have hm := hnew m (mem_cons_self ..)
    rw [foldl_cons, restoreSeries_of_none hm, ih hnodup.2]
    · simp only [mem_cons, exists_eq_or_imp, Std.ExtTreeMap.getElem?_insert, ← or_assoc]
      refine or_congr_left ?_
      by_cases hid : hashLabels m.alertLabels = id
      · subst hid
        simp [hm, eq_comm]
      · simp [hid]
    · intro m' hm'
      have hne : hashLabels m.alertLabels ≠ hashLabels m'.alertLabels := fun heq =>
        hnodup.1 (mem_map.mpr ⟨m', hm', heq.symm⟩)
      rw [Std.ExtTreeMap.getElem?_insert, if_neg (by simpa using hne)]
      exact hnew m' (mem_cons_of_mem _ hm')

namespace Evaluations

variable {ev : Evaluations} {rule : AlertingRule} {n k : ℕ} {window t : ℤ} {a : Alert}

/-- The rule of the new process, after the restore at `ts`. -/
def restored (ev : Evaluations) (rule : AlertingRule) (n : ℕ)
    (order : IterOrder (List (Bytes × Bytes))) (lookback : ℕ) (step ts : ℤ) : AlertingRule :=
  (rule.restore (ev.store rule n order step) ts lookback).1

/-- The restore takes the alerts from the answer, where the query can be read. -/
theorem alerts_restored_of_parses (hfresh : rule.alerts = ∅) (hparses : rule.RestoreQueryParses)
    {order : IterOrder (List (Bytes × Bytes))} {lookback : ℕ} {step ts : ℤ} :
    (ev.restored rule n order lookback step ts).alerts =
      (ev.restoreAnswer rule n order rule.restoreFilters
        (rollupWindow (lookback / 1000 * 1000 : ℕ) step) (ts - 1000)).foldl
          AlertingRule.restoreSeries ∅ := by
  have hquery := parseRestoreQuery_buildRestoreQuery rule.name rule.groupName
    rule.disableAlertgroupLabel lookback
  rw [if_pos (show RestoreQueryParses _ _ _ from hparses)] at hquery
  simp only [restored, AlertingRule.restore, store, hquery, hfresh]
  rfl

/-- A query that cannot be read restores nothing. -/
theorem restored_of_not_parses (hparses : ¬ rule.RestoreQueryParses)
    {order : IterOrder (List (Bytes × Bytes))} {lookback : ℕ} {step ts : ℤ} :
    ev.restored rule n order lookback step ts = rule := by
  have hquery := parseRestoreQuery_buildRestoreQuery rule.name rule.groupName
    rule.disableAlertgroupLabel lookback
  rw [if_neg (show ¬ RestoreQueryParses _ _ _ from hparses)] at hquery
  simp only [restored, AlertingRule.restore, store, hquery]

/-- When their identities are distinct, the alerts in the answer are tracked, and no others. -/
theorem getElem?_restored (hfresh : rule.alerts = ∅) (hname : rule.name ≠ [])
    (hrule : nameLabel ∉ rule.labels) (hparses : rule.RestoreQueryParses)
    {order : IterOrder (List (Bytes × Bytes))} {lookback : ℕ}
    {step ts : ℤ} (hinj : Set.InjOn hashLabels {labels | ∃ v,
      ev.Shown rule n (rollupWindow (lookback / 1000 * 1000 : ℕ) step) (ts - 1000) labels v})
    {id : UInt64} {x : Alert} :
    (ev.restored rule n order lookback step ts).alerts[id]? = some x ↔
      ∃ labels v,
        ev.Shown rule n (rollupWindow (lookback / 1000 * 1000 : ℕ) step) (ts - 1000) labels v ∧
        hashLabels labels = id ∧ x = restoredAlert labels (v.toI64 * 1000) := by
  have hanswer :=
    @alerts_restored_of_parses ev rule n hfresh hparses order lookback step ts
  have hmem := fun m => @mem_restoreAnswer_iff ev rule n
    (rollupWindow (lookback / 1000 * 1000 : ℕ) step) (ts - 1000) hfresh hname hrule order m
  have hlabels : ∀ {labels : StringMap} {v : SampleValue},
      ev.Shown rule n (rollupWindow (lookback / 1000 * 1000 : ℕ) step) (ts - 1000) labels v →
        (Metric.mk (forStateLabels labels) [(ts - 1000) / 1000] [v]).alertLabels = labels :=
    fun hshown => ofList_forStateLabels (hshown.nameLabel_not_mem hfresh hrule)
  have hnodup : ((ev.restoreAnswer rule n order rule.restoreFilters
      (rollupWindow (lookback / 1000 * 1000 : ℕ) step) (ts - 1000)).map fun m =>
        hashLabels m.alertLabels).Nodup := by
    refine Nodup.map_on ?_ (nodup_labels_restoreAnswer order rule.restoreFilters).of_map
    intro m hm m' hm' heq
    obtain ⟨labels, v, hshown, rfl⟩ := (hmem m).mp hm
    obtain ⟨labels', v', hshown', rfl⟩ := (hmem m').mp hm'
    rw [hlabels hshown, hlabels hshown'] at heq
    obtain rfl := hinj ⟨v, hshown⟩ ⟨v', hshown'⟩ heq
    rw [hshown.unique hshown']
  rw [hanswer, getElem?_foldl_restoreSeries hnodup fun m _ => rfl]
  constructor
  · rintro (hnone | ⟨m, hm, rfl, rfl⟩)
    · cases hnone
    · obtain ⟨labels, v, hshown, rfl⟩ := (hmem m).mp hm
      rw [hlabels hshown]
      exact ⟨labels, v, hshown, rfl, rfl⟩
  · rintro ⟨labels, v, hshown, rfl, rfl⟩
    refine .inr ⟨_, (hmem _).mpr ⟨labels, v, hshown, rfl⟩, ?_⟩
    rw [hlabels hshown]
    exact ⟨rfl, rfl⟩

/-! ### How long the expression is true -/

/-- The expression gives a result of the identity at the evaluation `i`, and at each successful one
from then on, among the first `n`. -/
def TrueFrom (ev : Evaluations) (rule : AlertingRule) (id : UInt64) (i n : ℕ) : Prop :=
  ev.IsPresentAt rule i id ∧
    ∀ k, i ≤ k → k < n → ev.SucceedsAt rule k → ev.IsPresentAt rule k id

/-- An alert is active since an evaluation, or since before the first one; and the expression gives
a result of its identity since then, among the first `n` evaluations. -/
def ActiveSince (ev : Evaluations) (rule : AlertingRule) (id : UInt64) (since : ℤ) (n : ℕ) : Prop :=
  (∃ i < n, since = ev.time i ∧ ev.TrueFrom rule id i n) ∨
    ∃ a, rule.alerts[id]? = some a ∧ since = a.activeAt ∧
      ∀ k < n, ev.SucceedsAt rule k → ev.IsPresentAt rule k id

/-- What the time at which an alert became active says after the first `n` evaluations. -/
structure Timed (ev : Evaluations) (rule : AlertingRule) (id : UInt64) (n : ℕ)
    (a : Alert) : Prop where
  pending : a.state = .pending → ev.ActiveSince rule id a.activeAt n
  firing : a.state = .firing → ∃ p < n, rule.forMs ≤ ev.time p - a.activeAt ∧
    ev.ActiveSince rule id a.activeAt (p + 1)

variable {id : UInt64}

theorem ActiveSince.succ {since : ℤ} (h : ev.ActiveSince rule id since n)
    (hn : ev.SucceedsAt rule n → ev.IsPresentAt rule n id) :
    ev.ActiveSince rule id since (n + 1) := by
  have hext : ∀ {i : ℕ}, (∀ k, i ≤ k → k < n → ev.SucceedsAt rule k → ev.IsPresentAt rule k id) →
      ∀ k, i ≤ k → k < n + 1 → ev.SucceedsAt rule k → ev.IsPresentAt rule k id := by
    intro i hi k hik hk
    obtain hk | rfl := Nat.lt_succ_iff_lt_or_eq.mp hk
    · exact hi k hik hk
    · exact hn
  obtain ⟨i, hi, rfl, hpresent, htrue⟩ | ⟨a, ha, rfl, htrue⟩ := h
  · exact .inl ⟨i, hi.trans (Nat.lt_succ_self n), rfl, hpresent, hext htrue⟩
  · exact .inr ⟨a, ha, rfl, fun k hk =>
      hext (fun k _ => htrue k) k (Nat.zero_le k) hk⟩

theorem activeSince_now (hn : ev.IsPresentAt rule n id) :
    ev.ActiveSince rule id (ev.time n) (n + 1) := by
  refine .inl ⟨n, Nat.lt_succ_self n, rfl, hn, fun k hnk hk _ => ?_⟩
  rwa [le_antisymm (Nat.lt_succ_iff.mp hk) hnk]

/-- What an evaluation makes of an alert: a failed one may update it, a successful one sweeps it. -/
theorem getElem?_after_succ_cases (h : (ev.after rule (n + 1)).alerts[id]? = some a) :
    (¬ ev.SucceedsAt rule n ∧ (ev.after rule n).alerts[id]? = some a) ∨
      ∃ result : Option PendingAlert, (result.isSome → ev.IsPresentAt rule n id) ∧
        ((¬ ev.SucceedsAt rule n ∧ alertUpdate (ev.time n) result
          (alertKept (ev.time n) (ev.after rule n).alerts[id]?) = some a) ∨
        alertStep rule (ev.time n) result (ev.after rule n).alerts[id]? = some a) := by
  by_cases hok : ev.SucceedsAt rule n
  · obtain ⟨pending, alerts, stale, live, hstep⟩ := exists_step hok
    rw [hstep.getElem?_after] at h
    exact .inr ⟨_, (hstep.isSome_resultOf id).mp, .inr h⟩
  · obtain ⟨e, -, -, hfailed⟩ | ⟨pending, alerts, updated, tss, -, hok', -⟩ :=
      (ev.after rule n).exec_cases ev.tpl (ev.order n) (ev.querier n) (ev.time n)
    · rw [after] at h
      obtain hsame | ⟨seen, hseen, hget⟩ := hfailed.getElem?_alerts
      · exact .inl ⟨hok, hsame id ▸ h⟩
      · refine .inr ⟨resultOf seen id, fun hsome => ?_, .inl ⟨hok, hget id ▸ h⟩⟩
        obtain ⟨p, hp, rfl⟩ := mem_map.mp (Esmalert.isSome_resultOf.mp hsome)
        replace hp := hseen.subset hp
        cases hres : (ev.after rule n).results ev.tpl (ev.querier n) (ev.time n) with
        | none =>
          rw [hres] at hp
          cases hp
        | some pending =>
          rw [hres] at hp
          obtain ⟨hlabels, hids⟩ := AlertingRule.map_labels_of_results hres
          rw [resultLabels_after] at hlabels
          exact mem_map.mpr ⟨p.labels, hlabels ▸ mem_map_of_mem hp, (hids p hp).symm⟩
    · exact absurd ⟨tss, hok'⟩ hok

/-- An absent alert that goes on to fire keeps the time at which it became active. -/
theorem activeAt_alertStep_none {ts : ℤ} {a a' : Alert}
    (h : alertStep rule ts none (some a) = some a')
    (hfire : a.state = .firing) : a'.activeAt = a.activeAt := by
  rw [alertStep_none, alertKept_of_ne_inactive (by simp [hfire]), Option.bind_some,
    Alert.sweep_of_firing hfire] at h
  split_ifs at h
  · obtain rfl := Option.some.inj h
    simp [Alert.resolved]
  · obtain rfl := Option.some.inj h
    simp

/-- Of an alert that is present the time is right after the evaluation if it was before. -/
theorem timed_seenAgain {a : Alert} (h : ev.Timed rule id n a) (hn : ev.IsPresentAt rule n id)
    (p : PendingAlert) : ev.Timed rule id (n + 1) (a.seenAgain p (ev.time n)) := by
  refine ⟨fun hpend => ?_, fun hfire => ?_⟩
  · rw [Alert.seenAgain_activeAt, Alert.activeFrom]
    split_ifs with hstate
    · exact activeSince_now hn
    · refine (h.pending ?_).succ fun _ => hn
      simpa [Alert.seenAgain, hstate] using hpend
  · have hstate := Alert.seenAgain_state_eq_firing_iff.mp hfire
    obtain ⟨q, hq, hfor, hsince⟩ := h.firing hstate
    rw [Alert.seenAgain_activeAt, Alert.activeFrom, if_neg (by simp [hstate])]
    exact ⟨q, hq.trans (Nat.lt_succ_self n), hfor, hsince⟩

theorem timed_new (hn : ev.IsPresentAt rule n id) (p : PendingAlert) :
    ev.Timed rule id (n + 1) (Alert.new p (ev.time n)) :=
  ⟨fun _ => activeSince_now hn, fun hfire => AlertState.noConfusion hfire⟩

theorem timed_of_inactive {a : Alert} (hstate : a.state = .inactive) : ev.Timed rule id n a := by
  refine ⟨fun hpend => ?_, fun hfire => ?_⟩
  · cases hstate.symm.trans hpend
  · cases hstate.symm.trans hfire

theorem Timed.promote {a : Alert} (h : ev.Timed rule id (n + 1) a) :
    ev.Timed rule id (n + 1) (a.promote rule.forMs (ev.time n)).1 := by
  rw [Alert.promote]
  by_cases hprom : a.state = .pending ∧ rule.forMs ≤ ev.time n - a.activeAt
  · rw [if_pos hprom]
    refine ⟨fun hpend => ?_, fun _ => ⟨n, Nat.lt_succ_self n, hprom.2, h.pending hprom.1⟩⟩
    cases hpend
  · rwa [if_neg hprom]

/-- **The times of the alerts.** In a run that starts with pending alerts only, an alert is pending
while the expression is true since it became active, and fires once it was for the duration
`for`. -/
theorem timed_after (hstart : ∀ (id : UInt64) (a : Alert), rule.alerts[id]? = some a →
    a.state = .pending) (h : (ev.after rule n).alerts[id]? = some a) : ev.Timed rule id n a := by
  induction n generalizing a with
  | zero =>
    refine ⟨fun _ => .inr ⟨a, h, rfl, fun k hk => absurd hk (Nat.not_lt_zero k)⟩, fun hfire => ?_⟩
    cases (hstart id a h).symm.trans hfire
  | succ n ih =>
    have hkept : ∀ {a : Alert}, (ev.after rule n).alerts[id]? = some a →
        (a.state = .pending → ev.SucceedsAt rule n → ev.IsPresentAt rule n id) →
        ev.Timed rule id (n + 1) a := fun ha hn => by
      refine ⟨fun hpend => ((ih ha).pending hpend).succ (hn hpend), fun hfire => ?_⟩
      obtain ⟨p, hp, hfor, hsince⟩ := (ih ha).firing hfire
      exact ⟨p, hp.trans (Nat.lt_succ_self n), hfor, hsince⟩
    obtain ⟨hok, hsame⟩ | ⟨result, hresult, ⟨hok, hup⟩ | hstep⟩ := getElem?_after_succ_cases h
    · exact hkept hsame fun _ hok' => absurd hok' hok
    · obtain ⟨-, ho, -⟩ | ⟨p, a₀, rfl, ho, -, rfl⟩ | ⟨p, rfl, rfl⟩ := alertUpdate_cases hup
      · exact hkept ho fun _ hok' => absurd hok' hok
      · exact timed_seenAgain (ih ho) (hresult rfl) p
      · exact timed_new (hresult rfl) p
    · obtain ⟨-, ho, hs⟩ | ⟨a₀, -, -, -, hs, -⟩ | ⟨a₀, rfl, ho, hfire, hs, -⟩ |
        ⟨p, a₀, rfl, ho, -, rfl⟩ | ⟨p, rfl, rfl⟩ := alertStep_cases hstep
      · exact timed_of_inactive hs
      · exact timed_of_inactive hs
      · refine ⟨fun hpend => ?_, fun _ => ?_⟩
        · cases hs.symm.trans hpend
        rw [ho] at hstep
        rw [activeAt_alertStep_none hstep hfire]
        obtain ⟨p, hp, hfor, hsince⟩ := (ih ho).firing hfire
        exact ⟨p, hp.trans (Nat.lt_succ_self n), hfor, hsince⟩
      · exact (timed_seenAgain (ih ho) (hresult rfl) p).promote
      · exact (timed_new (hresult rfl) p).promote

/-! ### The restored state -/

/-- The tracked alerts are the active ones after the last evaluation in the window, as pending
alerts that became active in the same second. -/
def RestoredExactly (ev : Evaluations) (rule : AlertingRule) (n : ℕ) (window t : ℤ)
    (restored : AlertingRule) : Prop :=
  ∀ (id : UInt64) (x : Alert), restored.alerts[id]? = some x ↔ ∃ k a,
    ev.LastSeen rule n window t k ∧
    ev.ActiveAfter rule k a ∧ hashLabels a.labels = id ∧
    x = restoredAlert a.labels (a.activeAt / 1000 * 1000)

/-- Among the first `m` evaluations of the new process, and the ones before the restart, the
expression is true for the duration `for`, minus a second when this is across the restart. -/
def TrueLongEnough (ev : Evaluations) (rule : AlertingRule) (n : ℕ) (window t : ℤ)
    (ev' : Evaluations) (restored : AlertingRule) (id : UInt64) (m : ℕ) : Prop :=
  (∃ p < m, ∃ i ≤ p, ev'.TrueFrom restored id i (p + 1) ∧ rule.forMs ≤ ev'.time p - ev'.time i) ∨
    ∃ k a, ev.LastSeen rule n window t k ∧ ev.ActiveAfter rule k a ∧ hashLabels a.labels = id ∧
      ((∃ p ≤ k, ∃ i ≤ p, ev.TrueFrom rule id i (p + 1) ∧ rule.forMs ≤ ev.time p - ev.time i) ∨
        ∃ i ≤ k, ev.TrueFrom rule id i (k + 1) ∧ ∃ p < m,
          (∀ j ≤ p, ev'.SucceedsAt restored j → ev'.IsPresentAt restored j id) ∧
          rule.forMs - 1000 < ev'.time p - ev.time i)

/-- **Restored.** The tracked alerts are right, and however the new process goes on, no alert fires
before the expression is true for long enough. -/
structure RestoredRight (ev : Evaluations) (rule : AlertingRule) (n : ℕ) (window t : ℤ)
    (restored : AlertingRule) : Prop where
  exactly : ev.RestoredExactly rule n window t restored
  fires_late : ∀ (ev' : Evaluations) (m : ℕ) (id : UInt64), (ev'.after restored m).IsFiring id →
    ev.TrueLongEnough rule n window t ev' restored id m

/-- When the state can be restored: every alert with a live sample in the window is active after the
last evaluation in it, and the times of the active ones survive the conversion to a float. -/
structure Restorable (ev : Evaluations) (rule : AlertingRule) (n : ℕ) (window t : ℤ) : Prop where
  stays : ∀ j a, ev.SeenAt rule n window t j → ev.ActiveAfter rule j a →
    ∀ k, ev.LastSeen rule n window t k → ∃ a', ev.ActiveAfter rule k a' ∧ a'.labels = a.labels
  exact : ∀ k a, ev.LastSeen rule n window t k → ev.ActiveAfter rule k a →
    (SampleValue.ofInt (a.activeAt / 1000)).toI64 = a.activeAt / 1000

theorem SeenAt.exists_lastSeen (h : ev.SeenAt rule n window t k) :
    ∃ k', ev.LastSeen rule n window t k' := by
  classical
  have hle : k ≤ n := h.lt.le
  exact ⟨Nat.findGreatest (ev.SeenAt rule n window t) n, Nat.findGreatest_spec hle h,
    fun j hj => Nat.le_findGreatest hj.lt.le hj⟩

theorem LastSeen.unique {k' : ℕ} (h : ev.LastSeen rule n window t k)
    (h' : ev.LastSeen rule n window t k') : k = k' :=
  le_antisymm (h'.2 k h.1) (h.2 k' h'.1)

/-- An alert that is active after the last evaluation is shown as of this evaluation. -/
theorem LastSeen.shown (h : ev.LastSeen rule n window t k) (ha : ev.ActiveAfter rule k a) :
    ev.Shown rule n window t a.labels (.ofInt (a.activeAt / 1000)) :=
  ⟨k, a, h.1, ha, rfl, rfl, fun j _ hkj hj => absurd (h.2 j hj) (not_le.mpr hkj)⟩

/-- What is shown belongs to an active alert, when the state can be restored. -/
theorem Shown.of_restorable (hres : ev.Restorable rule n window t) {labels : StringMap}
    {v : SampleValue} (h : ev.Shown rule n window t labels v) :
    ∃ k a, ev.LastSeen rule n window t k ∧ ev.ActiveAfter rule k a ∧ a.labels = labels ∧
      v.toI64 = a.activeAt / 1000 := by
  obtain ⟨j, a, hj, ha, rfl, -⟩ := id h
  obtain ⟨k, hk⟩ := hj.exists_lastSeen
  obtain ⟨a', ha', hlabels⟩ := hres.stays j a hj ha k hk
  refine ⟨k, a', hk, ha', hlabels, ?_⟩
  rw [h.unique (hlabels ▸ hk.shown ha')]
  exact hres.exact k a' hk ha'

/-- Active alerts have distinct identities. -/
theorem injOn_shown (hres : ev.Restorable rule n window t) :
    Set.InjOn hashLabels {labels | ∃ v, ev.Shown rule n window t labels v} := by
  rintro labels ⟨v, hv⟩ labels' ⟨v', hv'⟩ hhash
  obtain ⟨k, a, hk, ha, rfl, -⟩ := hv.of_restorable hres
  obtain ⟨k', a', hk', ha', rfl, -⟩ := hv'.of_restorable hres
  obtain rfl := hk.unique hk'
  rw [activeAfter_unique ha ha' hhash]

/-- An active alert fired after the expression was true for the duration `for`, or it is pending
while the expression is true. -/
theorem trueFrom_of_activeAfter (hfresh : rule.alerts = ∅) (ha : ev.ActiveAfter rule k a) :
    (∃ p ≤ k, ∃ i ≤ p, ev.TrueFrom rule (hashLabels a.labels) i (p + 1) ∧
        rule.forMs ≤ ev.time p - ev.time i) ∨
      ∃ i ≤ k, a.activeAt = ev.time i ∧ ev.TrueFrom rule (hashLabels a.labels) i (k + 1) := by
  have hnone : ∀ {id : UInt64} {a₀ : Alert}, ¬ rule.alerts[id]? = some a₀ := fun h => by
    rw [hfresh] at h
    cases h
  have htimed := timed_after (fun id a₀ h => absurd h hnone) ha.1
  cases hstate : a.state with
  | inactive => exact absurd hstate ha.2
  | pending =>
    obtain ⟨i, hi, heq, htrue⟩ | ⟨a₀, h₀, -⟩ := htimed.pending hstate
    · exact .inr ⟨i, Nat.lt_succ_iff.mp hi, heq, htrue⟩
    · exact absurd h₀ hnone
  | firing =>
    obtain ⟨p, hp, hfor, ⟨i, hi, heq, htrue⟩ | ⟨a₀, h₀, -⟩⟩ := htimed.firing hstate
    · exact .inl ⟨p, Nat.lt_succ_iff.mp hp, i, Nat.lt_succ_iff.mp hi, htrue, heq ▸ hfor⟩
    · exact absurd h₀ hnone

/-- No alert fires early after an exact restore. -/
theorem RestoredExactly.fires_late (hfresh : rule.alerts = ∅) {restored : AlertingRule}
    (hfor : restored.forMs = rule.forMs) (h : ev.RestoredExactly rule n window t restored)
    (ev' : Evaluations) (m : ℕ) (id : UInt64) (hfire : (ev'.after restored m).IsFiring id) :
    ev.TrueLongEnough rule n window t ev' restored id m := by
  obtain ⟨x, hx, hstate⟩ := hfire
  have hstart : ∀ (id : UInt64) (x : Alert), restored.alerts[id]? = some x →
      x.state = .pending := by
    intro id x hx
    obtain ⟨k, a, -, -, -, rfl⟩ := (h id x).mp hx
    rfl
  obtain ⟨p, hp, hle, ⟨i, hi, heq, htrue⟩ | ⟨x₀, hx₀, heq, htrue⟩⟩ :=
    (timed_after hstart hx).firing hstate
  · exact .inl ⟨p, hp, i, Nat.lt_succ_iff.mp hi, htrue, hfor ▸ heq ▸ hle⟩
  · obtain ⟨k, a, hk, ha, rfl, rfl⟩ := (h id x₀).mp hx₀
    refine .inr ⟨k, a, hk, ha, rfl, (trueFrom_of_activeAfter hfresh ha).imp_right ?_⟩
    rintro ⟨i, hi, hactive, htrue'⟩
    refine ⟨i, hi, htrue', p, hp, fun j hj => htrue j (Nat.lt_succ_of_le hj), ?_⟩
    -- the restored time is less than a second before the one of the alert
    have hsecond : a.activeAt < a.activeAt / 1000 * 1000 + 1000 := by omega
    rw [hfor, heq] at hle
    rw [← hactive]
    simp only [restoredAlert] at hle
    omega

theorem forMs_restored (order : IterOrder (List (Bytes × Bytes))) (lookback : ℕ) (step ts : ℤ) :
    (ev.restored rule n order lookback step ts).forMs = rule.forMs := by
  rw [restored, AlertingRule.restore]
  split <;> rfl

/-- When the restore of a rule is right: its query is one of the query language and the state can be
restored, or it is not and no alert is active after the last evaluation in the window. -/
def RestoresRight (ev : Evaluations) (rule : AlertingRule) (n : ℕ) (window t : ℤ) : Prop :=
  (rule.RestoreQueryParses ∧ ev.Restorable rule n window t) ∨
    (¬ rule.RestoreQueryParses ∧
      ∀ k a, ev.LastSeen rule n window t k → ¬ ev.ActiveAfter rule k a)

section Restart

variable (hfresh : rule.alerts = ∅) (hname : rule.name ≠ []) (hrule : nameLabel ∉ rule.labels)
  {order : IterOrder (List (Bytes × Bytes))} {lookback : ℕ} {step ts : ℤ}

include hfresh hname hrule

/-- A state that can be restored is. -/
theorem restoredExactly_of_restorable (hparses : rule.RestoreQueryParses)
    (hres : ev.Restorable rule n (rollupWindow (lookback / 1000 * 1000 : ℕ) step) (ts - 1000)) :
    ev.RestoredExactly rule n (rollupWindow (lookback / 1000 * 1000 : ℕ) step) (ts - 1000)
      (ev.restored rule n order lookback step ts) := by
  intro id x
  rw [getElem?_restored hfresh hname hrule hparses (injOn_shown hres)]
  constructor
  · rintro ⟨labels, v, hshown, rfl, rfl⟩
    obtain ⟨k, a, hk, ha, rfl, hv⟩ := hshown.of_restorable hres
    exact ⟨k, a, hk, ha, rfl, by rw [hv]⟩
  · rintro ⟨k, a, hk, ha, rfl, rfl⟩
    exact ⟨a.labels, _, hk.shown ha, rfl, by rw [hres.exact k a hk ha]⟩

/-- A state that is restored can be, where label sets have distinct identities. -/
theorem restorable_of_restoredExactly (hparses : rule.RestoreQueryParses)
    (hinj : Set.InjOn hashLabels {labels | ∃ k a, ev.SeenAt rule n
      (rollupWindow (lookback / 1000 * 1000 : ℕ) step) (ts - 1000) k ∧ ev.ActiveAfter rule k a ∧
        a.labels = labels})
    (hexactly : ev.RestoredExactly rule n (rollupWindow (lookback / 1000 * 1000 : ℕ) step)
      (ts - 1000) (ev.restored rule n order lookback step ts)) :
    ev.Restorable rule n (rollupWindow (lookback / 1000 * 1000 : ℕ) step) (ts - 1000) := by
  have hinj' : Set.InjOn hashLabels {labels | ∃ v,
      ev.Shown rule n (rollupWindow (lookback / 1000 * 1000 : ℕ) step) (ts - 1000) labels v} := by
    refine hinj.mono ?_
    rintro labels ⟨v, k, a, hk, ha, heq, -⟩
    exact ⟨k, a, hk, ha, heq⟩
  have hlookup := fun id x =>
    @getElem?_restored ev rule n hfresh hname hrule hparses order lookback step ts hinj' id x
  -- what is shown is tracked, so it is the time of an active alert
  have hactive : ∀ {labels : StringMap} {v : SampleValue},
      ev.Shown rule n (rollupWindow (lookback / 1000 * 1000 : ℕ) step) (ts - 1000) labels v →
        ∃ k a, ev.LastSeen rule n (rollupWindow (lookback / 1000 * 1000 : ℕ) step) (ts - 1000) k ∧
          ev.ActiveAfter rule k a ∧ a.labels = labels ∧ v.toI64 = a.activeAt / 1000 := by
    intro labels v hshown
    obtain ⟨k, a, hk, ha, -, heq⟩ :=
      (hexactly _ _).mp ((hlookup _ _).mpr ⟨labels, v, hshown, rfl, rfl⟩)
    have htime := congrArg Alert.activeAt heq
    refine ⟨k, a, hk, ha, (congrArg Alert.labels heq).symm, ?_⟩
    simpa [restoredAlert] using htime
  refine ⟨fun j a hj ha k hk => ?_, fun k a hk ha => ?_⟩
  · obtain ⟨v, hshown, -⟩ := exists_shown hfresh hrule hj ha
    obtain ⟨k', a', hk', ha', hlabels, -⟩ := hactive hshown
    obtain rfl := hk.unique hk'
    exact ⟨a', ha', hlabels⟩
  · obtain ⟨k', a', hk', ha', hlabels, hv⟩ := hactive (hk.shown ha)
    obtain rfl := hk.unique hk'
    obtain rfl := activeAfter_unique ha ha' (by rw [hlabels])
    exact hv

omit hname hrule in
/-- Without alerts after the restart, none was active in the end. -/
theorem restoredExactly_self_iff {window t : ℤ} : ev.RestoredExactly rule n window t rule ↔
    ∀ k a, ev.LastSeen rule n window t k → ¬ ev.ActiveAfter rule k a := by
  constructor
  · intro h k a hk ha
    have hmem := (h (hashLabels a.labels) _).mpr ⟨k, a, hk, ha, rfl, rfl⟩
    rw [hfresh] at hmem
    cases hmem
  · intro h id x
    constructor
    · intro hmem
      rw [hfresh] at hmem
      cases hmem
    · rintro ⟨k, a, hk, ha, -⟩
      exact absurd ha (h k a hk)

/-- **Restoring the state of a rule.** After a restart the state is right when every alert with a
live sample in the window of the query is active after the last evaluation in it; and, as far as
label sets have distinct identities, only then: the staleness marker of an alert that resolved does
not keep it from being restored. With a line break in a name the query cannot be read, and then the
state is right when no alert is active after the last evaluation. -/
theorem restore_exact_iff (order : IterOrder (List (Bytes × Bytes))) (lookback : ℕ)
    (step ts : ℤ) :
    let window := rollupWindow (lookback / 1000 * 1000 : ℕ) step
    let restored := ev.restored rule n order lookback step ts
    (ev.RestoresRight rule n window (ts - 1000) →
        ev.RestoredRight rule n window (ts - 1000) restored) ∧
      (Set.InjOn hashLabels {labels | ∃ k a, ev.SeenAt rule n window (ts - 1000) k ∧
          ev.ActiveAfter rule k a ∧ a.labels = labels} →
        ev.RestoredRight rule n window (ts - 1000) restored →
          ev.RestoresRight rule n window (ts - 1000)) := by
  intro window restored
  refine ⟨fun hright => ?_, fun hinj hright => ?_⟩
  · have hexactly : ev.RestoredExactly rule n window (ts - 1000) restored := by
      obtain ⟨hparses, hres⟩ | ⟨hparses, hnone⟩ := hright
      · exact restoredExactly_of_restorable hfresh hname hrule hparses hres
      · rw [show restored = rule from restored_of_not_parses hparses]
        exact (restoredExactly_self_iff hfresh).mpr hnone
    exact ⟨hexactly, hexactly.fires_late hfresh (forMs_restored order lookback step ts)⟩
  · by_cases hparses : rule.RestoreQueryParses
    · exact .inl ⟨hparses,
        restorable_of_restoredExactly hfresh hname hrule hparses hinj hright.exactly⟩
    · refine .inr ⟨hparses, (restoredExactly_self_iff hfresh).mp ?_⟩
      have hexactly := hright.exactly
      rwa [show restored = rule from restored_of_not_parses hparses] at hexactly

end Restart

/-- A query with one result, and then without a result, in two evaluations a minute apart. -/
def resolving : Evaluations where
  tpl := ⟨fun text _ => .ok text⟩
  order _ := .refl
  querier k _ _ := .ok
    ⟨if k = 0 then [⟨[(ascii "instance", ascii "h1")], [0], [.num 7]⟩] else [], none⟩
  time k := 60000 * k

theorem succeedsAt_resolving (k : ℕ) : resolving.SucceedsAt highLoad k := by
  refine AlertingRule.exec_ok_iff.mpr ⟨_, rfl, ?_⟩
  by_cases hk : k = 0
  · rw [hk]
    exact nodup_singleton _
  · simp [resolving, hk, AlertingRule.expandResults]

/-- The alert of the first evaluation is gone after the second, and it is restored. -/
theorem resolved_alert_restored : highLoad.alerts = ∅ ∧ 0 < highLoad.forDuration ∧
    (∀ k, resolving.SucceedsAt highLoad k) ∧ (∀ k, resolving.time k < resolving.time (k + 1)) ∧
    ¬ resolving.RestoredRight highLoad 2 (rollupWindow (3600000 / 1000 * 1000 : ℕ) 60000)
      (121000 - 1000) (resolving.restored highLoad 2 ⟨fun l => l,
        Perm.refl⟩ 3600000 60000 121000) := by
  refine ⟨rfl, by decide, succeedsAt_resolving, fun k => by simp [resolving], fun hright => ?_⟩
  have hrestored : ((resolving.restored highLoad 2 ⟨fun l => l, Perm.refl⟩ 3600000 60000
      121000).alerts[hashLabels highLoadLabels]?).isSome = true := by decide +kernel
  have hgone : (resolving.after highLoad 2).alerts.isEmpty = true := by decide +kernel
  obtain ⟨x, hx⟩ := Option.isSome_iff_exists.mp hrestored
  obtain ⟨k, a, hk, ⟨ha, -⟩, -⟩ := (hright.exactly _ x).mp hx
  have hseen : resolving.SeenAt highLoad 2 (rollupWindow (3600000 / 1000 * 1000 : ℕ) 60000)
      (121000 - 1000) 1 := ⟨by decide, succeedsAt_resolving 1, by decide, by decide⟩
  obtain rfl : k = 1 := le_antisymm (Nat.lt_succ_iff.mp hk.1.lt) (hk.2 1 hseen)
  rw [Std.ExtTreeMap.isEmpty_iff.mp hgone] at ha
  cases ha

/-- After the first evaluation the alert is active, so it can be restored. -/
theorem restore_exact_resolving :
    resolving.RestoredRight highLoad 1 (rollupWindow (3600000 / 1000 * 1000 : ℕ) 60000)
      (61000 - 1000) (resolving.restored highLoad 1 ⟨fun l => l,
        Perm.refl⟩ 3600000 60000 61000) := by
  have hzero : ∀ {j : ℕ}, resolving.SeenAt highLoad 1
      (rollupWindow (3600000 / 1000 * 1000 : ℕ) 60000)
      (61000 - 1000) j → j = 0 := fun hj => Nat.lt_one_iff.mp hj.lt
  refine (restore_exact_iff rfl (by decide) (by decide) ⟨fun l => l, Perm.refl⟩ 3600000 60000
    61000).1 (.inl ⟨(by decide : RestoreQueryParses highLoad.name _ _),
      fun j a hj ha k hk => ?_, fun k a hk ha => ?_⟩)
  · obtain rfl := hzero hj
    obtain rfl := hzero hk.1
    exact ⟨a, ha, rfl⟩
  · obtain rfl := hzero hk.1
    have htimes : ((resolving.after highLoad 1).alerts.toList.all fun e => e.2.activeAt = 0) =
        true := by
      decide +kernel
    have hactive := all_eq_true.mp htimes _
      (Std.ExtTreeMap.mem_toList_iff_getElem?_eq_some.mpr ha.1)
    rw [of_decide_eq_true hactive]
    decide

end Evaluations

end Esmetrics.Esmalert
