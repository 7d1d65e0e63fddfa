import Esmetrics.Esmalert.StateMachine

/-!
# Staleness markers of alert series

Each active alert has two live series, `ALERTS` with its state and `ALERTS_FOR_STATE`. A staleness
marker has to end exactly those series that were live after the previous evaluation and are not live
any more.

The live series of an alert overwrite a label `alertstate` of the alert, but the staleness marker
adds a second one. So the markers are complete and exact in every step in which no alert with such a
label leaves its state, and no two label sets differ in this label only (`series_exact`).
-/

namespace Esmetrics.Esmalert

open List
open Prod (fst snd)

/-! ### Label sets of series -/

/-- The labels of the `ALERTS` series of an alert in a state. -/
def alertsLabels (labels : StringMap) (state : AlertState) : List (Bytes × Bytes) :=
  sortLabels (setAlertState state.asStr (labels.toList ++ [(nameLabel, alertMetric)]))

/-- The labels of the `ALERTS_FOR_STATE` series of an alert. -/
def forStateLabels (labels : StringMap) : List (Bytes × Bytes) :=
  sortLabels (labels.toList ++ [(nameLabel, alertForStateMetric)])

/-- The labels of the staleness marker of the `ALERTS` series. -/
def staleAlertsLabels (labels : StringMap) (state : AlertState) : List (Bytes × Bytes) :=
  sortLabels (labels.toList ++ [(nameLabel, alertMetric)] ++ [(alertStateLabel, state.asStr)])

theorem labels_staleSeries_forState (labels : StringMap) (ts : ℤ) :
    (staleSeries labels alertForStateMetric none ts).labels = forStateLabels labels := by
  rw [staleSeries, forStateLabels]
  simp

section Labels

variable {labels labels' : StringMap} {state state' : AlertState}

theorem mem_sortLabels {l : List (Bytes × Bytes)} {e : Bytes × Bytes} : e ∈ sortLabels l ↔ e ∈ l :=
  (sortByKey_perm fst l).mem_iff

theorem nodup_map_fst_sortLabels {l : List (Bytes × Bytes)} (h : (l.map fst).Nodup) :
    ((sortLabels l).map fst).Nodup :=
  ((sortByKey_perm fst l).map fst).nodup_iff.mpr h

theorem map_fst_toList_nodup {β : Type} {κ : Type} [Ord κ] [Std.TransOrd κ] [Std.LawfulEqOrd κ]
    (m : Std.ExtTreeMap κ β) : (m.toList.map fst).Nodup := by
  rw [Std.ExtTreeMap.map_fst_toList_eq_keys]
  exact Std.ExtTreeMap.nodup_keys

theorem setAlertState_of_not_mem {s : Bytes} {l : List (Bytes × Bytes)}
    (h : alertStateLabel ∉ l.map fst) : setAlertState s l = l ++ [(alertStateLabel, s)] := by
  induction l with
  | nil => rfl
  | cons e l ih =>
    obtain ⟨hne, hl⟩ := not_or.mp (mt mem_cons.mpr h)
    rw [setAlertState, if_neg (Ne.symm hne), ih hl]
    rfl

theorem map_fst_setAlertState (s : Bytes) (l : List (Bytes × Bytes)) :
    (setAlertState s l).map fst =
      if alertStateLabel ∈ l.map fst then l.map fst
      else l.map fst ++ [alertStateLabel] := by
  split_ifs with hmem
  · induction l with
    | nil => cases hmem
    | cons e l ih =>
      rw [setAlertState]
      split_ifs with he
      · rfl
      · rw [map_cons, map_cons, ih ((mem_cons.mp hmem).resolve_left (Ne.symm he))]
  · rw [setAlertState_of_not_mem hmem, map_append]
    rfl

/-- Overwriting `alertstate` keeps every other label. -/
theorem mem_setAlertState {s : Bytes} {l : List (Bytes × Bytes)} {k v : Bytes}
    (hk : k ≠ alertStateLabel) : (k, v) ∈ setAlertState s l ↔ (k, v) ∈ l := by
  induction l with
  | nil =>
    rw [setAlertState, mem_singleton, Prod.mk.injEq]
    simp [hk]
  | cons e l ih =>
    rw [setAlertState]
    split_ifs with he
    · simp only [mem_cons, Prod.mk.injEq]
      refine or_congr_left ⟨fun h => absurd (h.1.trans he) hk, fun h => ?_⟩
      exact absurd ((congrArg fst h).trans he) hk
    · rw [mem_cons, mem_cons, ih]

theorem mem_setAlertState_self {s : Bytes} (l : List (Bytes × Bytes)) :
    (alertStateLabel, s) ∈ setAlertState s l := by
  induction l with
  | nil => exact mem_singleton_self _
  | cons e l ih =>
    rw [setAlertState]
    split_ifs with he
    · rw [he]
      exact mem_cons_self
    · exact mem_cons_of_mem _ ih

theorem nodup_names {name : Bytes} (h : nameLabel ∉ labels) :
    ((labels.toList ++ [(nameLabel, name)]).map fst).Nodup := by
  rw [map_append]
  refine nodup_append.mpr ⟨map_fst_toList_nodup labels, nodup_singleton _, ?_⟩
  rintro k hk k' hk' rfl
  obtain rfl := mem_singleton.mp hk'
  rw [Std.ExtTreeMap.map_fst_toList_eq_keys, Std.ExtTreeMap.mem_keys] at hk
  exact h hk

/-- The names of a label set that is returned are distinct. -/
theorem nodup_alertsLabels (h : nameLabel ∉ labels) (state : AlertState) :
    ((alertsLabels labels state).map fst).Nodup := by
  refine nodup_map_fst_sortLabels ?_
  rw [map_fst_setAlertState]
  have hnames := @nodup_names labels alertMetric h
  split_ifs with hmem
  · exact hnames
  · exact nodup_append.mpr ⟨hnames, nodup_singleton _, fun k hk k' hk' heq =>
      hmem (mem_singleton.mp hk' ▸ heq ▸ hk)⟩

theorem nodup_forStateLabels (h : nameLabel ∉ labels) :
    ((forStateLabels labels).map fst).Nodup :=
  nodup_map_fst_sortLabels (nodup_names h)

/-- Without a label `alertstate` of the alert, the marker has the labels of the live series. -/
theorem staleAlertsLabels_eq (h : alertStateLabel ∉ labels) (state : AlertState) :
    staleAlertsLabels labels state = alertsLabels labels state := by
  rw [staleAlertsLabels, alertsLabels, setAlertState_of_not_mem]
  rw [map_append, mem_append, Std.ExtTreeMap.map_fst_toList_eq_keys,
    Std.ExtTreeMap.mem_keys]
  rintro (hmem | hmem)
  · exact h hmem
  · exact absurd (mem_singleton.mp hmem) (by decide)

/-! ### From the labels of a series back to its alert -/

/-- Apart from `__name__` and `alertstate`, the labels of the series are those of the alert. -/
def Carries (series : List (Bytes × Bytes)) (labels : StringMap) : Prop :=
  ∀ k v, k ≠ nameLabel → k ≠ alertStateLabel → ((k, v) ∈ series ↔ labels[k]? = some v)

theorem mem_toList_append_name {name k v : Bytes} (hk : k ≠ nameLabel) :
    (k, v) ∈ labels.toList ++ [(nameLabel, name)] ↔ labels[k]? = some v := by
  rw [mem_append, mem_singleton, Prod.mk.injEq,
    Std.ExtTreeMap.mem_toList_iff_getElem?_eq_some]
  simp [hk]

theorem carries_alertsLabels (labels : StringMap) (state : AlertState) :
    Carries (alertsLabels labels state) labels := by
  intro k v hname hstate
  rw [alertsLabels, mem_sortLabels, mem_setAlertState hstate, mem_toList_append_name hname]

theorem carries_forStateLabels (labels : StringMap) : Carries (forStateLabels labels) labels := by
  intro k v hname _
  rw [forStateLabels, mem_sortLabels, mem_toList_append_name hname]

/-- One series has the labels of two alerts only if they agree apart from `alertstate`. -/
theorem Carries.erase_eq {series : List (Bytes × Bytes)} (h : Carries series labels)
    (h' : Carries series labels') (hname : nameLabel ∉ labels) (hname' : nameLabel ∉ labels') :
    labels.erase alertStateLabel = labels'.erase alertStateLabel := by
  refine Std.ExtTreeMap.ext_getElem? fun k => ?_
  rw [Std.ExtTreeMap.getElem?_erase, Std.ExtTreeMap.getElem?_erase]
  by_cases hk : k = alertStateLabel
  · simp [hk]
  · rw [if_neg (by simpa using Ne.symm hk), if_neg (by simpa using Ne.symm hk)]
    by_cases hk' : k = nameLabel
    · rw [hk', Std.ExtTreeMap.getElem?_eq_none hname, Std.ExtTreeMap.getElem?_eq_none hname']
    · exact Option.ext fun v => (h k v hk' hk).symm.trans (h' k v hk' hk)

theorem alertsLabels_ne_forStateLabels (hname : nameLabel ∉ labels') :
    alertsLabels labels state ≠ forStateLabels labels' := by
  intro heq
  have hmem : (nameLabel, alertMetric) ∈ forStateLabels labels' := by
    rw [← heq, alertsLabels, mem_sortLabels, mem_setAlertState (by decide)]
    exact mem_append_right _ (mem_singleton_self _)
  rw [forStateLabels, mem_sortLabels, mem_append, mem_singleton,
    Std.ExtTreeMap.mem_toList_iff_getElem?_eq_some, Std.ExtTreeMap.getElem?_eq_none hname] at hmem
  exact absurd (hmem.resolve_left (by simp)) (by decide)

theorem alertsLabels_injective_state (hname : nameLabel ∉ labels)
    (h : alertsLabels labels state = alertsLabels labels state') : state = state' := by
  have hmem : (alertStateLabel, state'.asStr) ∈ alertsLabels labels state := by
    rw [h, alertsLabels, mem_sortLabels]
    exact mem_setAlertState_self _
  have hself : (alertStateLabel, state.asStr) ∈ alertsLabels labels state := by
    rw [alertsLabels, mem_sortLabels]
    exact mem_setAlertState_self _
  have heq := inj_on_of_nodup_map (nodup_alertsLabels hname state) hmem hself rfl
  have hstr : state'.asStr = state.asStr := congrArg snd heq
  revert hstr
  cases state <;> cases state' <;> decide

end Labels

/-! ### The series of one alert -/

/-- The label sets of the live series of an alert. -/
def liveLabels : Option Alert → List (List (Bytes × Bytes))
  | none => []
  | some a =>
    if a.state = .inactive then [] else [alertsLabels a.labels a.state, forStateLabels a.labels]

/-- The staleness markers that an evaluation gives for the alert of one identity. -/
def alertStale (rule : AlertingRule) (ts : ℤ) (result : Option PendingAlert) (o : Option Alert) :
    List Series :=
  match alertUpdate ts result (alertKept ts o) with
  | none => []
  | some a => (a.sweep result.isSome rule.forMs rule.keepFiringForMs ts).2

/-- The alert leaves its state: it is pending and absent, pending and promoted, or firing and absent
for too long. -/
def Alert.Leaves (a : Alert) (rule : AlertingRule) (present : Bool) (ts : ℤ) : Prop :=
  (a.state = .pending ∧ (present = false ∨ (0 < rule.forMs ∧ rule.forMs ≤ ts - a.activeAt))) ∨
    (a.state = .firing ∧ present = false ∧ rule.keepFiringForMs ≤
      (a.startKeepFiring rule.keepFiringForMs ts).keepFiringElapsed ts)

/-- How the series of an alert go on: none was live; the same stay live; all of them end; or the
`ALERTS` series ends with the state `pending` and goes on with `firing`. -/
inductive SeriesStep (before stale now : List (List (Bytes × Bytes))) : Prop where
  | begins (hstale : stale = []) (hbefore : before = [])
  | stays (hstale : stale = []) (hnow : now = before)
  | ends (hstale : stale = before) (hnow : now = [])
  | fires (labels : StringMap) (hname : nameLabel ∉ labels)
      (hstale : stale = [alertsLabels labels .pending])
      (hbefore : before = [alertsLabels labels .pending, forStateLabels labels])
      (hnow : now = [alertsLabels labels .firing, forStateLabels labels])

theorem liveLabels_of_active {a : Alert} (h : a.state ≠ .inactive) :
    liveLabels (some a) = [alertsLabels a.labels a.state, forStateLabels a.labels] := if_neg h

theorem liveLabels_of_inactive {a : Alert} (h : a.state = .inactive) : liveLabels (some a) = [] :=
  if_pos h

theorem nodup_liveLabels {o : Option Alert} (hname : ∀ a, o = some a → nameLabel ∉ a.labels) :
    (liveLabels o).Nodup := by
  cases o with
  | none => exact nodup_nil
  | some a =>
    by_cases h : a.state = .inactive
    · rw [liveLabels_of_inactive h]
      exact nodup_nil
    · rw [liveLabels_of_active h]
      simpa using alertsLabels_ne_forStateLabels (hname a rfl)

namespace SeriesStep

variable {before stale now : List (List (Bytes × Bytes))}

/-- The series that end are those that were live and are not any more. -/
theorem mem_iff (h : SeriesStep before stale now) (series : List (Bytes × Bytes)) :
    series ∈ stale ↔ series ∈ before ∧ series ∉ now := by
  cases h with
  | begins hstale hbefore => simp [hstale, hbefore]
  | stays hstale hnow => simp [hstale, hnow]
  | ends hstale hnow => simp [hstale, hnow]
  | fires labels hname hstale hbefore hnow =>
    rw [hstale, hbefore, hnow, mem_singleton, mem_pair, mem_pair]
    constructor
    · rintro rfl
      refine ⟨.inl rfl, not_or.mpr ⟨fun heq => ?_, alertsLabels_ne_forStateLabels hname⟩⟩
      cases alertsLabels_injective_state hname heq
    · rintro ⟨rfl | rfl, hnot⟩
      · rfl
      · exact absurd (.inr rfl) hnot

theorem nodup (h : SeriesStep before stale now) (hbefore : before.Nodup) : stale.Nodup := by
  cases h with
  | begins hstale _ => exact hstale ▸ nodup_nil
  | stays hstale _ => exact hstale ▸ nodup_nil
  | ends hstale _ => exact hstale ▸ hbefore
  | fires labels _ hstale _ _ => exact hstale ▸ nodup_singleton _

end SeriesStep

section OneAlert

variable {rule : AlertingRule} {ts : ℤ} {result : Option PendingAlert} {o : Option Alert}

theorem alertStale_of_present (p : PendingAlert) :
    alertStale rule ts (some p) o =
      ((((alertKept ts o).map fun a => a.seenAgain p ts).getD (Alert.new p ts)).promote
        rule.forMs ts).2 := rfl

theorem alertStale_of_absent :
    alertStale rule ts none o = (alertKept ts o).elim [] fun a =>
      (a.sweep false rule.forMs rule.keepFiringForMs ts).2 := by
  rw [alertStale, alertUpdate]
  cases alertKept ts o <;> rfl

/-- An alert that becomes active now has no staleness marker. -/
theorem promote_stale_of_new {a : Alert} (h : a.activeAt = ts) (forMs : ℤ) :
    (a.promote forMs ts).2 = [] := by
  rw [Alert.promote]
  by_cases hprom : a.state = .pending ∧ forMs ≤ ts - a.activeAt
  · rw [if_pos hprom]
    have hle : forMs ≤ 0 := by
      have := hprom.2
      omega
    exact if_neg (not_lt.mpr hle)
  · rw [if_neg hprom]

/-- The series of an alert that is present. -/
theorem seriesStep_present (p : PendingAlert) (hname : ∀ a, o = some a → nameLabel ∉ a.labels)
    (hstate : ∀ a, o = some a → alertStateLabel ∈ a.labels → ¬ a.Leaves rule true ts)
    (hfor : ∀ a, o = some a → a.state = .pending → 0 < rule.forMs) :
    SeriesStep (liveLabels o) ((alertStale rule ts (some p) o).map Series.labels)
      (liveLabels (alertStep rule ts (some p) o)) := by
  rw [alertStale_of_present, alertStep_some]
  cases o with
  | none =>
    exact .begins (congrArg (List.map Series.labels)
      (promote_stale_of_new (a := Alert.new p ts) rfl rule.forMs)) rfl
  | some a =>
    cases hs : a.state with
    | inactive =>
      refine .begins ?_ (liveLabels_of_inactive hs)
      rw [promote_stale_of_new]
      · rfl
      · rw [alertKept, Option.filter_some]
        split_ifs
        · simp [Alert.seenAgain, hs]
        · rfl
    | firing =>
      have hseen : (a.seenAgain p ts).state = .firing := by simp [Alert.seenAgain, hs]
      rw [alertKept_of_ne_inactive (by simp [hs]), Option.map_some, Option.getD_some,
        Alert.promote_of_ne_pending (by simp [hseen])]
      refine .stays rfl ?_
      rw [liveLabels_of_active (by simp [hseen]), liveLabels_of_active (by simp [hs]), hseen, hs]
      simp [Alert.seenAgain, hs]
    | pending =>
      have hseen : (a.seenAgain p ts).state = .pending := by simp [Alert.seenAgain, hs]
      have hlabels : (a.seenAgain p ts).labels = a.labels := by simp [Alert.seenAgain, hs]
      have hactive : (a.seenAgain p ts).activeAt = a.activeAt := by simp [Alert.seenAgain, hs]
      rw [alertKept_of_ne_inactive (by simp [hs]), Option.map_some, Option.getD_some, Alert.promote,
        hseen, hactive, liveLabels_of_active (by simp [hs]), hs]
      by_cases hprom : rule.forMs ≤ ts - a.activeAt
      · have hpos : 0 < rule.forMs := hfor a rfl hs
        have hfree : alertStateLabel ∉ a.labels := fun hmem =>
          hstate a rfl hmem (.inl ⟨hs, .inr ⟨hpos, hprom⟩⟩)
        rw [if_pos ⟨rfl, hprom⟩, if_pos hpos, hlabels]
        refine .fires a.labels (hname a rfl) ?_ rfl ?_
        · rw [← staleAlertsLabels_eq hfree]
          rfl
        · rw [← hlabels]
          exact liveLabels_of_active (by simp)
      · rw [if_neg fun h => hprom h.2]
        refine .stays rfl ?_
        rw [liveLabels_of_active (by simp [hseen]), hseen, hlabels]

/-- The series of an alert that is absent. -/
theorem seriesStep_absent
    (hstate : ∀ a, o = some a → alertStateLabel ∈ a.labels → ¬ a.Leaves rule false ts) :
    SeriesStep (liveLabels o) ((alertStale rule ts none o).map Series.labels)
      (liveLabels (alertStep rule ts none o)) := by
  rw [alertStale_of_absent, alertStep_none]
  cases o with
  | none => exact .begins rfl rfl
  | some a =>
    cases hs : a.state with
    | inactive =>
      refine .begins ?_ (liveLabels_of_inactive hs)
      rw [alertKept, Option.filter_some]
      split_ifs
      · rw [Option.elim_some, Alert.sweep_of_inactive hs]
        rfl
      · rfl
    | pending =>
      have hfree : alertStateLabel ∉ a.labels := fun hmem =>
        hstate a rfl hmem (.inl ⟨hs, .inl rfl⟩)
      rw [alertKept_of_ne_inactive (by simp [hs]), Option.elim_some, Option.bind_some,
        Alert.sweep_of_pending hs]
      refine .ends ?_ rfl
      rw [liveLabels_of_active (by simp [hs]), hs, ← staleAlertsLabels_eq hfree,
        ← labels_staleSeries_forState a.labels ts]
      rfl
    | firing =>
      rw [alertKept_of_ne_inactive (by simp [hs]), Option.elim_some, Option.bind_some,
        Alert.sweep_of_firing hs]
      split_ifs with hexp
      · have hfree : alertStateLabel ∉ a.labels := fun hmem =>
          hstate a rfl hmem (.inr ⟨hs, rfl, hexp⟩)
        refine .ends ?_ (liveLabels_of_inactive rfl)
        rw [liveLabels_of_active (by simp [hs]), hs, ← staleAlertsLabels_eq hfree,
          ← labels_staleSeries_forState a.labels ts]
        rfl
      · refine .stays rfl ?_
        rw [liveLabels_of_active (by simp [hs]), liveLabels_of_active (by simp [hs])]
        simp

theorem seriesStep (hname : ∀ a, o = some a → nameLabel ∉ a.labels)
    (hstate : ∀ a, o = some a → alertStateLabel ∈ a.labels → ¬ a.Leaves rule result.isSome ts)
    (hfor : ∀ a, o = some a → a.state = .pending → 0 < rule.forMs) :
    SeriesStep (liveLabels o) ((alertStale rule ts result o).map Series.labels)
      (liveLabels (alertStep rule ts result o)) := by
  cases result with
  | none => exact seriesStep_absent hstate
  | some p => exact seriesStep_present p hname hstate hfor

end OneAlert

/-! ### The labels of alerts have no `__name__` -/

section Names

theorem exported_ne_nameLabel (k : Bytes) : ascii "exported_" ++ k ≠ nameLabel := by
  intro h
  have hhead : (ascii "exported_" ++ k).head? = some 101 := rfl
  rw [h] at hhead
  exact absurd hhead (by decide)

theorem nameLabel_not_mem_insert {m : StringMap} {k : Bytes} (h : nameLabel ∉ m)
    (hk : k ≠ nameLabel) (v : Bytes) : nameLabel ∉ m.insert k v := by
  rw [Std.ExtTreeMap.mem_insert]
  rintro (heq | hmem)
  · exact hk (by simpa using heq)
  · exact h hmem

theorem nameLabel_not_mem_add {ls : LabelSet} (h : nameLabel ∉ ls.processed) {k : Bytes}
    (hk : k ≠ nameLabel) (v : Bytes) : nameLabel ∉ (ls.add k v).processed := by
  rw [LabelSet.add]
  split_ifs
  · exact fun hmem => h (Std.ExtTreeMap.mem_of_mem_erase hmem)
  · have hinsert := nameLabel_not_mem_insert h hk v
    dsimp only
    split
    · exact hinsert
    · split_ifs
      · exact nameLabel_not_mem_insert hinsert (exported_ne_nameLabel k) _
      · exact hinsert

theorem nameLabel_not_mem_fromMetric (m : Metric) : nameLabel ∉
    (LabelSet.fromMetric m).processed := by
  rw [LabelSet.fromMetric]
  refine List.foldlRecOn (motive := fun ls : LabelSet => nameLabel ∉ ls.processed) m.labels _ ?_ ?_
  · simp
  · intro ls h kv _
    dsimp only
    split_ifs with hk
    · exact h
    · exact nameLabel_not_mem_insert h hk _

theorem nameLabel_not_mem_buildAlertLabels (tpl : Templates) (m : Metric) {ruleLabels : StringMap}
    (h : nameLabel ∉ ruleLabels) (ruleName groupName expr : Bytes) (disable : Bool) :
    nameLabel ∉ (buildAlertLabels tpl m ruleLabels ruleName groupName expr disable).processed := by
  have hfold : ∀ data : TplData, nameLabel ∉ ((renderMap tpl ruleLabels data).toList.foldl
      (fun ls kv => ls.add kv.1 kv.2) (LabelSet.fromMetric m)).processed := by
    intro data
    refine List.foldlRecOn (motive := fun ls : LabelSet => nameLabel ∉ ls.processed) _ _
      (nameLabel_not_mem_fromMetric m) fun ls hls kv hkv => nameLabel_not_mem_add hls ?_ _
    rintro hname
    have hmem : kv.1 ∈ renderMap tpl ruleLabels data := by
      rw [← Std.ExtTreeMap.mem_keys, ← Std.ExtTreeMap.map_fst_toList_eq_keys]
      exact mem_map_of_mem hkv
    rw [renderMap, Std.ExtTreeMap.mem_map, hname] at hmem
    exact h hmem
  rw [buildAlertLabels]
  have hname : alertNameLabel ≠ nameLabel := by decide
  have hgroup : alertGroupLabel ≠ nameLabel := by decide
  split_ifs
  · exact nameLabel_not_mem_add (nameLabel_not_mem_add (hfold _) hname _) hgroup _
  · exact nameLabel_not_mem_add (hfold _) hgroup _
  · exact nameLabel_not_mem_add (hfold _) hname _
  · exact hfold _

theorem nameLabel_not_mem_resultLabels {rule : AlertingRule} (h : nameLabel ∉ rule.labels)
    {tpl : Templates} {q : Querier} {ts : ℤ} {labels : StringMap}
    (hmem : labels ∈ rule.resultLabels tpl q ts) : nameLabel ∉ labels := by
  rw [AlertingRule.resultLabels] at hmem
  split at hmem
  · cases hmem
  · obtain ⟨m, -, rfl⟩ := mem_map.mp hmem
    exact nameLabel_not_mem_buildAlertLabels tpl m h _ _ _ _

end Names

/-! ### The series of an evaluation -/

/-- The series has a staleness marker. -/
def Series.IsStale (s : Series) : Prop := ∃ x ∈ s.samples, x.value = .staleNan

/-- The series of an evaluation are right after those of the previous one: their label sets are
pairwise distinct and have distinct names, and those with a staleness marker are the ones that were
live and are not any more. -/
structure SeriesExact (before tss : List Series) : Prop where
  nodup : (tss.map Series.labels).Nodup
  names : ∀ s ∈ tss, (s.labels.map fst).Nodup
  stale_iff : ∀ labels, (∃ s ∈ tss, s.IsStale ∧ s.labels = labels) ↔
    (∃ s ∈ before, ¬ s.IsStale ∧ s.labels = labels) ∧
      ¬ ∃ s ∈ tss, ¬ s.IsStale ∧ s.labels = labels

/-! ### Stale and live series -/

/-- The samples of a staleness marker. -/
def staleSamples (ts : ℤ) : List Sample := [⟨.staleNan, ts⟩]

theorem samples_pendingAlertStaleSeries {labels : StringMap} {ts : ℤ} {includeForState : Bool}
    {s : Series} (h : s ∈ pendingAlertStaleSeries labels ts includeForState) :
    s.samples = staleSamples ts := by
  rw [pendingAlertStaleSeries] at h
  obtain rfl | h := mem_cons.mp h
  · rfl
  · split_ifs at h
    · obtain rfl := mem_singleton.mp h
      rfl
    · cases h

theorem samples_firingAlertStaleSeries {labels : StringMap} {ts : ℤ} {s : Series}
    (h : s ∈ firingAlertStaleSeries labels ts) : s.samples = staleSamples ts := by
  obtain rfl | rfl := mem_pair.mp h <;> rfl

theorem samples_of_mem_promote {a : Alert} {forMs ts : ℤ} {s : Series}
    (h : s ∈ (a.promote forMs ts).2) : s.samples = staleSamples ts := by
  rw [Alert.promote] at h
  split_ifs at h
  · exact samples_pendingAlertStaleSeries h
  · cases h
  · cases h

theorem samples_of_mem_sweep {a : Alert} {present : Bool} {forMs keepFiringForMs ts : ℤ}
    {s : Series}
    (h : s ∈ (a.sweep present forMs keepFiringForMs ts).2) : s.samples = staleSamples ts := by
  cases present with
  | true => exact samples_of_mem_promote h
  | false =>
    cases hs : a.state with
    | pending =>
      rw [Alert.sweep_of_pending hs] at h
      exact samples_pendingAlertStaleSeries h
    | inactive =>
      rw [Alert.sweep_of_inactive hs] at h
      cases h
    | firing =>
      rw [Alert.sweep_of_firing hs] at h
      split_ifs at h
      · exact samples_firingAlertStaleSeries h
      · cases h

theorem samples_of_mem_alertStale {rule : AlertingRule} {ts : ℤ} {result : Option PendingAlert}
    {o : Option Alert} {s : Series} (h : s ∈ alertStale rule ts result o) :
    s.samples = staleSamples ts := by
  rw [alertStale] at h
  split at h
  · cases h
  · exact samples_of_mem_sweep h

theorem isStale_of_mem_alertStale {rule : AlertingRule} {ts : ℤ} {result : Option PendingAlert}
    {o : Option Alert} {s : Series} (h : s ∈ alertStale rule ts result o) : s.IsStale :=
  ⟨⟨.staleNan, ts⟩, samples_of_mem_alertStale h ▸ mem_singleton_self _, rfl⟩

theorem not_isStale_live {a : Alert} {ts : ℤ} {s : Series}
    (h : s ∈ [alertTimeSeries a ts, alertForTimeSeries a ts]) : ¬ s.IsStale := by
  rintro ⟨x, hx, hstale⟩
  obtain rfl | rfl := mem_pair.mp h
  · obtain rfl := mem_singleton.mp hx
    cases hstale
  · obtain rfl := mem_singleton.mp hx
    simp only [SampleValue.ofInt] at hstale
    split_ifs at hstale

/-- Visiting the entries of a map gives distinct things when each entry does and no two entries
share one. -/
theorem nodup_flatMap_visit {α β : Type} (order : IterOrder (UInt64 × α))
    (m : Std.ExtTreeMap UInt64 α) {f : UInt64 × α → List β}
    (hf : ∀ (id : UInt64) a, m[id]? = some a → (f (id, a)).Nodup)
    (hdisj : ∀ (id : UInt64) a (id' : UInt64) a', m[id]? = some a → m[id']? = some a' →
      ∀ x, x ∈ f (id, a) → x ∈ f (id', a') → id = id') :
    ((order.visit m.toList).flatMap f).Nodup := by
  have hmem : ∀ {e : UInt64 × α}, e ∈ order.visit m.toList → m[e.1]? = some e.2 := by
    rintro ⟨id, a⟩ he
    rwa [(order.perm _).mem_iff, Std.ExtTreeMap.mem_toList_iff_getElem?_eq_some] at he
  have hids : ((order.visit m.toList).map fst).Nodup :=
    ((order.perm _).map fst).nodup_iff.mpr (map_fst_toList_nodup m)
  refine nodup_flatMap.mpr ⟨fun e he => hf e.1 e.2 (hmem he), ?_⟩
  refine (pairwise_map.mp hids).imp_of_mem fun {e e'} he he' hne => ?_
  exact fun x hx hx' => hne (hdisj e.1 e.2 e'.1 e'.2 (hmem he) (hmem he') x hx hx')

namespace Evaluations

variable (ev : Evaluations) (rule : AlertingRule)

/-- The series of an evaluation. -/
def seriesAt (n : ℕ) : List Series :=
  ((ev.after rule n).exec ev.tpl (ev.order n) (ev.querier n) (ev.time n)).2.toOption.getD []

/-- The series of the previous evaluation. -/
def seriesBefore : ℕ → List Series
  | 0 => []
  | n + 1 => ev.seriesAt rule n

/-- The identity of a label set of the results. -/
def IsPresentAt (n : ℕ) (id : UInt64) : Prop := id ∈ (ev.labelsAt rule n).map hashLabels

instance (n : ℕ) (id : UInt64) : Decidable (ev.IsPresentAt rule n id) := by
  unfold IsPresentAt
  infer_instance

/-- The label sets that an evaluation is about: those of the active alerts and of the results. -/
def involved (n : ℕ) : Set StringMap :=
  {labels | labels ∈ ev.labelsAt rule n ∨ ∃ (id : UInt64) (a : Alert),
    (ev.after rule n).alerts[id]? = some a ∧ (a.state ≠ .inactive ∨ ev.IsPresentAt rule n id) ∧
      a.labels = labels}

/-- The label `alertstate` does not get in the way: no alert that has it leaves its state, and no
two label sets differ in it only. -/
structure Distinguishable (n : ℕ) : Prop where
  stays : ∀ (id : UInt64) (a : Alert), (ev.after rule n).alerts[id]? = some a →
    alertStateLabel ∈ a.labels → ¬ a.Leaves rule (ev.IsPresentAt rule n id) (ev.time n)
  distinct : ∀ labels ∈ ev.involved rule n, ∀ labels' ∈ ev.involved rule n,
    labels.erase alertStateLabel = labels'.erase alertStateLabel → labels = labels'

variable {ev rule} {n : ℕ}

theorem nameLabel_not_mem_of_involved (hfresh : rule.alerts = ∅) (hrule : nameLabel ∉ rule.labels)
    {id : UInt64} {a : Alert} (h : (ev.after rule n).alerts[id]? = some a) :
    nameLabel ∉ a.labels := by
  obtain ⟨⟨k, -, hmem⟩, -⟩ := @labelled_after ev rule hfresh n id a h
  exact nameLabel_not_mem_resultLabels hrule hmem

theorem alertStep_after (k : ℕ) (ts : ℤ) (result : Option PendingAlert) (o : Option Alert) :
    alertStep (ev.after rule k) ts result o = alertStep rule ts result o := by
  rw [ev.after_eq rule k]
  rfl

/-- A successful evaluation: what becomes of each identity, and of which parts its series
consist. -/
structure Step (ev : Evaluations) (rule : AlertingRule) (n : ℕ) (pending : List PendingAlert)
    (alerts : AlertMap) (stale live : List Series) : Prop where
  isSome_resultOf : ∀ id, (resultOf pending id).isSome ↔ ev.IsPresentAt rule n id
  labels_mem : ∀ p ∈ pending, p.labels ∈ ev.labelsAt rule n ∧ p.id = hashLabels p.labels
  getElem?_alerts : ∀ id : UInt64,
    alerts[id]? = alertUpdate (ev.time n) (resultOf pending id)
      (alertKept (ev.time n) (ev.after rule n).alerts[id]?)
  getElem?_after : ∀ id : UInt64, (ev.after rule (n + 1)).alerts[id]? =
    alertStep rule (ev.time n) (resultOf pending id) (ev.after rule n).alerts[id]?
  series_eq : ev.seriesAt rule n = stale ++ live
  stale_eq : stale = ((ev.order n).visit alerts.toList).flatMap fun e =>
    (e.2.sweep (resultOf pending e.1).isSome rule.forMs rule.keepFiringForMs (ev.time n)).2
  live_eq : live = (ev.after rule (n + 1)).liveSeries (ev.order n) (ev.time n)

theorem exists_step (hok : ev.SucceedsAt rule n) :
    ∃ pending alerts stale live, Step ev rule n pending alerts stale live := by
  obtain ⟨e, -, hnot, -⟩ | ⟨pending, alerts, updated, tss, hres, hok', heval⟩ :=
    (ev.after rule n).exec_cases ev.tpl (ev.order n) (ev.querier n) (ev.time n)
  · exact absurd (AlertingRule.exec_ok_iff.mp hok) hnot
  · obtain ⟨hlabels, hids⟩ := AlertingRule.map_labels_of_results hres
    rw [resultLabels_after] at hlabels
    have hids' : pending.map PendingAlert.id = (ev.labelsAt rule n).map hashLabels := by
      rw [← hlabels, map_map]
      exact map_congr_left hids
    have hpresent : ∀ id, decide (id ∈ updated) = (resultOf pending id).isSome := fun id => by
      rw [Bool.eq_iff_iff, decide_eq_true_iff, Esmalert.isSome_resultOf, heval.mem_updated]
    refine ⟨pending, alerts, _, _, ⟨fun id => ?_, fun p hp => ⟨?_, hids p hp⟩,
      heval.getElem?_alerts, fun id => ?_, ?_, rfl, rfl⟩⟩
    · rw [Esmalert.isSome_resultOf, hids', IsPresentAt]
    · exact hlabels ▸ mem_map_of_mem hp
    · rw [after, heval.getElem?_eq, alertStep_after]
    · rw [seriesAt, hok', heval.series_eq, after]
      refine congrArg (· ++ _) ?_
      rw [AlertingRule.sweepAndPromote]
      simp only [hpresent]
      rw [ev.after_eq rule n]
      rfl

/-- A rule that fires at once has no pending alerts. -/
theorem forMs_pos_of_pending (hfresh : rule.alerts = ∅) (hok : ∀ k < n, ev.SucceedsAt rule k)
    {id : UInt64} {a : Alert} (h : (ev.after rule n).alerts[id]? = some a)
    (hs : a.state = .pending) : 0 < rule.forMs := by
  induction n generalizing a with
  | zero =>
    rw [after, hfresh] at h
    cases h
  | succ n ih =>
    obtain ⟨pending, alerts, stale, live, hstep⟩ := exists_step (hok n (Nat.lt_succ_self n))
    -- a pending alert was not promoted
    have hnot : ∀ {a₁ : Alert}, a = (a₁.promote rule.forMs (ev.time n)).1 →
        a₁.activeAt = ev.time n → 0 < rule.forMs := by
      rintro a₁ rfl hactive
      by_contra hle
      have hne : a₁.state ≠ .pending := fun hpend => by
        rw [Alert.promote, if_pos ⟨hpend, by omega⟩] at hs
        cases hs
      rw [Alert.promote_of_ne_pending hne] at hs
      exact hne hs
    rw [hstep.getElem?_after] at h
    obtain ⟨-, -, hs'⟩ | ⟨a₁, -, -, -, hs', -⟩ | ⟨a₁, -, -, -, hs', -⟩ | ⟨p, a₁, -, ho, -, heq⟩ |
      ⟨p, -, heq⟩ := alertStep_cases h
    · cases hs.symm.trans hs'
    · cases hs.symm.trans hs'
    · cases hs.symm.trans hs'
    · cases hs₁ : a₁.state with
      | pending => exact ih (fun k hk => hok k (hk.trans (Nat.lt_succ_self n))) ho hs₁
      | inactive => exact hnot heq (by simp [Alert.activeFrom, hs₁])
      | firing =>
        have hseen : (a₁.seenAgain p (ev.time n)).state = .firing :=
          Alert.seenAgain_state_eq_firing_iff.mpr hs₁
        rw [heq, Alert.promote_of_ne_pending (by simp [hseen]), hseen] at hs
        cases hs
    · exact hnot heq rfl

/-- The label set of an identity that a series is about. -/
def IsAbout (ev : Evaluations) (rule : AlertingRule) (n : ℕ) (id : UInt64)
    (series : List (Bytes × Bytes)) : Prop :=
  ∃ labels ∈ ev.involved rule n, hashLabels labels = id ∧ nameLabel ∉ labels ∧ Carries series labels

/-- A series is about one identity. -/
theorem IsAbout.id_eq (hdist : ev.Distinguishable rule n) {id id' : UInt64}
    {series : List (Bytes × Bytes)} (h : ev.IsAbout rule n id series)
    (h' : ev.IsAbout rule n id' series) : id = id' := by
  obtain ⟨labels, hmem, rfl, hname, hcarries⟩ := h
  obtain ⟨labels', hmem', rfl, hname', hcarries'⟩ := h'
  rw [hdist.distinct labels hmem labels' hmem' (hcarries.erase_eq hcarries' hname hname')]

theorem carries_liveLabels {a : Alert} {series : List (Bytes × Bytes)}
    (h : series ∈ liveLabels (some a)) : a.state ≠ .inactive ∧ Carries series a.labels := by
  by_cases hs : a.state = .inactive
  · rw [liveLabels_of_inactive hs] at h
    cases h
  · rw [liveLabels_of_active hs] at h
    refine ⟨hs, ?_⟩
    obtain rfl | rfl := mem_pair.mp h
    · exact carries_alertsLabels _ _
    · exact carries_forStateLabels _

/-- The series that were live before an evaluation are about their identities. -/
theorem isAbout_before (hfresh : rule.alerts = ∅) (hrule : nameLabel ∉ rule.labels) {id : UInt64}
    {series : List (Bytes × Bytes)} (h : series ∈ liveLabels (ev.after rule n).alerts[id]?) :
    ev.IsAbout rule n id series := by
  cases ha : (ev.after rule n).alerts[id]? with
  | none =>
    rw [ha] at h
    cases h
  | some a =>
    rw [ha] at h
    obtain ⟨hs, hcarries⟩ := carries_liveLabels h
    exact ⟨a.labels, .inr ⟨id, a, ha, .inl hs, rfl⟩, (labelled_after hfresh n id a ha).2,
      nameLabel_not_mem_of_involved hfresh hrule ha, hcarries⟩

/-- The series that are live after an evaluation are about their identities. -/
theorem isAbout_now (hfresh : rule.alerts = ∅) (hrule : nameLabel ∉ rule.labels)
    {pending : List PendingAlert} {alerts : AlertMap} {stale live : List Series}
    (hstep : Step ev rule n pending alerts stale live) {id : UInt64} {series : List (Bytes × Bytes)}
    (h : series ∈ liveLabels (ev.after rule (n + 1)).alerts[id]?) :
    ev.IsAbout rule n id series := by
  cases ha : (ev.after rule (n + 1)).alerts[id]? with
  | none =>
    rw [ha] at h
    cases h
  | some a =>
    rw [ha] at h
    obtain ⟨hs, hcarries⟩ := carries_liveLabels h
    refine ⟨a.labels, ?_, (labelled_after hfresh (n + 1) id a ha).2,
      nameLabel_not_mem_of_involved hfresh hrule ha, hcarries⟩
    rw [hstep.getElem?_after, alertStep, Option.bind_eq_some_iff] at ha
    obtain ⟨a₁, hup, hsweep⟩ := ha
    rw [Alert.labels_sweep hsweep]
    obtain ⟨hnone, ho, -⟩ | ⟨p, a₀, hp, ho, -, rfl⟩ | ⟨p, hp, rfl⟩ := alertUpdate_cases hup
    · refine .inr ⟨id, a₁, ho, .inl fun hs₁ => ?_, rfl⟩
      rw [hnone, Option.isSome_none, Alert.sweep_of_inactive hs₁] at hsweep
      exact hs (Option.some.inj hsweep ▸ hs₁)
    · refine .inr ⟨id, a₀, ho, .inr ((hstep.isSome_resultOf id).mp (by rw [hp]; rfl)), ?_⟩
      by_cases hs₀ : a₀.state = .inactive <;> simp [Alert.seenAgain, hs₀]
    · exact .inl (hstep.labels_mem p (mem_of_resultOf_eq_some hp).1).1

/-! ### The live series of a rule -/

theorem map_labels_live (a : Alert) (ts : ℤ) :
    (if a.state = .inactive then [] else [alertTimeSeries a ts, alertForTimeSeries a ts]).map
      Series.labels = liveLabels (some a) := by
  rw [liveLabels]
  split_ifs <;> rfl

theorem mem_labels_liveSeries {rule : AlertingRule} {order : AlertOrder} {ts : ℤ}
    {series : List (Bytes × Bytes)} :
    series ∈ (rule.liveSeries order ts).map Series.labels ↔
      ∃ id : UInt64, series ∈ liveLabels rule.alerts[id]? := by
  rw [AlertingRule.liveSeries, map_flatMap, mem_flatMap]
  simp only [map_labels_live, (order.perm _).mem_iff]
  constructor
  · rintro ⟨⟨id, a⟩, hmem, hseries⟩
    refine ⟨id, ?_⟩
    rwa [Std.ExtTreeMap.mem_toList_iff_getElem?_eq_some.mp hmem]
  · rintro ⟨id, hseries⟩
    cases ha : rule.alerts[id]? with
    | none =>
      rw [ha] at hseries
      cases hseries
    | some a =>
      rw [ha] at hseries
      exact ⟨(id, a), Std.ExtTreeMap.mem_toList_iff_getElem?_eq_some.mpr ha, hseries⟩

theorem not_isStale_of_mem_liveSeries {rule : AlertingRule} {order : AlertOrder} {ts : ℤ}
    {s : Series}
    (h : s ∈ rule.liveSeries order ts) : ¬ s.IsStale := by
  rw [AlertingRule.liveSeries, mem_flatMap] at h
  obtain ⟨e, -, hs⟩ := h
  split_ifs at hs
  · cases hs
  · exact not_isStale_live hs

/-! ### The markers of an evaluation -/

section Exact

variable {pending : List PendingAlert} {alerts : AlertMap} {stale live : List Series}

/-- How the series of each identity go on. -/
theorem Step.seriesStep (hfresh : rule.alerts = ∅) (hrule : nameLabel ∉ rule.labels)
    (hok : ∀ k < n, ev.SucceedsAt rule k) (hdist : ev.Distinguishable rule n)
    (hstep : Step ev rule n pending alerts stale live) (id : UInt64) :
    SeriesStep (liveLabels (ev.after rule n).alerts[id]?)
      ((alertStale rule (ev.time n) (resultOf pending id) (ev.after rule n).alerts[id]?).map
        Series.labels)
      (liveLabels (ev.after rule (n + 1)).alerts[id]?) := by
  have hpresent : (resultOf pending id).isSome = decide (ev.IsPresentAt rule n id) := by
    rw [Bool.eq_iff_iff, hstep.isSome_resultOf, decide_eq_true_iff]
  rw [hstep.getElem?_after]
  refine Esmalert.seriesStep (fun a ha => nameLabel_not_mem_of_involved hfresh hrule ha)
    (fun a ha hmem => ?_) fun a ha hs => forMs_pos_of_pending hfresh hok ha hs
  rw [hpresent]
  exact hdist.stays id a ha hmem

theorem Step.mem_stale (hstep : Step ev rule n pending alerts stale live) {s : Series} :
    s ∈ stale ↔ ∃ id : UInt64,
      s ∈ alertStale rule (ev.time n) (resultOf pending id) (ev.after rule n).alerts[id]? := by
  rw [hstep.stale_eq, mem_flatMap]
  simp only [((ev.order n).perm _).mem_iff, alertStale, ← hstep.getElem?_alerts]
  constructor
  · rintro ⟨⟨id, a⟩, hmem, hs⟩
    refine ⟨id, ?_⟩
    rwa [Std.ExtTreeMap.mem_toList_iff_getElem?_eq_some.mp hmem]
  · rintro ⟨id, hs⟩
    cases ha : alerts[id]? with
    | none =>
      rw [ha] at hs
      cases hs
    | some a =>
      rw [ha] at hs
      exact ⟨(id, a), Std.ExtTreeMap.mem_toList_iff_getElem?_eq_some.mpr ha, hs⟩

theorem Step.mem_labels_stale (hstep : Step ev rule n pending alerts stale live)
    {series : List (Bytes × Bytes)} :
    series ∈ stale.map Series.labels ↔ ∃ id : UInt64, series ∈
      (alertStale rule (ev.time n) (resultOf pending id) (ev.after rule n).alerts[id]?).map
        Series.labels := by
  simp only [mem_map, hstep.mem_stale]
  exact ⟨fun ⟨s, ⟨id, hs⟩, heq⟩ => ⟨id, s, hs, heq⟩, fun ⟨id, s, hs, heq⟩ => ⟨s, ⟨id, hs⟩, heq⟩⟩

theorem Step.mem_labels_live (hstep : Step ev rule n pending alerts stale live)
    {series : List (Bytes × Bytes)} : series ∈ live.map Series.labels ↔
      ∃ id : UInt64, series ∈ liveLabels (ev.after rule (n + 1)).alerts[id]? := by
  rw [hstep.live_eq, mem_labels_liveSeries]

/-- The series with a staleness marker are the first part of the series. -/
theorem Step.exists_isStale_iff (hstep : Step ev rule n pending alerts stale live)
    {labels : List (Bytes × Bytes)} :
    (∃ s ∈ ev.seriesAt rule n, s.IsStale ∧ s.labels = labels) ↔
      labels ∈ stale.map Series.labels := by
  rw [hstep.series_eq, mem_map]
  constructor
  · rintro ⟨s, hs, hstale, heq⟩
    refine ⟨s, (mem_append.mp hs).resolve_right fun hlive => ?_, heq⟩
    exact not_isStale_of_mem_liveSeries (hstep.live_eq ▸ hlive) hstale
  · rintro ⟨s, hs, heq⟩
    obtain ⟨id, hmem⟩ := hstep.mem_stale.mp hs
    exact ⟨s, mem_append_left _ hs, isStale_of_mem_alertStale hmem, heq⟩

/-- The live series are the second part of the series. -/
theorem Step.exists_not_isStale_iff (hstep : Step ev rule n pending alerts stale live)
    {labels : List (Bytes × Bytes)} :
    (∃ s ∈ ev.seriesAt rule n, ¬ s.IsStale ∧ s.labels = labels) ↔
      ∃ id : UInt64, labels ∈ liveLabels (ev.after rule (n + 1)).alerts[id]? := by
  rw [← hstep.mem_labels_live, hstep.series_eq, mem_map]
  constructor
  · rintro ⟨s, hs, hlive, heq⟩
    refine ⟨s, (mem_append.mp hs).resolve_left fun hmem => hlive ?_, heq⟩
    obtain ⟨id, hmem⟩ := hstep.mem_stale.mp hmem
    exact isStale_of_mem_alertStale hmem
  · rintro ⟨s, hs, heq⟩
    refine ⟨s, mem_append_right _ hs, ?_, heq⟩
    exact not_isStale_of_mem_liveSeries (hstep.live_eq ▸ hs)

/-- The label sets that were live after the previous evaluation. -/
theorem exists_before_iff (hfresh : rule.alerts = ∅) (hok : ∀ k < n, ev.SucceedsAt rule k)
    {labels : List (Bytes × Bytes)} :
    (∃ s ∈ ev.seriesBefore rule n, ¬ s.IsStale ∧ s.labels = labels) ↔
      ∃ id : UInt64, labels ∈ liveLabels (ev.after rule n).alerts[id]? := by
  cases n with
  | zero =>
    rw [seriesBefore, after, hfresh]
    simp [liveLabels]
  | succ n =>
    obtain ⟨pending, alerts, stale, live, hstep⟩ := exists_step (hok n (Nat.lt_succ_self n))
    exact hstep.exists_not_isStale_iff

theorem Step.nodup (hfresh : rule.alerts = ∅) (hrule : nameLabel ∉ rule.labels)
    (hok : ∀ k < n, ev.SucceedsAt rule k) (hdist : ev.Distinguishable rule n)
    (hstep : Step ev rule n pending alerts stale live) :
    ((ev.seriesAt rule n).map Series.labels).Nodup := by
  have hseries := hstep.seriesStep hfresh hrule hok hdist
  have hstale : ∀ {id : UInt64} {a : Alert}, alerts[id]? = some a →
      alertStale rule (ev.time n) (resultOf pending id) (ev.after rule n).alerts[id]? =
        (a.sweep (resultOf pending id).isSome rule.forMs rule.keepFiringForMs (ev.time n)).2 :=
    fun {id a} ha => by rw [alertStale, ← hstep.getElem?_alerts, ha]
  have hbefore : ∀ {id : UInt64} {series : List (Bytes × Bytes)}, series ∈
      (alertStale rule (ev.time n) (resultOf pending id) (ev.after rule n).alerts[id]?).map
        Series.labels → ev.IsAbout rule n id series :=
    fun {id series} h => isAbout_before hfresh hrule (((hseries id).mem_iff series).mp h).1
  rw [hstep.series_eq, map_append]
  refine nodup_append.mpr ⟨?_, ?_, ?_⟩
  · rw [hstep.stale_eq, map_flatMap]
    refine nodup_flatMap_visit _ _ (fun id a ha => ?_) fun id a id' a' ha ha' series h h' => ?_
    · rw [← hstale ha]
      exact (hseries id).nodup (nodup_liveLabels fun a ha =>
        nameLabel_not_mem_of_involved hfresh hrule ha)
    · rw [← hstale ha] at h
      rw [← hstale ha'] at h'
      exact (hbefore h).id_eq hdist (hbefore h')
  · rw [hstep.live_eq, AlertingRule.liveSeries, map_flatMap]
    simp only [map_labels_live]
    refine nodup_flatMap_visit _ _ (fun id a ha => nodup_liveLabels fun a' ha' => ?_)
      fun id a id' a' ha ha' series h h' => ?_
    · exact Option.some.inj ha' ▸ nameLabel_not_mem_of_involved hfresh hrule ha
    · rw [← ha] at h
      rw [← ha'] at h'
      exact (isAbout_now hfresh hrule hstep h).id_eq hdist (isAbout_now hfresh hrule hstep h')
  · rintro series h _ h' rfl
    obtain ⟨id, h⟩ := hstep.mem_labels_stale.mp h
    obtain ⟨id', h'⟩ := hstep.mem_labels_live.mp h'
    obtain rfl := (hbefore h).id_eq hdist (isAbout_now hfresh hrule hstep h')
    exact (((hseries id).mem_iff series).mp h).2 h'

/-- **The markers of one evaluation.** -/
theorem Step.seriesExact (hfresh : rule.alerts = ∅) (hrule : nameLabel ∉ rule.labels)
    (hok : ∀ k < n, ev.SucceedsAt rule k) (hdist : ev.Distinguishable rule n)
    (hstep : Step ev rule n pending alerts stale live) :
    SeriesExact (ev.seriesBefore rule n) (ev.seriesAt rule n) := by
  have hseries := hstep.seriesStep hfresh hrule hok hdist
  have hnames : ∀ {k : ℕ} {id : UInt64} {series : List (Bytes × Bytes)},
      series ∈ liveLabels (ev.after rule k).alerts[id]? → (series.map fst).Nodup := by
    intro k id series h
    cases ha : (ev.after rule k).alerts[id]? with
    | none =>
      rw [ha] at h
      cases h
    | some a =>
      have hname := nameLabel_not_mem_of_involved hfresh hrule ha
      rw [ha] at h
      have hactive := (carries_liveLabels h).1
      rw [liveLabels_of_active hactive] at h
      obtain rfl | rfl := mem_pair.mp h
      · exact nodup_alertsLabels hname _
      · exact nodup_forStateLabels hname
  refine ⟨hstep.nodup hfresh hrule hok hdist, fun s hs => ?_, fun labels => ?_⟩
  · by_cases hstale : s.IsStale
    · obtain ⟨id, h⟩ := hstep.mem_labels_stale.mp
        (hstep.exists_isStale_iff.mp ⟨s, hs, hstale, rfl⟩)
      exact hnames (((hseries id).mem_iff _).mp h).1
    · obtain ⟨id, h⟩ := hstep.exists_not_isStale_iff.mp ⟨s, hs, hstale, rfl⟩
      exact hnames h
  · rw [hstep.exists_isStale_iff, hstep.exists_not_isStale_iff, exists_before_iff hfresh hok,
      hstep.mem_labels_stale]
    constructor
    · rintro ⟨id, h⟩
      obtain ⟨hmem, hnot⟩ := ((hseries id).mem_iff labels).mp h
      refine ⟨⟨id, hmem⟩, ?_⟩
      rintro ⟨id', hnow⟩
      obtain rfl := (isAbout_before hfresh hrule hmem).id_eq hdist
        (isAbout_now hfresh hrule hstep hnow)
      exact hnot hnow
    · rintro ⟨⟨id, hmem⟩, hnot⟩
      exact ⟨id, ((hseries id).mem_iff labels).mpr ⟨hmem, fun hnow => hnot ⟨id, hnow⟩⟩⟩

end Exact

/-- **Staleness markers are complete and exact** in every run of successful evaluations in which the
label `alertstate` does not get in the way. -/
theorem series_exact (hfresh : rule.alerts = ∅) (hrule : nameLabel ∉ rule.labels)
    (hok : ∀ k ≤ n, ev.SucceedsAt rule k) (hdist : ∀ k ≤ n, ev.Distinguishable rule k) :
    ∀ k ≤ n, SeriesExact (ev.seriesBefore rule k) (ev.seriesAt rule k) := by
  intro k hk
  obtain ⟨pending, alerts, stale, live, hstep⟩ := exists_step (hok k hk)
  exact hstep.seriesExact hfresh hrule (fun j hj => hok j (hj.le.trans hk)) (hdist k hk)

/-- A query with a result that has a label `alertstate`, and then without a result. -/
def alertStateEvaluations : Evaluations where
  tpl := ⟨fun text _ => .ok text⟩
  order _ := .refl
  querier n _ _ := .ok ⟨if n = 0 then [⟨[(alertStateLabel, ascii "x")], [0], [.num 7]⟩] else [],
    none⟩
  time k := 60000 * k

/-- The staleness marker of a pending alert with a label `alertstate` has this label twice. -/
theorem alertState_marker_wrong : highLoad.alerts = ∅ ∧ nameLabel ∉ highLoad.labels ∧
    (∀ k, alertStateEvaluations.SucceedsAt highLoad k) ∧
    (∀ k, alertStateEvaluations.time k < alertStateEvaluations.time (k + 1)) ∧
    ¬ SeriesExact (alertStateEvaluations.seriesBefore highLoad 1)
      (alertStateEvaluations.seriesAt highLoad 1) := by
  refine ⟨rfl, by simp [highLoad], fun k => ?_, fun k => by simp [alertStateEvaluations], ?_⟩
  · refine AlertingRule.exec_ok_iff.mpr ⟨_, rfl, ?_⟩
    by_cases hk : k = 0
    · rw [hk]
      exact nodup_singleton _
    · simp [alertStateEvaluations, hk, AlertingRule.expandResults]
  · intro hexact
    have hnames : (alertStateEvaluations.seriesAt highLoad 1).head?.map
        (fun s => s.labels.map fst) = some [nameLabel, alertGroupLabel, alertNameLabel,
          alertStateLabel, alertStateLabel] := by decide +kernel
    obtain ⟨s, hs, heq⟩ := Option.map_eq_some_iff.mp hnames
    have hnodup := hexact.names s (mem_of_mem_head? hs)
    rw [heq] at hnodup
    exact absurd hnodup (by decide)

theorem labels_eq_highLoadLabels {n : ℕ} {id : UInt64} {a : Alert}
    (h : (twoEvaluations.after highLoad n).alerts[id]? = some a) : a.labels = highLoadLabels := by
  obtain ⟨⟨k, -, hmem⟩, -⟩ := @labelled_after twoEvaluations highLoad rfl n id a h
  rw [labelsAt_twoEvaluations] at hmem
  exact mem_singleton.mp hmem

theorem distinguishable_twoEvaluations (n : ℕ) : twoEvaluations.Distinguishable highLoad n := by
  have hinvolved : ∀ labels ∈ twoEvaluations.involved highLoad n, labels = highLoadLabels := by
    rintro labels (hmem | ⟨id, a, ha, -, rfl⟩)
    · rw [labelsAt_twoEvaluations] at hmem
      exact mem_singleton.mp hmem
    · exact labels_eq_highLoadLabels ha
  refine ⟨fun id a ha hmem => ?_, fun labels h labels' h' _ => ?_⟩
  · rw [labels_eq_highLoadLabels ha] at hmem
    exact absurd hmem (by decide)
  · rw [hinvolved labels h, hinvolved labels' h']

theorem series_exact_twoEvaluations : SeriesExact (twoEvaluations.seriesBefore highLoad 1)
    (twoEvaluations.seriesAt highLoad 1) :=
  series_exact rfl (by simp [highLoad]) (fun k _ => succeedsAt_twoEvaluations k)
    (fun k _ => distinguishable_twoEvaluations k) 1 le_rfl

end Evaluations

end Esmetrics.Esmalert
