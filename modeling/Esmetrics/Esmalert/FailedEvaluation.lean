import Esmetrics.Esmalert.StateMachine

/-!
# Failed evaluations

What an evaluation of an alerting rule leaves behind when it fails. If the query fails, nothing has
happened. If two results have one identity, the alerts that resolved long ago are evicted already,
and the alerts of the results before the repeated one are created or updated: `apply_updates` finds
the repetition while it updates.

So such an evaluation leaves the alerts as they were exactly if there was none to evict and each of
these results is of an active alert that it does not change (`AlertingRule.exec_failed_alerts_iff`).
-/

namespace Esmetrics.Esmalert

/-- The results before the first one with an identity that was seen. -/
def beforeRepeated (updated : Finset UInt64) : List PendingAlert → List PendingAlert
  | [] => []
  | p :: pending =>
    if p.id ∈ updated then [] else p :: beforeRepeated (insert p.id updated) pending

theorem id_notMem_of_mem_beforeRepeated {updated : Finset UInt64} {pending : List PendingAlert}
    {p : PendingAlert} (hp : p ∈ beforeRepeated updated pending) : p.id ∉ updated := by
  induction pending generalizing updated with
  | nil => exact nomatch hp
  | cons p' pending ih =>
    rw [beforeRepeated] at hp
    split_ifs at hp with hseen
    · exact nomatch hp
    · obtain rfl | hp := List.mem_cons.mp hp
      · exact hseen
      · exact fun hmem => ih hp (Finset.mem_insert_of_mem hmem)

theorem nodup_beforeRepeated (updated : Finset UInt64) (pending : List PendingAlert) :
    ((beforeRepeated updated pending).map PendingAlert.id).Nodup := by
  induction pending generalizing updated with
  | nil => exact List.nodup_nil
  | cons p pending ih =>
    rw [beforeRepeated]
    split_ifs
    · exact List.nodup_nil
    · refine List.nodup_cons.mpr ⟨fun hmem => ?_, ih _⟩
      obtain ⟨p', hp', heq⟩ := List.mem_map.mp hmem
      exact id_notMem_of_mem_beforeRepeated hp' (heq ▸ Finset.mem_insert_self _ _)

/-- The updates reach the results before the first repeated one. -/
theorem getElem?_applyUpdates (ts : ℤ) (updated : Finset UInt64) (alerts : AlertMap)
    (pending : List PendingAlert) (id : UInt64) :
    (applyUpdates ts updated alerts pending).1[id]? =
      alertUpdate ts (resultOf (beforeRepeated updated pending) id) alerts[id]? := by
  induction pending generalizing updated alerts with
  | nil => rfl
  | cons p pending ih =>
    rw [applyUpdates, beforeRepeated]
    split_ifs with hseen
    · rfl
    · rw [ih, getElem?_applyUpdate, resultOf_cons]
      split_ifs with hid
      · -- the alert of this result is not updated again
        have hnone : resultOf (beforeRepeated (insert p.id updated) pending) id = none := by
          refine resultOf_eq_none_iff.mpr fun hmem => ?_
          obtain ⟨p', hp', heq⟩ := List.mem_map.mp hmem
          exact id_notMem_of_mem_beforeRepeated hp' (heq ▸ hid ▸ Finset.mem_insert_self _ _)
        rw [hnone]
        rfl
      · rfl

/-! ### Updates that change nothing -/

/-- The alert is active and not kept alive, and has the value and the annotations of the result. -/
structure Alert.Reflects (a : Alert) (p : PendingAlert) : Prop where
  active : a.state ≠ .inactive
  present : a.keepFiringSince = none
  value : a.value = p.value
  annotations : a.annotations = p.annotations

theorem Alert.seenAgain_eq_self_iff {a : Alert} {p : PendingAlert} {ts : ℤ} :
    a.seenAgain p ts = a ↔ a.Reflects p := by
  constructor
  · intro h
    have hactive : a.state ≠ .inactive := h ▸ a.seenAgain_state_ne_inactive p ts
    rw [seenAgain, if_neg hactive] at h
    exact ⟨hactive, (congrArg keepFiringSince h).symm, (congrArg value h).symm,
      (congrArg annotations h).symm⟩
  · rintro ⟨hactive, hpresent, hvalue, hannotations⟩
    rw [seenAgain, if_neg hactive, ← hpresent, ← hvalue, ← hannotations]

/-- An alert that is due for eviction is not left as it was, whether its result is there or not. -/
theorem alertUpdate_ne_of_evictable {a : Alert} {ts : ℤ} (h : a.Evictable ts)
    (result : Option PendingAlert) : alertUpdate ts result (alertKept ts (some a)) ≠ some a := by
  have hkept : alertKept ts (some a) = none := by
    rw [alertKept, Option.filter_some, if_neg (by simpa using h)]
  rw [hkept]
  cases result with
  | none =>
    intro heq
    cases heq
  | some p =>
    intro heq
    have hstate : a.state = .pending := (congrArg Alert.state (Option.some.inj heq)).symm
    cases hstate.symm.trans h.1

theorem alertKept_of_not_evictable {o : Option Alert} {ts : ℤ} (h : ∀ a ∈ o, ¬ a.Evictable ts) :
    alertKept ts o = o := by
  cases o with
  | none => rfl
  | some a => rw [alertKept, Option.filter_some, if_pos (by simpa using h a rfl)]

namespace AlertingRule

/-- No alert is due for eviction, and each result before the first repeated one is of an alert that
reflects it. -/
structure UpdatesNothing (rule : AlertingRule) (ts : ℤ) (pending : List PendingAlert) : Prop where
  not_evictable : ∀ (id : UInt64), ∀ a ∈ rule.alerts[id]?, ¬ a.Evictable ts
  reflects : ∀ p ∈ beforeRepeated ∅ pending, ∃ a ∈ rule.alerts[p.id]?, a.Reflects p

variable {rule : AlertingRule} {tpl : Templates} {order : AlertOrder} {q : Querier} {ts : ℤ}
  {pending : List PendingAlert}

theorem exec_of_query_failed (hres : rule.results tpl q ts = none) :
    (rule.exec tpl order q ts).1 = rule := by
  rw [results] at hres
  cases hq : q rule.expr ts with
  | error e => simp only [exec, hq]
  | ok res =>
    rw [hq] at hres
    cases hres

/-- The alerts after an evaluation whose results repeat an identity. -/
theorem getElem?_exec_of_repeated (hres : rule.results tpl q ts = some pending)
    (hrepeated : ¬ (pending.map PendingAlert.id).Nodup) (id : UInt64) :
    (rule.exec tpl order q ts).1.alerts[id]? =
      alertUpdate ts (resultOf (beforeRepeated ∅ pending) id) (alertKept ts rule.alerts[id]?) := by
  rw [results] at hres
  cases hq : q rule.expr ts with
  | error e =>
    rw [hq] at hres
    cases hres
  | ok res =>
    rw [hq] at hres
    obtain rfl := Option.some.inj hres
    have hget := getElem?_applyUpdates ts ∅ (rule.alerts.filter fun _ a => ¬ a.Evictable ts)
      (rule.expandResults tpl res.data (res.isPartial.getD false) ts) id
    obtain ⟨seen, -, hnodup, -, -, hok, -⟩ := exists_applyUpdates ts
      (rule.expandResults tpl res.data (res.isPartial.getD false) ts) ∅
      (rule.alerts.filter fun _ a => ¬ a.Evictable ts)
    rw [Std.ExtTreeMap.getElem?_filter'] at hget
    simp only [exec, hq]
    cases happly : applyUpdates ts ∅ (rule.alerts.filter fun _ a => ¬ a.Evictable ts)
      (rule.expandResults tpl res.data (res.isPartial.getD false) ts) with
    | mk alerts updated =>
      rw [happly] at hget hok
      cases updated with
      | error e => exact hget
      | ok updated =>
        obtain ⟨rfl, -⟩ := hok updated rfl
        exact absurd hnodup hrepeated

theorem updates_eq_iff : (∀ id : UInt64, alertUpdate ts (resultOf (beforeRepeated ∅ pending) id)
    (alertKept ts rule.alerts[id]?) = rule.alerts[id]?) ↔ rule.UpdatesNothing ts pending := by
  constructor
  · intro h
    have hkept : ∀ (id : UInt64), ∀ a ∈ rule.alerts[id]?, ¬ a.Evictable ts := by
      rintro id a ha hev
      have heq := h id
      rw [Option.mem_def.mp ha] at heq
      exact alertUpdate_ne_of_evictable hev _ heq
    refine ⟨hkept, fun p hp => ?_⟩
    have heq := h p.id
    rw [resultOf_id (nodup_beforeRepeated ∅ pending) hp, alertKept_of_not_evictable (hkept p.id)]
      at heq
    cases ha : rule.alerts[p.id]? with
    | none =>
      rw [ha] at heq
      exact nomatch heq
    | some a =>
      rw [ha] at heq
      exact ⟨a, rfl, Alert.seenAgain_eq_self_iff.mp (Option.some.inj heq)⟩
  · rintro ⟨hkept, hreflects⟩ id
    rw [alertKept_of_not_evictable (hkept id)]
    cases hresult : resultOf (beforeRepeated ∅ pending) id with
    | none => rfl
    | some p =>
      obtain ⟨hp, rfl⟩ := mem_of_resultOf_eq_some hresult
      obtain ⟨a, ha, hreflects⟩ := hreflects p hp
      rw [Option.mem_def.mp ha, alertUpdate, Option.map_some, Option.getD_some,
        Alert.seenAgain_eq_self_iff.mpr hreflects]

/-- **A failed evaluation** leaves the alerts as they were if and only if the query failed, or there
was no alert to evict and the results before the first repeated one change nothing. -/
theorem exec_failed_alerts_iff (rule : AlertingRule) (tpl : Templates) (order : AlertOrder)
    (q : Querier) (ts : ℤ) :
    ((∃ e, (rule.exec tpl order q ts).2 = .error e) →
        (rule.exec tpl order q ts).1.alerts = rule.alerts) ↔
      ∀ pending, rule.results tpl q ts = some pending → ¬ (pending.map PendingAlert.id).Nodup →
        rule.UpdatesNothing ts pending := by
  obtain ⟨e, herr, hnot, -⟩ | ⟨pending, alerts, updated, tss, hres, hok, heval⟩ :=
    rule.exec_cases tpl order q ts
  · cases hres : rule.results tpl q ts with
    | none =>
      exact ⟨fun _ pending hpending => (nomatch hpending),
        fun _ _ => by rw [exec_of_query_failed hres]⟩
    | some pending =>
      have hrepeated : ¬ (pending.map PendingAlert.id).Nodup := fun h => hnot ⟨pending, hres, h⟩
      have hget : ∀ id, (rule.exec tpl order q ts).1.alerts[id]? =
          alertUpdate ts (resultOf (beforeRepeated ∅ pending) id) (alertKept ts rule.alerts[id]?) :=
        getElem?_exec_of_repeated hres hrepeated
      constructor
      · rintro h pending' hpending' -
        obtain rfl := Option.some.inj hpending'
        refine updates_eq_iff.mp fun id => ?_
        rw [← hget, h ⟨e, herr⟩]
      · intro h _
        refine Std.ExtTreeMap.ext_getElem? fun id => ?_
        rw [hget]
        exact updates_eq_iff.mpr (h pending rfl hrepeated) id
  · constructor
    · rintro - pending' hres' hrepeated
      obtain rfl := Option.some.inj (hres.symm.trans hres')
      exact absurd heval.nodup hrepeated
    · rintro - ⟨e, herr⟩
      exact nomatch herr.symm.trans hok

end AlertingRule

/-- A query with two results of the same labels. -/
def repeatedResult : Querier := fun _ _ =>
  .ok ⟨[⟨[(ascii "instance", ascii "h1")], [0], [.num 7]⟩,
    ⟨[(ascii "instance", ascii "h1")], [0], [.num 8]⟩], none⟩

/-- An evaluation with these results, of a rule without alerts. -/
def repeatedExec : AlertingRule × Except RuleError (List Series) :=
  Evaluations.highLoad.exec Evaluations.twoEvaluations.tpl .refl repeatedResult 0

/-- The evaluation fails, and there is an alert afterwards. -/
theorem repeatedExec_alerts :
    (∃ e, repeatedExec.2 = .error e) ∧ repeatedExec.1.alerts ≠ Evaluations.highLoad.alerts := by
  have hfails : repeatedExec.2.toBool = false := by decide +kernel
  have hsize : repeatedExec.1.alerts.size = 1 := by decide +kernel
  refine ⟨?_, fun h => ?_⟩
  · cases hresult : repeatedExec.2 with
    | error e => exact ⟨e, rfl⟩
    | ok tss =>
      rw [hresult] at hfails
      exact nomatch hfails
  · have hzero : Evaluations.highLoad.alerts.size = 0 := rfl
    rw [h, hzero] at hsize
    exact absurd hsize Nat.zero_ne_one

end Esmetrics.Esmalert
