import Mathlib.Data.Set.Function
import Esmetrics.Esmalert.Alerting
import Esmetrics.Lib.Hysteresis

/-!
# The state machine of an alerting rule

A label set that is present in some results is a signal (`Esmetrics.Signal`): it is held for the
duration `for` before it fires, and kept for `keep_firing_for` after it is absent. The state machine
of a rule keeps one alert for it, with the time it became active, the time it was first absent, and
the time it resolved.

`Follows` says which of these times the alert of a signal has, for each status of the signal. One
evaluation preserves it (`Follows.step`), so after every evaluation the state of the alert is the
status of the signal (`state_machine`).
-/

namespace Esmetrics.Esmalert

open Option

/-- A sequence of evaluations of one rule: at each of them the order in which the alerts are
visited, the datasource and the time. -/
structure Evaluations where
  tpl : Templates
  order : ℕ → AlertOrder
  querier : ℕ → Querier
  time : ℕ → ℤ

namespace AlertingRule

/-- The label sets of the alerts of the results. -/
def resultLabels (rule : AlertingRule) (tpl : Templates) (q : Querier) (ts : ℤ) : List StringMap :=
  match q rule.expr ts with
  | .error _ => []
  | .ok res => res.data.map fun m => (rule.alertLabels tpl m).processed

/-- The tracked alert of a label set. -/
def alertOf (rule : AlertingRule) (labels : StringMap) : Option Alert :=
  rule.alerts[hashLabels labels]?.filter fun a => a.labels = labels

/-- The label set is tracked in a state. -/
def IsTracked (rule : AlertingRule) (labels : StringMap) (state : AlertState) : Prop :=
  ∃ a, rule.alertOf labels = some a ∧ a.state = state

end AlertingRule

namespace Evaluations

variable (ev : Evaluations) (rule : AlertingRule)

/-- The rule after the first `n` evaluations. -/
def after : ℕ → AlertingRule
  | 0 => rule
  | n + 1 => ((after n).exec ev.tpl (ev.order n) (ev.querier n) (ev.time n)).1

/-- The label sets of the results of an evaluation. -/
def labelsAt (n : ℕ) : List StringMap := rule.resultLabels ev.tpl (ev.querier n) (ev.time n)

/-- The evaluation succeeds. -/
def SucceedsAt (n : ℕ) : Prop :=
  ∃ tss, ((ev.after rule n).exec ev.tpl (ev.order n) (ev.querier n) (ev.time n)).2 = .ok tss

/-- The presence of a label set in the results. -/
def signal (labels : StringMap) : Signal where
  present n := labels ∈ ev.labelsAt rule n
  time := ev.time
  hold := rule.forDuration
  keep := rule.keepFiringFor

end Evaluations

/-! ### One alert -/

theorem clampMs_le_iff {ms : ℕ} {x : ℤ} (hx : x < i64Max) : clampMs ms ≤ x ↔ (ms : ℤ) ≤ x := by
  rw [clampMs, min_le_iff]
  exact ⟨fun h => h.resolve_right (not_le.mpr hx), .inl⟩

/-! ### The alert of a signal -/

/-- The start of the keep-firing period: none while the signal is present, and else the first
observation of the run in which it is absent. -/
def KeepClock (s : Signal) (p n : ℕ) (since : Option ℤ) : Prop :=
  (s.present n ∧ since = none) ∨
    ∃ c, p < c ∧ s.present (c - 1) ∧ s.Absent c n ∧ 0 < s.keep ∧ since = some (s.time c)

/-- What the alert of a signal records after the observation `n`. -/
def Follows (s : Signal) (n : ℕ) : Option Alert → Prop
  | none => ¬ s.Firing n ∧ ¬ s.Pending n ∧ ¬ s.Resolved resolvedRetentionMs n
  | some a =>
    match a.state with
    | .pending => ∃ i, s.start (n + 1) = some i ∧ a.activeAt = s.time i ∧ s.Held i n ∧
        ∀ p ≤ n, ¬ s.Promoted i p
    | .firing => ∃ i p, s.start (n + 1) = some i ∧ a.activeAt = s.time i ∧ p ≤ n ∧ s.Promoted i p ∧
        ¬ s.Expired p n ∧ KeepClock s p n a.keepFiringSince
    | .inactive => ∃ b, s.LeftFiring b ∧ s.Absent b n ∧ a.resolvedAt = some (s.time b) ∧
        s.time n - s.time b ≤ resolvedRetentionMs

section Step

variable {s : Signal} {n : ℕ} {a : Alert}

theorem follows_of_pending (h : a.state = .pending) : Follows s n (some a) ↔
    ∃ i, s.start (n + 1) = some i ∧ a.activeAt = s.time i ∧ s.Held i n ∧ ∀ p ≤ n,
    ¬ s.Promoted i p := by
  simp only [Follows, h]

theorem follows_of_firing (h : a.state = .firing) : Follows s n (some a) ↔
    ∃ i p, s.start (n + 1) = some i ∧ a.activeAt = s.time i ∧ p ≤ n ∧ s.Promoted i p ∧
      ¬ s.Expired p n ∧ KeepClock s p n a.keepFiringSince := by
  simp only [Follows, h]

theorem follows_of_inactive (h : a.state = .inactive) : Follows s n (some a) ↔
    ∃ b, s.LeftFiring b ∧ s.Absent b n ∧ a.resolvedAt = some (s.time b) ∧
      s.time n - s.time b ≤ resolvedRetentionMs := by
  simp only [Follows, h]

/-- The durations of the rule, cut to an `i64`, are those of the signal, as far as the times of the
first `n` observations can tell. -/
structure Clocked (rule : AlertingRule) (s : Signal) (n : ℕ) : Prop where
  time_le : ∀ i ≤ n, s.time i ≤ s.time n
  forMs_le_iff : ∀ i ≤ n, rule.forMs ≤ s.time n - s.time i ↔ s.hold ≤ s.time n - s.time i
  keepFiringForMs_le_iff : ∀ i ≤ n,
    rule.keepFiringForMs ≤ s.time n - s.time i ↔ s.keep ≤ s.time n - s.time i
  keepFiringForMs_nonneg : 0 ≤ rule.keepFiringForMs
  keepFiringForMs_pos : 0 < rule.keepFiringForMs ↔ 0 < s.keep

variable {rule : AlertingRule}

/-- A pending alert is promoted when its signal is. -/
theorem follows_promote {i : ℕ} (hclock : Clocked rule s n) (hstate : a.state = .pending)
    (hsince : a.keepFiringSince = none) (hi : s.start (n + 1) = some i)
    (hactive : a.activeAt = s.time i) (hheld : s.Held i n)
    (hprom : s.hold ≤ s.time n - s.time i → s.Promoted i n)
    (hnone : s.time n - s.time i < s.hold → ∀ p ≤ n, ¬ s.Promoted i p) :
    Follows s n (some (a.promote rule.forMs (s.time n)).1) := by
  have hiff : a.state = .pending ∧ rule.forMs ≤ s.time n - a.activeAt ↔
      s.hold ≤ s.time n - s.time i := by
    rw [hactive, hclock.forMs_le_iff i hheld.1]
    exact and_iff_right hstate
  rw [Alert.promote]
  by_cases hhold : s.hold ≤ s.time n - s.time i
  · rw [if_pos (hiff.mpr hhold), follows_of_firing rfl]
    exact ⟨i, n, hi, hactive, le_rfl, hprom hhold, Signal.not_expired_self n,
      .inl ⟨hheld.last, hsince⟩⟩
  · rw [if_neg (mt hiff.mp hhold), follows_of_pending hstate]
    exact ⟨i, hi, hactive, hheld, hnone (not_le.mp hhold)⟩

/-- An activation starts with a pending alert. -/
theorem follows_begin (hclock : Clocked rule s n) (hn : s.present n)
    (hact : ∀ m, n = m + 1 → ¬ (s.Firing m ∨ s.Pending m)) (hstate : a.state = .pending)
    (hsince : a.keepFiringSince = none) (hactive : a.activeAt = s.time n) :
    Follows s n (some (a.promote rule.forMs (s.time n)).1) := by
  refine follows_promote hclock hstate hsince (Signal.start_of_not_active hn hact) hactive
    (Signal.held_self hn) (fun h => ⟨Signal.held_self hn, h⟩) fun hlt p hp hprom => ?_
  obtain rfl := le_antisymm hp hprom.1.1
  exact absurd hprom.2 (not_le.mpr hlt)

/-- What an evaluation makes of the alert of a signal that is present. -/
theorem alertStep_some (rule : AlertingRule) (ts : ℤ) (p : PendingAlert) (o : Option Alert) :
    alertStep rule ts (some p) o =
      some ((((alertKept ts o).map fun a => a.seenAgain p ts).getD (Alert.new p ts)).promote
        rule.forMs ts).1 := rfl

/-- What an evaluation makes of the alert of a signal that is absent. -/
theorem alertStep_none (rule : AlertingRule) (ts : ℤ) (o : Option Alert) :
    alertStep rule ts none o =
      (alertKept ts o).bind fun a => (a.sweep false rule.forMs rule.keepFiringForMs ts).1 := rfl

theorem alertKept_of_ne_inactive (h : a.state ≠ .inactive) (ts : ℤ) :
    alertKept ts (some a) = some a := by
  rw [alertKept, filter_some, if_pos]
  exact decide_eq_true fun hev => h hev.1

theorem alertKept_of_inactive {r : ℤ} (h : a.state = .inactive)
    (hr : a.resolvedAt = some r) (ts : ℤ) :
    alertKept ts (some a) = if ts - r ≤ resolvedRetentionMs then some a else none := by
  have hev : a.Evictable ts ↔ ¬ ts - r ≤ resolvedRetentionMs := by
    rw [Alert.Evictable, hr, not_le]
    simp only [h, true_and, mem_some_iff, exists_eq_left']
  rw [alertKept, filter_some]
  simp only [hev, not_not, decide_eq_true_eq]

/-- One observation after a status, with the signal present. -/
theorem follows_step_present (hclock : Clocked rule s (n + 1)) (hn : s.present (n + 1))
    {o : Option Alert} (h : Follows s n o) (p : PendingAlert) :
    Follows s (n + 1) (alertStep rule (s.time (n + 1)) (some p) o) := by
  rw [alertStep_some]
  cases o with
  | none =>
    refine follows_begin hclock hn ?_ rfl rfl rfl
    rintro m hm
    obtain rfl := Nat.succ_injective hm
    exact fun hact => hact.elim h.1 h.2.1
  | some a =>
    cases hstate : a.state with
    | pending =>
      obtain ⟨i, hi, hactive, hheld, hnone⟩ := (follows_of_pending hstate).mp h
      obtain ⟨hi', hheld', hprom, hnone'⟩ := Signal.Pending.succ hi hheld hnone hn
      rw [alertKept_of_ne_inactive (by simp [hstate])]
      refine follows_promote hclock ?_ rfl hi' ?_ hheld' hprom hnone' <;>
        simp [Alert.seenAgain, hstate, hactive]
    | firing =>
      obtain ⟨i, p', hi, hactive, hp', hprom, hnot, -⟩ := (follows_of_firing hstate).mp h
      obtain ⟨hi', hnot'⟩ := Signal.firing_succ_of_present hi hp' hprom hnot hn
      have hseen : (a.seenAgain p (s.time (n + 1))).state = .firing := by
        simp [Alert.seenAgain, hstate]
      rw [alertKept_of_ne_inactive (by simp [hstate]), map_some, getD_some,
        Alert.promote_of_ne_pending (by simp [hseen]), follows_of_firing hseen]
      refine ⟨i, p', hi', ?_, Nat.le_succ_of_le hp', hprom, hnot', .inl ⟨hn, rfl⟩⟩
      simp [Alert.seenAgain, hstate, hactive]
    | inactive =>
      obtain ⟨b, hleft, habs, hres, hret⟩ := (follows_of_inactive hstate).mp h
      have hstatus : s.Resolved resolvedRetentionMs n := ⟨b, hleft, habs, hret⟩
      rw [alertKept_of_inactive hstate hres]
      refine follows_begin hclock hn ?_ ?_ ?_ ?_
      · rintro m hm
        obtain rfl := Nat.succ_injective hm
        exact fun hact => hact.elim hstatus.not_firing hstatus.not_pending
      all_goals
        split_ifs
        · simp [Alert.seenAgain, hstate]
        · rfl

/-- One observation after a status, with the signal absent. -/
theorem follows_step_absent (hclock : Clocked rule s (n + 1)) (hn : ¬ s.present (n + 1))
    {o : Option Alert} (h : Follows s n o) :
    Follows s (n + 1) (alertStep rule (s.time (n + 1)) none o) := by
  rw [alertStep_none]
  cases o with
  | none => exact Signal.no_status_succ_of_absent (hclock.time_le n (Nat.le_succ n)) h.1 h.2.2 hn
  | some a =>
    cases hstate : a.state with
    | pending =>
      obtain ⟨i, hi, -, hheld, hnone⟩ := (follows_of_pending hstate).mp h
      rw [alertKept_of_ne_inactive (by simp [hstate]), bind_some,
        Alert.sweep_of_pending hstate]
      exact Signal.Pending.succ_absent ⟨i, hi, hheld, hnone⟩ hn
    | firing =>
      obtain ⟨i, p, hi, hactive, hp, hprom, hnot, hsince⟩ := (follows_of_firing hstate).mp h
      -- the run of absent observations goes on, or starts now
      obtain ⟨c, hpc, hpre, habs, hc, hpos⟩ : ∃ c, p < c ∧ s.present (c - 1) ∧ s.Absent c (n + 1) ∧
          a.absentSince (s.time (n + 1)) = s.time c ∧
          (a.keepFiringSince = none ∨ 0 < rule.keepFiringForMs) := by
        obtain ⟨hpres, hnone⟩ | ⟨c, hpc, hpre, habs, hkeep, hsome⟩ := hsince
        · refine ⟨n + 1, Nat.lt_succ_of_le hp, hpres, Signal.absent_self hn, ?_, .inl hnone⟩
          rw [Alert.absentSince, hnone, getD_none]
        · refine ⟨c, hpc, hpre, habs.succ hn, ?_, .inr (hclock.keepFiringForMs_pos.mpr hkeep)⟩
          rw [Alert.absentSince, hsome, getD_some]
      obtain ⟨hi', hlast, hleft⟩ :=
        Signal.firing_succ_of_absent hi hp hprom hnot hpc hpre habs
      rw [alertKept_of_ne_inactive (by simp [hstate]), bind_some,
        Alert.sweep_of_firing hstate]
      have hiff : rule.keepFiringForMs ≤ (a.startKeepFiring rule.keepFiringForMs
          (s.time (n + 1))).keepFiringElapsed (s.time (n + 1)) ↔
            s.keep ≤ s.time (n + 1) - s.time c := by
        rw [Alert.le_keepFiringElapsed_iff hclock.keepFiringForMs_nonneg _ hpos, hc]
        exact hclock.keepFiringForMs_le_iff c habs.1
      split_ifs with hexp
      · rw [follows_of_inactive rfl]
        refine ⟨n + 1, hleft (hiff.mp hexp), Signal.absent_self hn, rfl, ?_⟩
        rw [sub_self]
        decide
      · have hlt : s.time (n + 1) - s.time c < s.keep := not_le.mp (mt hiff.mpr hexp)
        have hkeep : 0 < s.keep := hclock.keepFiringForMs_pos.mp
          ((sub_nonneg.mpr (hclock.time_le c habs.1)).trans_lt
            (not_le.mp (mt (hclock.keepFiringForMs_le_iff c habs.1).mp (not_le.mpr hlt))))
        rw [follows_of_firing (by simpa using hstate)]
        refine ⟨i, p, hi', by simpa using hactive, Nat.le_succ_of_le hp, hprom, hlast hlt, .inr ?_⟩
        refine ⟨c, hpc, hpre, habs, hkeep, ?_⟩
        rw [Alert.startKeepFiring_keepFiringSince (hclock.keepFiringForMs_pos.mpr hkeep), hc]
    | inactive =>
      obtain ⟨b, hleft, habs, hres, hret⟩ := (follows_of_inactive hstate).mp h
      have hstatus : s.Resolved resolvedRetentionMs n := ⟨b, hleft, habs, hret⟩
      have hnext := @Signal.resolved_succ_iff s n b resolvedRetentionMs hleft habs hn
      rw [alertKept_of_inactive hstate hres]
      split_ifs with hkept
      · rw [bind_some, Alert.sweep_of_inactive hstate, follows_of_inactive hstate]
        exact ⟨b, hleft, habs.succ hn, hres, hkept⟩
      · exact ⟨Signal.not_firing_succ_of_absent hstatus.not_firing hn,
          fun hpend => hn hpend.present, mt hnext.mp hkept⟩

/-- **One observation.** The alert goes on to follow its signal. -/
theorem Follows.step (hclock : Clocked rule s (n + 1)) {o : Option Alert} (h : Follows s n o)
    {result : Option PendingAlert} (hresult : result.isSome ↔ s.present (n + 1)) :
    Follows s (n + 1) (alertStep rule (s.time (n + 1)) result o) := by
  cases result with
  | none => exact follows_step_absent hclock (fun hn => by simpa using hresult.mpr hn) h
  | some p => exact follows_step_present hclock (hresult.mp rfl) h p

/-- **The first observation.** -/
theorem follows_zero (hclock : Clocked rule s 0) {result : Option PendingAlert}
    (hresult : result.isSome ↔ s.present 0) :
    Follows s 0 (alertStep rule (s.time 0) result none) := by
  cases result with
  | none => exact Signal.no_status_zero fun hn => by simpa using hresult.mpr hn
  | some p =>
    rw [alertStep_some]
    exact follows_begin hclock (hresult.mp rfl) (fun m hm => nomatch hm) rfl rfl rfl

end Step

/-! ### The status of a signal -/

section Status

variable {s : Signal} {n : ℕ} {o : Option Alert}

/-- The state of the alert is the status of the signal. -/
theorem Follows.state_iff (h : Follows s n o) :
    ((∃ a, o = some a ∧ a.state = .firing) ↔ s.Firing n) ∧
      ((∃ a, o = some a ∧ a.state = .pending) ↔ s.Pending n) ∧
      ((∃ a, o = some a ∧ a.state = .inactive) ↔ s.Resolved resolvedRetentionMs n) := by
  cases o with
  | none => simp [h.1, h.2.1, h.2.2]
  | some a =>
    cases hstate : a.state with
    | pending =>
      obtain ⟨i, hi, -, hheld, hnone⟩ := (follows_of_pending hstate).mp h
      have hpend : s.Pending n := ⟨i, hi, hheld, hnone⟩
      have hres : ¬ s.Resolved resolvedRetentionMs n := fun hres => hres.not_pending hpend
      simp [hstate, hpend, hpend.not_firing, hres]
    | firing =>
      obtain ⟨i, p, hi, -, hp, hprom, hnot, -⟩ := (follows_of_firing hstate).mp h
      have hfire : s.Firing n := ⟨i, hi, p, hp, hprom, hnot⟩
      have hpend : ¬ s.Pending n := fun hpend => hpend.not_firing hfire
      have hres : ¬ s.Resolved resolvedRetentionMs n := fun hres => hres.not_firing hfire
      simp [hstate, hfire, hpend, hres]
    | inactive =>
      obtain ⟨b, hleft, habs, -, hret⟩ := (follows_of_inactive hstate).mp h
      have hres : s.Resolved resolvedRetentionMs n := ⟨b, hleft, habs, hret⟩
      simp [hstate, hres, hres.not_firing, hres.not_pending]

/-- An active alert became active at the start of its activation. -/
theorem Follows.activeAt_eq {a : Alert} (h : Follows s n (some a)) (hstate : a.state ≠ .inactive) :
    ∃ i, s.start (n + 1) = some i ∧ a.activeAt = s.time i := by
  cases hcase : a.state with
  | pending =>
    obtain ⟨i, hi, hactive, -⟩ := (follows_of_pending hcase).mp h
    exact ⟨i, hi, hactive⟩
  | firing =>
    obtain ⟨i, p, hi, hactive, -⟩ := (follows_of_firing hcase).mp h
    exact ⟨i, hi, hactive⟩
  | inactive => exact absurd hcase hstate

end Status

/-! ### Runs -/

namespace AlertingRule

/-- The labels of the results do not depend on the alerts, and identify them. -/
theorem map_labels_of_results {rule : AlertingRule} {tpl : Templates} {q : Querier} {ts : ℤ}
    {pending : List PendingAlert} (h : rule.results tpl q ts = some pending) :
    pending.map PendingAlert.labels = rule.resultLabels tpl q ts ∧
      ∀ p ∈ pending, p.id = hashLabels p.labels := by
  rw [results] at h
  split at h
  · cases h
  · rename_i res hq
    cases h
    rw [resultLabels, hq]
    refine ⟨by simp [expandResults, expandResult, Function.comp_def], fun p hp => ?_⟩
    obtain ⟨m, -, rfl⟩ := List.mem_map.mp hp
    rfl

theorem resultLabels_withAlerts (rule : AlertingRule) (alerts : AlertMap) (tpl : Templates)
    (q : Querier) (ts : ℤ) :
    { rule with alerts := alerts }.resultLabels tpl q ts = rule.resultLabels tpl q ts := rfl

/-- Each alert has labels from a given set, and is kept under their identity. -/
def Labelled (rule : AlertingRule) (occurring : Set StringMap) : Prop :=
  ∀ (id : UInt64) a, rule.alerts[id]? = some a → a.labels ∈ occurring ∧ hashLabels a.labels = id

end AlertingRule

/-- An update keeps the labels of a tracked alert, and gives a new one those of its result. -/
theorem labels_alertUpdate {ts : ℤ} {result : Option PendingAlert} {o : Option Alert} {a : Alert}
    (h : alertUpdate ts result o = some a) :
    (∃ a₀, o = some a₀ ∧ a.labels = a₀.labels) ∨
      (o = none ∧ ∃ p, result = some p ∧ a.labels = p.labels) := by
  cases result with
  | none => exact .inl ⟨a, h, rfl⟩
  | some p =>
    obtain rfl := Option.some.inj h
    cases o with
    | none => exact .inr ⟨rfl, p, rfl, rfl⟩
    | some a₀ =>
      refine .inl ⟨a₀, rfl, ?_⟩
      simp only [map_some, getD_some, Alert.seenAgain]
      split_ifs <;> rfl

theorem Alert.labels_promote (a : Alert) (forMs ts : ℤ) :
    (a.promote forMs ts).1.labels = a.labels := by
  rw [Alert.promote]
  split_ifs <;> rfl

theorem Alert.labels_resolve {a a' : Alert} {keepFiringForMs ts : ℤ}
    (h : (a.resolve keepFiringForMs ts).1 = some a') : a'.labels = a.labels := by
  rw [Alert.resolve] at h
  split at h
  · cases h
  · dsimp only at h
    split_ifs at h <;> cases h <;> simp [Alert.resolved]
  · cases h
    rfl

/-- A sweep keeps the labels. -/
theorem Alert.labels_sweep {a a' : Alert} {present : Bool} {forMs keepFiringForMs ts : ℤ}
    (h : (a.sweep present forMs keepFiringForMs ts).1 = some a') : a'.labels = a.labels := by
  cases present with
  | true =>
    rw [Alert.sweep_present] at h
    cases h
    exact a.labels_promote forMs ts
  | false =>
    rw [Alert.sweep, if_neg Bool.false_ne_true] at h
    cases hres : a.resolve keepFiringForMs ts with
    | mk o stale =>
      rw [hres] at h
      cases o with
      | none => cases h
      | some a₀ =>
        cases h
        rw [Alert.labels_promote]
        exact Alert.labels_resolve (by rw [hres])

theorem mem_alertKept {ts : ℤ} {o : Option Alert} {a : Alert} (h : alertKept ts o = some a) :
    o = some a := (filter_eq_some_iff.mp h).1

namespace AlertingRule

/-- An evaluation adds the labels of its results. -/
theorem Labelled.exec {rule : AlertingRule} {occurring : Set StringMap}
    (h : rule.Labelled occurring) (tpl : Templates) (order : AlertOrder) (q : Querier) (ts : ℤ) :
    (rule.exec tpl order q ts).1.Labelled
      (occurring ∪ {labels | labels ∈ rule.resultLabels tpl q ts}) := by
  -- the updates keep the property; the sweep only drops alerts
  have hupdate : ∀ {seen pending : List PendingAlert}, rule.results tpl q ts = some pending →
      seen <+: pending → ∀ {id : UInt64} {a : Alert},
        alertUpdate ts (resultOf seen id) (alertKept ts rule.alerts[id]?) = some a →
          a.labels ∈ occurring ∪ {labels | labels ∈ rule.resultLabels tpl q ts} ∧
            hashLabels a.labels = id := by
    intro seen pending hres hseen id a ha
    obtain ⟨hlabels, hids⟩ := map_labels_of_results hres
    obtain ⟨a₀, hkept, heq⟩ | ⟨-, p, hp, heq⟩ := labels_alertUpdate ha
    · obtain ⟨hmem, hhash⟩ := h id a₀ (mem_alertKept hkept)
      exact heq ▸ ⟨.inl hmem, hhash⟩
    · obtain ⟨hmem, rfl⟩ := mem_of_resultOf_eq_some hp
      have hpending := hseen.subset hmem
      rw [heq, hids p hpending]
      exact ⟨.inr (hlabels ▸ List.mem_map_of_mem hpending), rfl⟩
  intro id a ha
  obtain ⟨e, -, -, hfailed⟩ | ⟨pending, alerts, updated, tss, hres, -, heval⟩ :=
    rule.exec_cases tpl order q ts
  · obtain hsame | ⟨seen, hseen, hget⟩ := hfailed.getElem?_alerts
    · rw [hsame] at ha
      exact ⟨.inl (h id a ha).1, (h id a ha).2⟩
    · rw [hget] at ha
      cases hres : rule.results tpl q ts with
      | none =>
        rw [hres, getD_none, List.prefix_nil] at hseen
        rw [hseen] at ha
        obtain ⟨hmem, hhash⟩ := h id a (mem_alertKept ha)
        exact ⟨.inl hmem, hhash⟩
      | some pending =>
        rw [hres, getD_some] at hseen
        exact hupdate hres hseen ha
  · rw [heval.getElem?_eq, alertStep, bind_eq_some_iff] at ha
    obtain ⟨a₀, hup, hsweep⟩ := ha
    rw [Alert.labels_sweep hsweep]
    exact hupdate hres List.prefix_rfl hup

end AlertingRule

namespace Evaluations

variable (ev : Evaluations) (rule : AlertingRule)

/-- The label sets of the results of the first `n` evaluations. -/
def occurring (n : ℕ) : Set StringMap := {labels | ∃ k < n, labels ∈ ev.labelsAt rule k}

theorem after_eq (n : ℕ) : ev.after rule n = { rule with alerts := (ev.after rule n).alerts } := by
  induction n with
  | zero => rfl
  | succ n ih =>
    rw [after, AlertingRule.exec_fst, ih]

theorem resultLabels_after (n k : ℕ) :
    (ev.after rule n).resultLabels ev.tpl (ev.querier k) (ev.time k) = ev.labelsAt rule k := by
  rw [ev.after_eq rule n, AlertingRule.resultLabels_withAlerts]
  rfl

variable {ev rule}

theorem labelled_after (hfresh : rule.alerts = ∅) (n : ℕ) :
    (ev.after rule n).Labelled (ev.occurring rule n) := by
  induction n with
  | zero =>
    intro id a ha
    rw [after, hfresh] at ha
    simp at ha
  | succ n ih =>
    have hstep := ih.exec ev.tpl (ev.order n) (ev.querier n) (ev.time n)
    rw [resultLabels_after] at hstep
    intro id a ha
    obtain ⟨hmem, hhash⟩ := hstep id a ha
    refine ⟨?_, hhash⟩
    obtain ⟨k, hk, hmem⟩ | hmem := hmem
    · exact ⟨k, hk.trans (Nat.lt_succ_self n), hmem⟩
    · exact ⟨n, Nat.lt_succ_self n, hmem⟩

variable {labels : StringMap}

/-- The result of the identity of a label set, when identities are distinct. -/
theorem isSome_resultOf_hashLabels {n : ℕ} {pending : List PendingAlert}
    (h : (ev.after rule n).results ev.tpl (ev.querier n) (ev.time n) = some pending)
    (hinj : ∀ labels' ∈ ev.labelsAt rule n, hashLabels labels' = hashLabels labels →
      labels' = labels) :
    (resultOf pending (hashLabels labels)).isSome ↔ labels ∈ ev.labelsAt rule n := by
  obtain ⟨hlabels, hids⟩ := AlertingRule.map_labels_of_results h
  rw [resultLabels_after] at hlabels
  rw [isSome_resultOf, ← hlabels]
  constructor
  · intro hmem
    obtain ⟨p, hp, hid⟩ := List.mem_map.mp hmem
    have hpl : p.labels ∈ pending.map PendingAlert.labels := List.mem_map_of_mem hp
    rwa [hinj p.labels (hlabels ▸ hpl) ((hids p hp).symm.trans hid)] at hpl
  · intro hmem
    obtain ⟨p, hp, rfl⟩ := List.mem_map.mp hmem
    exact List.mem_map.mpr ⟨p, hp, hids p hp⟩

/-- The times of a run increase. -/
theorem time_le_of_lt_succ {time : ℕ → ℤ} {n : ℕ} (hmono : ∀ k < n, time k < time (k + 1)) {i m : ℕ}
    (him : i ≤ m) (hmn : m ≤ n) : time i ≤ time m := by
  induction m, him using Nat.le_induction with
  | base => exact le_rfl
  | succ m him ih => exact (ih (by omega)).trans (hmono m (by omega)).le

theorem clocked (labels : StringMap) {n m : ℕ} (hmono : ∀ k < n, ev.time k < ev.time (k + 1))
    (hspan : ev.time n - ev.time 0 < i64Max) (hm : m ≤ n) :
    Clocked rule (ev.signal rule labels) m := by
  have hlt : ∀ i ≤ m, ev.time m - ev.time i < i64Max := fun i hi => by
    have h₀ := time_le_of_lt_succ hmono (Nat.zero_le i) (hi.trans hm)
    have h₁ := time_le_of_lt_succ hmono hm le_rfl
    omega
  refine ⟨fun i hi => time_le_of_lt_succ hmono hi hm, fun i hi => clampMs_le_iff (hlt i hi),
    fun i hi => clampMs_le_iff (hlt i hi), ?_, ?_⟩
  · exact le_min (Int.natCast_nonneg _) (by decide)
  · exact ⟨fun h => h.trans_le (min_le_left _ _), fun h => lt_min h (by decide)⟩

/-- After each evaluation of a run the alert of a label set follows its signal. -/
theorem follows_after (hfresh : rule.alerts = ∅) {n : ℕ} (hok : ∀ k ≤ n, ev.SucceedsAt rule k)
    (hmono : ∀ k < n, ev.time k < ev.time (k + 1)) (hspan : ev.time n - ev.time 0 < i64Max)
    (hinj : ∀ k ≤ n, ∀ labels' ∈ ev.labelsAt rule k, hashLabels labels' = hashLabels labels →
      labels' = labels)
    {m : ℕ} (hm : m ≤ n) :
    Follows (ev.signal rule labels) m (ev.after rule (m + 1)).alerts[hashLabels labels]? := by
  have hstep : ∀ k ≤ n, ∃ result : Option PendingAlert,
      (result.isSome ↔ (ev.signal rule labels).present k) ∧
      (ev.after rule (k + 1)).alerts[hashLabels labels]? =
        alertStep rule (ev.time k) result (ev.after rule k).alerts[hashLabels labels]? := by
    intro k hk
    obtain ⟨e, -, hnot, -⟩ | ⟨pending, alerts, updated, tss, hres, -, heval⟩ :=
      (ev.after rule k).exec_cases ev.tpl (ev.order k) (ev.querier k) (ev.time k)
    · exact absurd (AlertingRule.exec_ok_iff.mp (hok k hk)) hnot
    · refine ⟨resultOf pending (hashLabels labels), isSome_resultOf_hashLabels hres (hinj k hk), ?_⟩
      rw [after, heval.getElem?_eq, ev.after_eq rule k]
      rfl
  induction m with
  | zero =>
    obtain ⟨result, hresult, heq⟩ := hstep 0 hm
    have hnone : (ev.after rule 0).alerts[hashLabels labels]? = none := by
      rw [after, hfresh]
      rfl
    rw [heq, hnone]
    exact follows_zero (clocked labels hmono hspan hm) hresult
  | succ m ih =>
    obtain ⟨result, hresult, heq⟩ := hstep (m + 1) hm
    rw [heq]
    exact (ih (Nat.le_of_succ_le hm)).step (clocked labels hmono hspan hm) hresult

/-- A label set that never occurs has no status. -/
theorem follows_none {n : ℕ} (hmono : ∀ k < n, ev.time k < ev.time (k + 1))
    (hnever : ∀ k ≤ n, labels ∉ ev.labelsAt rule k) : Follows (ev.signal rule labels) n none := by
  induction n with
  | zero => exact Signal.no_status_zero (hnever 0 le_rfl)
  | succ n ih =>
    obtain ⟨hfire, -, hres⟩ := ih (fun k hk => hmono k (by omega)) fun k hk => hnever k (by omega)
    exact Signal.no_status_succ_of_absent (hmono n (Nat.lt_succ_self n)).le hfire hres
      (hnever (n + 1) le_rfl)

/-- **The state machine implements `for` and `keep_firing_for`.** After each successful evaluation
of a rule that starts without alerts, a label set is firing, pending or inactive exactly when its
signal fires, is pending, or resolved at most 15 minutes ago, and is not tracked else; and an active
alert became active at the start of its activation. -/
theorem state_machine (hfresh : rule.alerts = ∅) {n : ℕ} (hok : ∀ k ≤ n, ev.SucceedsAt rule k)
    (hmono : ∀ k < n, ev.time k < ev.time (k + 1)) (hspan : ev.time n - ev.time 0 < i64Max)
    (hhash : Set.InjOn hashLabels (ev.occurring rule (n + 1))) (labels : StringMap) :
    ((ev.after rule (n + 1)).IsTracked labels .firing ↔ (ev.signal rule labels).Firing n) ∧
      ((ev.after rule (n + 1)).IsTracked labels .pending ↔ (ev.signal rule labels).Pending n) ∧
      ((ev.after rule (n + 1)).IsTracked labels .inactive ↔
        (ev.signal rule labels).Resolved resolvedRetentionMs n) ∧
      ∀ a, (ev.after rule (n + 1)).alertOf labels = some a → a.state ≠ .inactive →
        ∃ i, (ev.signal rule labels).start (n + 1) = some i ∧ a.activeAt = ev.time i := by
  have hfollows : Follows (ev.signal rule labels) n ((ev.after rule (n + 1)).alertOf labels) := by
    have hlabelled := @labelled_after ev rule hfresh (n + 1)
    by_cases hocc : labels ∈ ev.occurring rule (n + 1)
    · -- an alert under the identity of the label set has this label set
      have halert : (ev.after rule (n + 1)).alertOf labels =
          (ev.after rule (n + 1)).alerts[hashLabels labels]? := by
        rw [AlertingRule.alertOf]
        cases ha : (ev.after rule (n + 1)).alerts[hashLabels labels]? with
        | none => rfl
        | some a =>
          obtain ⟨hmem, heq⟩ := hlabelled _ a ha
          rw [filter_some, if_pos (decide_eq_true (hhash hmem hocc heq))]
      rw [halert]
      exact follows_after hfresh hok hmono hspan (fun k hk labels' hmem heq =>
        hhash ⟨k, Nat.lt_succ_of_le hk, hmem⟩ hocc heq) le_rfl
    · have hnone : (ev.after rule (n + 1)).alertOf labels = none := by
        refine filter_eq_none_iff.mpr fun a ha heq => hocc ?_
        rw [← of_decide_eq_true heq]
        exact (hlabelled _ a ha).1
      rw [hnone]
      exact follows_none hmono fun k hk hmem => hocc ⟨k, Nat.lt_succ_of_le hk, hmem⟩
  obtain ⟨hfire, hpend, hres⟩ := hfollows.state_iff
  refine ⟨hfire, hpend, hres, fun a ha hstate => ?_⟩
  rw [ha] at hfollows
  exact hfollows.activeAt_eq hstate

/-- A rule that fires after a minute and is kept for another. -/
def highLoad : AlertingRule where
  id := 1
  name := ascii "HighLoad"
  groupName := ascii "g"
  expr := ascii "load > 5"
  forDuration := 60000
  keepFiringFor := 60000
  labels := ∅
  annotations := ∅
  disableAlertgroupLabel := false
  alerts := ∅

/-- Two evaluations of a query with one result, a minute apart. -/
def twoEvaluations : Evaluations where
  tpl := ⟨fun text _ => .ok text⟩
  order _ := .refl
  querier _ _ _ := .ok ⟨[⟨[(ascii "instance", ascii "h1")], [0], [.num 7]⟩], none⟩
  time k := 60000 * k

/-- The label set of the alert of `twoEvaluations`. -/
def highLoadLabels : StringMap :=
  (∅ : StringMap).insertMany [(ascii "alertgroup", ascii "g"),
    (ascii "alertname", ascii "HighLoad"), (ascii "instance", ascii "h1")]

theorem labelsAt_twoEvaluations (k : ℕ) :
    twoEvaluations.labelsAt highLoad k = [highLoadLabels] := by
  have heval : twoEvaluations.labelsAt highLoad 0 = [highLoadLabels] := by decide +kernel
  exact heval

theorem succeedsAt_twoEvaluations (k : ℕ) : twoEvaluations.SucceedsAt highLoad k := by
  refine AlertingRule.exec_ok_iff.mpr ⟨_, rfl, ?_⟩
  exact List.nodup_singleton _

theorem state_machine_twoEvaluations :
    ((twoEvaluations.after highLoad 2).IsTracked highLoadLabels .firing ↔
        (twoEvaluations.signal highLoad highLoadLabels).Firing 1) ∧
      ((twoEvaluations.after highLoad 2).IsTracked highLoadLabels .pending ↔
        (twoEvaluations.signal highLoad highLoadLabels).Pending 1) ∧
      ((twoEvaluations.after highLoad 2).IsTracked highLoadLabels .inactive ↔
        (twoEvaluations.signal highLoad highLoadLabels).Resolved resolvedRetentionMs 1) ∧
      ∀ a, (twoEvaluations.after highLoad 2).alertOf highLoadLabels = some a → a.state ≠ .inactive →
        ∃ i, (twoEvaluations.signal highLoad highLoadLabels).start 2 = some i ∧
          a.activeAt = twoEvaluations.time i := by
  refine state_machine rfl (fun k _ => succeedsAt_twoEvaluations k) ?_ (by decide) ?_ highLoadLabels
  · exact fun k _ => by simp [twoEvaluations]
  · rintro L ⟨k, -, hk⟩ L' ⟨k', -, hk'⟩ -
    rw [labelsAt_twoEvaluations, List.mem_singleton] at hk hk'
    rw [hk, hk']

end Evaluations

end Esmetrics.Esmalert
