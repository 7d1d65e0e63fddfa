import Esmetrics.Esmalert.Group

/-!
# The end times of notifications

An alert that is handed to the notifiers while it fires should end with the resolve duration of its
group, and one that is inactive when it last stopped firing. The second is true of every run
(`LastLeft`). The first fails exactly when an alert that resolved before fires again: the update
that reactivates it keeps its time of resolution. `Refires` says this of the state before an
evaluation and its results, and the notifications of a run are right exactly when it never happens
(`notifications_right_iff`).
-/

namespace Esmetrics.Esmalert

open List

/-! ### One evaluation -/

namespace AlertingRule

variable {rule : AlertingRule} {tpl : Templates} {order : AlertOrder} {q : Querier} {ts : ℤ}
  {id : UInt64} {a' : Alert}

/-- The alert of an identity fires. -/
def IsFiring (rule : AlertingRule) (id : UInt64) : Prop :=
  ∃ a, rule.alerts[id]? = some a ∧ a.state = .firing

theorem not_isFiring {a : Alert} (h : rule.alerts[id]? = some a) (hstate : a.state ≠ .firing) :
    ¬ rule.IsFiring id := by
  rintro ⟨a', ha', hfire⟩
  obtain rfl : a = a' := Option.some.inj (h.symm.trans ha')
  exact hstate hfire

/-- An alert that resolved before is present again, and active for the duration `for`. -/
def Refires (rule : AlertingRule) (tpl : Templates) (q : Querier) (ts : ℤ) : Prop :=
  ∃ pending, rule.results tpl q ts = some pending ∧ (pending.map PendingAlert.id).Nodup ∧
    ∃ p ∈ pending, ∃ a, rule.alerts[p.id]? = some a ∧ a.resolvedAt ≠ none ∧ a.state ≠ .firing ∧
      ¬ a.Evictable ts ∧ rule.forMs ≤ ts - a.activeFrom ts

/-- Where an alert comes from: untouched, updated by an evaluation that fails, or swept. -/
theorem getElem?_exec_cases
    (h : (rule.exec tpl order q ts).1.alerts[id]? = some a') :
    (rule.alerts[id]? = some a' ∨
        ∃ result, alertUpdate ts result (alertKept ts rule.alerts[id]?) = some a') ∨
      ∃ pending, rule.results tpl q ts = some pending ∧ (pending.map PendingAlert.id).Nodup ∧
        alertStep rule ts (resultOf pending id) rule.alerts[id]? = some a' := by
  obtain ⟨e, -, -, hfailed⟩ | ⟨pending, alerts, updated, tss, hres, -, heval⟩ :=
    rule.exec_cases tpl order q ts
  · obtain hsame | ⟨seen, -, hget⟩ := hfailed.getElem?_alerts
    · exact .inl (.inl (hsame id ▸ h))
    · exact .inl (.inr ⟨_, hget id ▸ h⟩)
  · exact .inr ⟨pending, hres, heval.nodup, heval.getElem?_eq id ▸ h⟩

/-- An inactive alert was inactive before, or it fired and resolved now. -/
theorem exec_inactive (h : (rule.exec tpl order q ts).1.alerts[id]? = some a')
    (hstate : a'.state = .inactive) :
    rule.alerts[id]? = some a' ∨ (rule.IsFiring id ∧ a'.resolvedAt = some ts) := by
  obtain (hsame | ⟨result, hup⟩) | ⟨pending, -, -, hstep⟩ := getElem?_exec_cases h
  · exact .inl hsame
  · obtain ⟨-, ho, -⟩ | ⟨p, a, -, -, -, rfl⟩ | ⟨p, -, rfl⟩ := alertUpdate_cases hup
    · exact .inl ho
    · exact absurd hstate (a.seenAgain_state_ne_inactive p ts)
    · cases hstate
  · obtain ⟨-, ho, -⟩ | ⟨a, -, ho, hfire, -, hr⟩ | ⟨a, -, -, -, hs, -⟩ | ⟨p, a, -, -, -, rfl⟩ |
      ⟨p, -, rfl⟩ := alertStep_cases hstep
    · exact .inl ho
    · exact .inr ⟨⟨a, ho, hfire⟩, hr⟩
    · cases hs.symm.trans hstate
    · exact absurd hstate
        (Alert.promote_state_ne_inactive (a.seenAgain_state_ne_inactive p ts) _ _)
    · exact absurd hstate (Alert.promote_state_ne_inactive (by simp [Alert.new]) _ _)

/-- A time of resolution is the time of the evaluation, or it was there before. -/
theorem exec_resolvedAt (h : (rule.exec tpl order q ts).1.alerts[id]? = some a') {r : ℤ}
    (hr : a'.resolvedAt = some r) :
    r = ts ∨ ∃ a, rule.alerts[id]? = some a ∧ a.resolvedAt = some r := by
  obtain (hsame | ⟨result, hup⟩) | ⟨pending, -, -, hstep⟩ := getElem?_exec_cases h
  · exact .inr ⟨a', hsame, hr⟩
  · obtain ⟨-, ho, -⟩ | ⟨p, a, -, ho, -, rfl⟩ | ⟨p, -, rfl⟩ := alertUpdate_cases hup
    · exact .inr ⟨a', ho, hr⟩
    · exact .inr ⟨a, ho, by simpa using hr⟩
    · cases hr
  · obtain ⟨-, ho, -⟩ | ⟨a, -, -, -, -, hr'⟩ | ⟨a, -, ho, -, -, hr'⟩ | ⟨p, a, -, ho, -, rfl⟩ |
      ⟨p, -, rfl⟩ := alertStep_cases hstep
    · exact .inr ⟨a', ho, hr⟩
    · exact .inl (Option.some.inj (hr.symm.trans hr'))
    · exact .inr ⟨a, ho, hr'.symm.trans hr⟩
    · exact .inr ⟨a, ho, by simpa using hr⟩
    · rw [Alert.promote_resolvedAt] at hr
      cases hr

/-- A firing alert with a time of resolution was one before, or it refires. -/
theorem exec_firing (h : (rule.exec tpl order q ts).1.alerts[id]? = some a')
    (hstate : a'.state = .firing) (hr : a'.resolvedAt ≠ none) :
    (∃ a, rule.alerts[id]? = some a ∧ a.state = .firing ∧ a.resolvedAt ≠ none) ∨
      rule.Refires tpl q ts := by
  obtain (hsame | ⟨result, hup⟩) | ⟨pending, hres, hnodup, hstep⟩ := getElem?_exec_cases h
  · exact .inl ⟨a', hsame, hstate, hr⟩
  · obtain ⟨-, ho, -⟩ | ⟨p, a, -, ho, -, rfl⟩ | ⟨p, -, rfl⟩ := alertUpdate_cases hup
    · exact .inl ⟨a', ho, hstate, hr⟩
    · exact .inl ⟨a, ho, Alert.seenAgain_state_eq_firing_iff.mp hstate, by simpa using hr⟩
    · cases hstate
  · obtain ⟨-, -, hs⟩ | ⟨a, -, -, -, hs, -⟩ | ⟨a, -, ho, hfire, -, hr'⟩ |
      ⟨p, a, hresult, ho, hev, rfl⟩ | ⟨p, -, rfl⟩ := alertStep_cases hstep
    · cases hs.symm.trans hstate
    · cases hs.symm.trans hstate
    · exact .inl ⟨a, ho, hfire, hr' ▸ hr⟩
    · rw [Alert.promote_resolvedAt, Alert.seenAgain_resolvedAt] at hr
      by_cases hfire : a.state = .firing
      · exact .inl ⟨a, ho, hfire, hr⟩
      · -- the alert did not fire before, so it was promoted
        have hprom : rule.forMs ≤ ts - a.activeFrom ts := by
          by_contra hlt
          rw [Alert.promote, if_neg, Alert.seenAgain_state_eq_firing_iff] at hstate
          · exact hfire hstate
          · exact fun hp => hlt (by simpa using hp.2)
        obtain ⟨hmem, rfl⟩ := mem_of_resultOf_eq_some hresult
        exact .inr ⟨pending, hres, hnodup, p, hmem, a, ho, hr, hfire, hev, hprom⟩
    · rw [Alert.promote_resolvedAt] at hr
      exact absurd rfl hr

/-- An alert that refires keeps its old time of resolution. -/
theorem Refires.exec (h : rule.Refires tpl q ts) (order : AlertOrder) :
    rule.Succeeds tpl q ts ∧ ∃ (id : UInt64) (a a' : Alert), rule.alerts[id]? = some a ∧
      a.resolvedAt ≠ none ∧
      (rule.exec tpl order q ts).1.alerts[id]? = some a' ∧ a'.state = .firing ∧
      a'.resolvedAt = a.resolvedAt := by
  obtain ⟨pending, hres, hnodup, p, hp, a, ha, hr, hfire, hev, hprom⟩ := h
  have hsucceeds : rule.Succeeds tpl q ts := ⟨pending, hres, hnodup⟩
  refine ⟨hsucceeds, p.id, a, ((a.seenAgain p ts).promote rule.forMs ts).1, ha, hr, ?_, ?_, by simp⟩
  · obtain ⟨e, -, hnot, -⟩ | ⟨pending', alerts, updated, tss, hres', -, heval⟩ :=
      rule.exec_cases tpl order q ts
    · exact absurd hsucceeds hnot
    · cases hres.symm.trans hres'
      rw [heval.getElem?_eq, resultOf_id hnodup hp, alertStep_some, ha, alertKept,
        Option.filter_some, if_pos (by simpa using hev)]
      rfl
  · rw [Alert.promote, if_pos]
    refine ⟨?_, by simpa using hprom⟩
    cases hstate : a.state with
    | firing => exact absurd hstate hfire
    | pending => simp [Alert.seenAgain, hstate]
    | inactive => simp [Alert.seenAgain, hstate]

end AlertingRule

/-! ### The runs of a rule -/

namespace AlertingRule

/-- A rule at its start: without alerts, or with the pending alerts that were restored. -/
def Fresh (rule : AlertingRule) : Prop :=
  ∀ (id : UInt64) (a : Alert), rule.alerts[id]? = some a →
    a.state = .pending ∧ a.resolvedAt = none ∧ hashLabels a.labels = id

theorem Labelled.mono {rule : AlertingRule} {s s' : Set StringMap} (h : rule.Labelled s)
    (hs : s ⊆ s') : rule.Labelled s' :=
  fun id a ha => ⟨hs (h id a ha).1, (h id a ha).2⟩

theorem mem_alertsToSend_iff {rule : AlertingRule} {order : AlertOrder} {a : Alert} :
    a ∈ rule.alertsToSend order ↔ (∃ id : UInt64, rule.alerts[id]? = some a) ∧
    a.state ≠ .pending := by
  rw [alertsToSend, mem_filter, decide_eq_true_iff, mem_map]
  refine and_congr_left fun _ => ⟨?_, ?_⟩
  · rintro ⟨⟨id, a⟩, hmem, rfl⟩
    rw [(order.perm _).mem_iff, Std.ExtTreeMap.mem_toList_iff_getElem?_eq_some] at hmem
    exact ⟨id, hmem⟩
  · rintro ⟨id, ha⟩
    refine ⟨(id, a), ?_, rfl⟩
    rwa [(order.perm _).mem_iff, Std.ExtTreeMap.mem_toList_iff_getElem?_eq_some]

end AlertingRule

namespace Evaluations

variable {ev : Evaluations} {rule : AlertingRule} {n : ℕ} {id : UInt64} {a : Alert}

/-- The alert of an identity stops firing in an evaluation. -/
def LeftFiringAt (ev : Evaluations) (rule : AlertingRule) (id : UInt64) (b : ℕ) : Prop :=
  (ev.after rule b).IsFiring id ∧ ¬ (ev.after rule (b + 1)).IsFiring id

/-- Among the first `n` evaluations, the alert of an identity last stopped firing in `b`. -/
def LastLeft (ev : Evaluations) (rule : AlertingRule) (id : UInt64) (b n : ℕ) : Prop :=
  b < n ∧ ev.LeftFiringAt rule id b ∧ ∀ k, b < k → k < n → ¬ ev.LeftFiringAt rule id k

theorem labelled_after_fresh (hfresh : rule.Fresh) (n : ℕ) :
    (ev.after rule n).Labelled Set.univ := by
  induction n with
  | zero => exact fun id a ha => ⟨trivial, (hfresh id a ha).2.2⟩
  | succ n ih => exact (ih.exec _ _ _ _).mono (Set.subset_univ _)

/-- An inactive alert resolved when it last stopped firing. -/
theorem exists_lastLeft (hfresh : rule.Fresh) (h : (ev.after rule n).alerts[id]? = some a)
    (hstate : a.state = .inactive) :
    ∃ b, ev.LastLeft rule id b n ∧ a.resolvedAt = some (ev.time b) := by
  induction n generalizing a with
  | zero => cases (hfresh id a h).1.symm.trans hstate
  | succ n ih =>
    obtain hsame | ⟨hfire, hr⟩ := AlertingRule.exec_inactive h hstate
    · obtain ⟨b, ⟨hb, hleft, hlast⟩, hr⟩ := ih hsame hstate
      refine ⟨b, ⟨hb.trans (Nat.lt_succ_self n), hleft, fun k hbk hk => ?_⟩, hr⟩
      obtain hk | rfl := Nat.lt_succ_iff_lt_or_eq.mp hk
      · exact hlast k hbk hk
      · exact fun hleft' => AlertingRule.not_isFiring hsame (by simp [hstate]) hleft'.1
    · refine ⟨n, ⟨Nat.lt_succ_self n, ⟨hfire, ?_⟩, fun k hnk hk => absurd hk (by omega)⟩, hr⟩
      exact AlertingRule.not_isFiring h (by simp [hstate])

/-- A time of resolution is the time of an earlier evaluation. -/
theorem exists_resolvedAt_eq (hfresh : rule.Fresh)
    (h : (ev.after rule n).alerts[id]? = some a) {r : ℤ}
    (hr : a.resolvedAt = some r) : ∃ k < n, r = ev.time k := by
  induction n generalizing a with
  | zero => cases (hfresh id a h).2.1.symm.trans hr
  | succ n ih =>
    obtain rfl | ⟨a₀, ha₀, hr₀⟩ := AlertingRule.exec_resolvedAt h hr
    · exact ⟨n, Nat.lt_succ_self n, rfl⟩
    · obtain ⟨k, hk, rfl⟩ := ih ha₀ hr₀
      exact ⟨k, hk.trans (Nat.lt_succ_self n), rfl⟩

/-- The rule refires in an evaluation. -/
def RefiresAt (ev : Evaluations) (rule : AlertingRule) (k : ℕ) : Prop :=
  (ev.after rule k).Refires ev.tpl (ev.querier k) (ev.time k)

/-- While nothing refires, a firing alert has no time of resolution. -/
theorem resolvedAt_eq_none_of_firing (hfresh : rule.Fresh)
    (hnot : ∀ k < n, ¬ ev.RefiresAt rule k) (h : (ev.after rule n).alerts[id]? = some a)
    (hstate : a.state = .firing) : a.resolvedAt = none := by
  by_contra hr
  induction n generalizing a with
  | zero => exact hr (hfresh id a h).2.1
  | succ n ih =>
    obtain ⟨a₀, ha₀, hs₀, hr₀⟩ | hrefires := AlertingRule.exec_firing h hstate hr
    · exact ih (fun k hk => hnot k (hk.trans (Nat.lt_succ_self n))) ha₀ hs₀ hr₀
    · exact hnot n (Nat.lt_succ_self n) hrefires

end Evaluations

/-! ### The notifications of a group -/

namespace GroupEvaluations

variable {ev : GroupEvaluations} {g : Group} {n : ℕ}

/-- Every alert that an evaluation hands to the notifiers has the right time of resolution: the end
of the resolve duration while it fires, and the evaluation in which it last stopped firing when it
is inactive. -/
def NotificationsRight (ev : GroupEvaluations) (g : Group) (n : ℕ) : Prop :=
  ∀ i ar alerts, g.rules[i]? = some (.alerting ar) → (i, alerts) ∈ ev.notified g n → ∀ a ∈ alerts,
    (a.state = .firing → a.resolvedAt = some (ev.time n + g.resolveDuration)) ∧
      (a.state = .inactive → ∃ b, (ev.ofRule i).LastLeft ar (hashLabels a.labels) b (n + 1) ∧
        a.resolvedAt = some (ev.time b))

/-- In an evaluation an alert that resolved before fires again. -/
def RefiresAt (ev : GroupEvaluations) (g : Group) (n : ℕ) : Prop :=
  ∃ i ar, g.rules[i]? = some (.alerting ar) ∧ (ev.ofRule i).RefiresAt ar n

/-- The alerting rules of the group are at their start. -/
def Fresh (g : Group) : Prop := ∀ ar, .alerting ar ∈ g.rules → ar.Fresh

/-- The times, the resolve duration and its ends fit an `i64`. -/
def EndsFit (ev : GroupEvaluations) (g : Group) (n : ℕ) : Prop :=
  (g.resolveDuration : ℤ) ≤ i64Max ∧
    ∀ k ≤ n, -2 ^ 63 ≤ ev.time k ∧ ev.time k + g.resolveDuration ≤ i64Max

theorem saturatingAdd_resolveMs {g : Group} {ts : ℤ} (hts : -2 ^ 63 ≤ ts)
    (hend : ts + g.resolveDuration ≤ i64Max) (hdur : (g.resolveDuration : ℤ) ≤ i64Max) :
    saturatingAdd ts g.resolveMs = ts + g.resolveDuration := by
  rw [saturatingAdd, Group.resolveMs, clampMs, min_eq_left hdur, min_eq_left hend, max_eq_right]
  exact hts.trans (le_add_of_nonneg_right (Int.natCast_nonneg _))

@[simp]
theorem outgoing_state (a : Alert) (ts resolveMs : ℤ) :
    (a.outgoing ts resolveMs).state = a.state := by
  rw [Alert.outgoing]
  split_ifs <;> rfl

@[simp]
theorem outgoing_labels (a : Alert) (ts resolveMs : ℤ) :
    (a.outgoing ts resolveMs).labels = a.labels := by
  rw [Alert.outgoing]
  split_ifs <;> rfl

theorem outgoing_of_none {a : Alert} (h : a.resolvedAt = none) (ts resolveMs : ℤ) :
    (a.outgoing ts resolveMs).resolvedAt = some (saturatingAdd ts resolveMs) := by
  rw [Alert.outgoing, if_pos h]

theorem outgoing_of_some {a : Alert} (h : a.resolvedAt ≠ none) (ts resolveMs : ℤ) :
    a.outgoing ts resolveMs = a := by
  rw [Alert.outgoing, if_neg h]

/-- While nothing refires, the notifications are right. -/
theorem notificationsRight (hfresh : Fresh g) (hfit : ev.EndsFit g n)
    (hnot : ∀ k ≤ n, ¬ ev.RefiresAt g k) : ev.NotificationsRight g n := by
  rintro i ar alerts hi hmem a ha
  have har : ar.Fresh := hfresh ar (mem_of_getElem? hi)
  obtain ⟨-, ar', hi', -, rfl⟩ := ev.mem_notified_iff.mp hmem
  obtain rfl : ar = ar' := by
    rw [hi] at hi'
    cases hi'
    rfl
  obtain ⟨a, hsent, rfl⟩ := mem_map.mp ha
  obtain ⟨⟨id, halert⟩, -⟩ := AlertingRule.mem_alertsToSend_iff.mp hsent
  rw [outgoing_state, outgoing_labels]
  constructor
  · intro hstate
    have hnone := Evaluations.resolvedAt_eq_none_of_firing har
      (fun k hk hrefires => hnot k (Nat.lt_succ_iff.mp hk) ⟨i, ar, hi, hrefires⟩) halert hstate
    rw [outgoing_of_none hnone, saturatingAdd_resolveMs (hfit.2 n le_rfl).1
      (hfit.2 n le_rfl).2 hfit.1]
  · intro hstate
    obtain ⟨b, hlast, hr⟩ := Evaluations.exists_lastLeft har halert hstate
    rw [outgoing_of_some (by simp [hr]), (Evaluations.labelled_after_fresh har _ id a halert).2]
    exact ⟨b, hlast, hr⟩

/-- A notification of an alert that refires is wrong. -/
theorem not_notificationsRight (hfresh : Fresh g) (hmono : ∀ k < n, ev.time k < ev.time (k + 1))
    (h : ev.RefiresAt g n) : ¬ ev.NotificationsRight g n := by
  obtain ⟨i, ar, hi, hrefires⟩ := h
  have har : ar.Fresh := hfresh ar (mem_of_getElem? hi)
  obtain ⟨hsucceeds, id, a, a', ha, hr, ha', hstate, heq⟩ := hrefires.exec (ev.order n i)
  obtain ⟨r, hr⟩ := Option.ne_none_iff_exists'.mp hr
  have hsent : a' ∈ ((ev.ofRule i).after ar (n + 1)).alertsToSend (ev.order n i) :=
    AlertingRule.mem_alertsToSend_iff.mpr ⟨⟨id, ha'⟩, by simp [hstate]⟩
  have hout : a'.outgoing (ev.time n) g.resolveMs = a' := outgoing_of_some (by simp [heq, hr]) _ _
  intro hright
  have hbatch := ev.mem_notified_iff.mpr ⟨ne_nil_of_mem (mem_map_of_mem hsent), ar, hi,
    AlertingRule.exec_ok_iff.mpr hsucceeds, rfl⟩
  have hend := (hright i ar _ hi hbatch _ (mem_map_of_mem hsent)).1
    (by rw [outgoing_state]; exact hstate)
  -- the time of resolution is that of an earlier evaluation
  obtain ⟨k, hk, rfl⟩ := Evaluations.exists_resolvedAt_eq har ha hr
  rw [hout, heq, hr, Option.some.injEq] at hend
  have hlt : ev.time k < ev.time n :=
    (hmono k hk).trans_le (Evaluations.time_le_of_lt_succ hmono hk le_rfl)
  have hdur : (0 : ℤ) ≤ g.resolveDuration := Int.natCast_nonneg _
  have htime : (ev.ofRule i).time k = ev.time k := rfl
  omega

/-- **The end times of notifications.** In a run of a group the alerts handed to the notifiers have
the right times of resolution exactly when no alert that resolved before fires again. -/
theorem notifications_right_iff (hfresh : Fresh g)
    (hmono : ∀ k < n, ev.time k < ev.time (k + 1)) (hfit : ev.EndsFit g n) :
    (∀ k ≤ n, ev.NotificationsRight g k) ↔ ∀ k ≤ n, ¬ ev.RefiresAt g k := by
  constructor
  · exact fun h k hk hrefires => not_notificationsRight hfresh (fun j hj => hmono j (by omega))
      hrefires (h k hk)
  · exact fun h k hk => notificationsRight hfresh ⟨hfit.1, fun j hj => hfit.2 j (hj.trans hk)⟩
      fun j hj => h j (hj.trans hk)

/-! ### An alert that fires twice -/

/-- A group with one rule that fires at once. -/
def flappingGroup : Group where
  name := ascii "g"
  interval := 60000
  concurrency := 1
  evalOffset := none
  evalDelay := none
  evalAlignment := true
  limit := 0
  rules := [.alerting { Evaluations.highLoad with forDuration := 0, keepFiringFor := 0 }]
  checksum := []
  labels := ∅
  resendDelay := 0
  maxResolveDuration := none

/-- Evaluations a minute apart; the second one has no result. -/
def flapping : GroupEvaluations where
  tpl := ⟨fun text _ => .ok text⟩
  order _ _ := .refl
  querier n _ _ _ :=
    .ok ⟨if n = 1 then [] else [⟨[(ascii "instance", ascii "h1")], [0], [.num 7]⟩], none⟩
  time n := 60000 * n

theorem fresh_flappingGroup : Fresh flappingGroup := by
  intro ar har id a ha
  cases mem_singleton.mp har
  cases ha

theorem endsFit_flapping : flapping.EndsFit flappingGroup 2 := by
  refine ⟨by decide, fun k hk => ?_⟩
  interval_cases k <;> decide

/-- In the third evaluation the alert fires for the second time, and ends with the second one. -/
theorem flapping_notification_wrong :
    Fresh flappingGroup ∧ (∀ k, flapping.time k < flapping.time (k + 1)) ∧
    0 < flappingGroup.resolveDuration ∧
    (flapping.notified flappingGroup 2).map (fun batch =>
        (batch.1, batch.2.map fun a => (a.state, a.resolvedAt))) =
      [(0, [(.firing, some (flapping.time 1))])] ∧
    ¬ flapping.NotificationsRight flappingGroup 2 := by
  have hrun : (flapping.notified flappingGroup 2).map (fun batch =>
      (batch.1, batch.2.map fun a => (a.state, a.resolvedAt))) =
        [(0, [(.firing, some (flapping.time 1))])] := by decide +kernel
  refine ⟨fresh_flappingGroup, fun k => by simp [flapping], by decide, hrun, fun hright => ?_⟩
  obtain ⟨⟨i, alerts⟩, hmem, hbatch⟩ := mem_map.mp (hrun ▸ mem_singleton_self
    (0, [(AlertState.firing, some (flapping.time 1))]))
  obtain ⟨rfl, halerts⟩ := Prod.mk.inj hbatch
  obtain ⟨a, ha, heq⟩ := mem_map.mp (halerts ▸ mem_singleton_self
    (AlertState.firing, some (flapping.time 1)))
  obtain ⟨hstate, hr⟩ := Prod.mk.inj heq
  have hend := (hright 0 _ alerts rfl hmem a ha).1 hstate
  rw [hr] at hend
  exact absurd hend (by decide)

theorem notifications_right_iff_flapping :
    (∀ k ≤ 2, flapping.NotificationsRight flappingGroup k) ↔
      ∀ k ≤ 2, ¬ flapping.RefiresAt flappingGroup k :=
  notifications_right_iff fresh_flappingGroup (fun k _ => by simp [flapping]) endsFit_flapping

end GroupEvaluations

end Esmetrics.Esmalert
