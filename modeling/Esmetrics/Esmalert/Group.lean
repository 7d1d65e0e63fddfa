import Esmetrics.Esmalert.Recording
import Esmetrics.Esmalert.StateMachine

/-!
# Rule groups

Model of `Group::eval_once` in `esmalert/src/rule/group.rs` and of the durations of `timing.rs` that
it uses. A group evaluates each of its rules once and hands the alerts of each alerting rule to the
notifiers; an alert without a time of resolution gets the end of the resolve duration.

The rules do not share state: each of them goes through a run of its own
(`getElem?_rules_after`).
-/

namespace Esmetrics.Esmalert

inductive RuleKind where
  | alerting (ar : AlertingRule)
  | recording (rr : RecordingRule)

/-- Evaluates a rule. -/
def RuleKind.exec (tpl : Templates) (order : AlertOrder) (q : Querier) (ts limit : ℤ) :
    RuleKind → RuleKind × Except RuleError (List Series)
  | .alerting ar => ((.alerting (ar.exec tpl order q ts).1), (ar.exec tpl order q ts).2)
  | .recording rr => (.recording rr, rr.exec q ts limit)

/-- A set of rules with one evaluation interval. -/
structure Group where
  name : Bytes
  interval : ℕ
  concurrency : ℕ
  evalOffset : Option ℕ
  evalDelay : Option ℕ
  evalAlignment : Bool
  limit : ℤ
  rules : List RuleKind
  checksum : Bytes
  labels : StringMap
  resendDelay : ℕ
  maxResolveDuration : Option ℕ

/-- The largest `Duration`, in milliseconds. -/
def durationMaxMs : ℕ := (2 ^ 64 - 1) * 1000 + 999

/-- The duration after which a firing alert is considered resolved. -/
def getResolveDuration (groupInterval resendDelay : ℕ) (maxResolveDuration : Option ℕ) : ℕ :=
  let delta := max groupInterval resendDelay
  let resolveDuration := min (delta * 4) durationMaxMs
  match maxResolveDuration with
  | some d => if d ≠ 0 ∧ d < resolveDuration then d else resolveDuration
  | none => resolveDuration

/-- The addition `saturating_add` of two `i64`. -/
def saturatingAdd (x y : ℤ) : ℤ := max (-2 ^ 63) (min (x + y) i64Max)

/-- The alert as it is handed to the notifiers. -/
def Alert.outgoing (a : Alert) (ts resolveMs : ℤ) : Alert :=
  if a.resolvedAt = none then { a with resolvedAt := some (saturatingAdd ts resolveMs) } else a

/-- What an evaluation of a group gives: the series for the remote storage, the alerts handed to the
notifiers for each rule, and the errors. -/
structure EvalOutcome where
  pushed : List Series
  notified : List (ℕ × List Alert)
  errors : List RuleError

namespace Group

/-- The resolve duration of the group. -/
def resolveDuration (g : Group) : ℕ :=
  getResolveDuration g.interval g.resendDelay g.maxResolveDuration

/-- The resolve duration of the group as an `i64`. -/
def resolveMs (g : Group) : ℤ := clampMs g.resolveDuration

/-- The rules after their evaluation, each with its result. -/
def execConcurrently (g : Group) (tpl : Templates) (order : ℕ → AlertOrder) (q : ℕ → Querier)
    (ts : ℤ) : List (RuleKind × Except RuleError (List Series)) :=
  g.rules.mapIdx fun i r => r.exec tpl (order i) (q i) ts g.limit

/-- The alerts that one evaluated rule hands to the notifiers. -/
def alertsOf (g : Group) (order : AlertOrder) (ts : ℤ) :
    RuleKind × Except RuleError (List Series) → List Alert
  | (.alerting ar, .ok _) => (ar.alertsToSend order).map fun a => a.outgoing ts g.resolveMs
  | _ => []

/-- Runs every rule once at `ts`. -/
def evalOnce (g : Group) (tpl : Templates) (order : ℕ → AlertOrder) (q : ℕ → Querier) (ts : ℤ) :
    Group × EvalOutcome :=
  let results := g.execConcurrently tpl order q ts
  ({ g with rules := results.map Prod.fst },
    { pushed := results.flatMap fun r => r.2.toOption.getD []
      notified := (results.mapIdx fun i r => (i, g.alertsOf (order i) ts r)).filter
        fun batch => batch.2 ≠ []
      errors := results.filterMap fun r =>
        match r.2 with
        | .ok _ => none
        | .error e => some e })

end Group

/-! ### Runs -/

/-- A sequence of evaluations of a group: at each of them the order in which the alerts of each rule
are visited, what the datasource answers to each rule, and the time. -/
structure GroupEvaluations where
  tpl : Templates
  order : ℕ → ℕ → AlertOrder
  querier : ℕ → ℕ → Querier
  time : ℕ → ℤ

namespace GroupEvaluations

variable (ev : GroupEvaluations) (g : Group)

/-- The evaluation after the first `n`, of the group as it is then. -/
def evaluate (g : Group) (n : ℕ) : Group × EvalOutcome :=
  g.evalOnce ev.tpl (ev.order n) (ev.querier n) (ev.time n)

/-- The group after the first `n` evaluations. -/
def after : ℕ → Group
  | 0 => g
  | n + 1 => (ev.evaluate (after n) n).1

/-- The alerts handed to the notifiers for each rule by an evaluation. -/
def notified (n : ℕ) : List (ℕ × List Alert) := (ev.evaluate (ev.after g n) n).2.notified

/-- The evaluations of one rule. -/
def ofRule (i : ℕ) : Evaluations where
  tpl := ev.tpl
  order n := ev.order n i
  querier n := ev.querier n i
  time := ev.time

/-- A rule after the first `n` evaluations. -/
def ruleAfter (i : ℕ) (n : ℕ) : RuleKind → RuleKind
  | .alerting ar => .alerting ((ev.ofRule i).after ar n)
  | .recording rr => .recording rr

variable {g}

theorem resolveMs_after (n : ℕ) : (ev.after g n).resolveMs = g.resolveMs := by
  induction n with
  | zero => rfl
  | succ n ih => exact ih

/-- Each rule goes through a run of its own. -/
theorem getElem?_rules_after (i n : ℕ) :
    (ev.after g n).rules[i]? = g.rules[i]?.map (ev.ruleAfter i n) := by
  induction n with
  | zero =>
    rw [after]
    cases g.rules[i]? with
    | none => rfl
    | some r => cases r <;> rfl
  | succ n ih =>
    rw [after, evaluate, Group.evalOnce, Group.execConcurrently]
    simp only [List.getElem?_map, List.getElem?_mapIdx, ih, Option.map_map]
    congr 1
    funext r
    cases r <;> rfl

theorem mem_mapIdx_pair {α β : Type*} {l : List α} {f : ℕ → α → β} {i : ℕ} {b : β} :
    (i, b) ∈ (l.mapIdx fun i a => (i, f i a)) ↔ ∃ a, l[i]? = some a ∧ f i a = b := by
  rw [List.mem_mapIdx]
  constructor
  · rintro ⟨k, hk, heq⟩
    obtain ⟨rfl, rfl⟩ := Prod.mk.inj heq
    exact ⟨l[k], List.getElem?_eq_getElem hk, rfl⟩
  · rintro ⟨a, ha, rfl⟩
    obtain ⟨hi, rfl⟩ := List.getElem?_eq_some_iff.mp ha
    exact ⟨i, hi, rfl⟩

/-- What an evaluation hands to the notifiers: for each alerting rule whose evaluation succeeded,
the alerts that are not pending. -/
theorem mem_notified_iff {n i : ℕ} {alerts : List Alert} :
    (i, alerts) ∈ ev.notified g n ↔ alerts ≠ [] ∧ ∃ ar, g.rules[i]? = some (.alerting ar) ∧
      (ev.ofRule i).SucceedsAt ar n ∧
      alerts = (((ev.ofRule i).after ar (n + 1)).alertsToSend (ev.order n i)).map
        fun a => a.outgoing (ev.time n) g.resolveMs := by
  rw [notified, evaluate, Group.evalOnce, List.mem_filter, mem_mapIdx_pair, and_comm,
    decide_eq_true_iff]
  refine and_congr_right fun hne => ?_
  rw [Group.execConcurrently]
  simp only [List.getElem?_mapIdx, getElem?_rules_after, Option.map_map, Option.map_eq_some_iff,
    Function.comp_apply]
  constructor
  · rintro ⟨-, ⟨r, hr, rfl⟩, rfl⟩
    cases r with
    | recording rr => exact absurd rfl hne
    | alerting ar =>
      rw [ruleAfter, RuleKind.exec] at hne ⊢
      cases hres : (((ev.ofRule i).after ar n).exec ev.tpl (ev.order n i) (ev.querier n i)
          (ev.time n)).2 with
      | error e =>
        rw [hres] at hne
        exact absurd rfl hne
      | ok tss =>
        refine ⟨ar, hr, ⟨tss, hres⟩, ?_⟩
        rw [Group.alertsOf, resolveMs_after]
        rfl
  · rintro ⟨ar, hr, ⟨tss, hok⟩, rfl⟩
    refine ⟨_, ⟨_, hr, rfl⟩, ?_⟩
    rw [ruleAfter, RuleKind.exec, show (((ev.ofRule i).after ar n).exec ev.tpl (ev.order n i)
      (ev.querier n i) (ev.time n)).2 = .ok tss from hok, Group.alertsOf, resolveMs_after]
    rfl

end GroupEvaluations

end Esmetrics.Esmalert
