import Esmetrics.Esmalert.Group

/-!
# Building the runtime groups

Model of `esmalert/src/config` (the types and `validate.rs`) and of the two functions of
`manager.rs` that turn a parsed group into a runtime one: `build_runtime_group` for the daemon, and
`build_group_for_eval` for the tool that runs unit tests of rules.

The second one lays the labels of the group under the labels of each rule, and the first one does
not. The groups they build are the same exactly when each rule has all the label names of its group
(`same_rules_iff`).
-/

namespace Esmetrics.Esmalert

/-! ### The configuration -/

/-- An HTTP header. -/
structure Header where
  key : Bytes
  value : Bytes
deriving DecidableEq

/-- A parsed rule. Durations are in milliseconds. -/
structure CfgRule where
  record : Option Bytes
  alert : Option Bytes
  expr : Bytes
  forDuration : Option ℕ
  keepFiringFor : Option ℕ
  labels : StringMap
  annotations : StringMap
  debug : Option Bool
  updateEntriesLimit : Option ℤ

/-- A parsed group. -/
structure CfgGroup where
  name : Bytes
  type : Option Bytes
  interval : Option ℕ
  evalOffset : Option ℕ
  evalDelay : Option ℕ
  limit : Option ℤ
  concurrency : ℤ
  labels : StringMap
  params : Std.ExtTreeMap Bytes (List Bytes)
  headers : List Header
  notifierHeaders : List Header
  evalAlignment : Option Bool
  debug : Bool
  rules : List CfgRule

/-- The checks that other components do: of an expression and of a template, with the error if it is
rejected; and the checksum of a group. -/
structure Components where
  parse : Bytes → Option Bytes
  validateTemplate : Bytes → Option Bytes
  checksum : CfgGroup → Bytes

/-- Why a rule is rejected by its own checks. -/
inductive RuleConfigError where
  /-- either `record` or `alert` must be set -/
  | recordOrAlert
  /-- expression can't be empty -/
  | emptyExpr
  /-- invalid rule label `__name__` -/
  | nameLabel

/-- Why a group is rejected. -/
inductive ConfigError where
  /-- group name must be set -/
  | emptyName
  /-- the abs value of `eval_offset` should be smaller than `interval` -/
  | evalOffset (evalOffset interval : ℕ)
  /-- `eval_offset` cannot be used with `eval_delay` -/
  | offsetWithDelay
  /-- invalid limit, shouldn't be less than 0 -/
  | limit (limit : ℤ)
  /-- invalid concurrency, shouldn't be less than 0 -/
  | concurrency (concurrency : ℤ)
  /-- the rule is a duplicate in group -/
  | duplicate (rule : Bytes)
  /-- invalid rule -/
  | rule (rule : Bytes) (e : RuleConfigError)
  /-- invalid expression for rule -/
  | expr (rule e : Bytes)
  /-- invalid annotations for rule -/
  | annotations (rule key e : Bytes)
  /-- invalid labels for rule -/
  | labels (rule key e : Bytes)

namespace CfgRule

/-- The rule has a name to record under. -/
def isRecording (r : CfgRule) : Bool := r.record.any fun s => s ≠ []

/-- The rule has a name to alert under. -/
def hasAlert (r : CfgRule) : Bool := r.alert.any fun s => s ≠ []

/-- The name under `record`, and else the one under `alert`. -/
def name (r : CfgRule) : Bytes :=
  match r.record with
  | some name => if name ≠ [] then name else r.alert.getD []
  | none => r.alert.getD []

/-- The identity of a rule: its expression, its kind and name, and its sorted labels. -/
def identity (r : CfgRule) : Bytes :=
  r.expr ++
    (if r.isRecording then 0 :: ascii "recording" ++ 0 :: r.record.getD []
      else 0 :: ascii "alerting" ++ 0 :: r.alert.getD []) ++
    r.labels.toList.flatMap fun kv => 0 :: kv.1 ++ 0 :: kv.2

/-- The hash of the identity. -/
def identityHash (r : CfgRule) : UInt64 := r.identity.foldl fnvStep 0xcbf29ce484222325

/-- The structural checks of a rule. -/
def validate (r : CfgRule) : Except RuleConfigError Unit :=
  if r.isRecording = r.hasAlert then .error .recordOrAlert
  else if r.expr = [] then .error .emptyExpr
  else if nameLabel ∈ r.labels then .error .nameLabel
  else .ok ()

end CfgRule

/-- The first value of a map that is not a template. -/
def validateTemplateMap (c : Components) (m : StringMap) : Option (Bytes × Bytes) :=
  m.toList.findSome? fun kv => (c.validateTemplate kv.2).map fun e => (kv.1, e)

namespace CfgGroup

/-- The checks of the rules, given the identities seen before. -/
def validateRules (c : Components) (seen : List Bytes) : List CfgRule → Except ConfigError Unit
  | [] => .ok ()
  | r :: rules =>
    if r.identity ∈ seen then .error (.duplicate r.name)
    else
      match r.validate, c.parse r.expr, validateTemplateMap c r.annotations,
        validateTemplateMap c r.labels with
      | .error e, _, _, _ => .error (.rule r.name e)
      | .ok (), some e, _, _ => .error (.expr r.name e)
      | .ok (), none, some (k, e), _ => .error (.annotations r.name k e)
      | .ok (), none, none, some (k, e) => .error (.labels r.name k e)
      | .ok (), none, none, none => validateRules c (r.identity :: seen) rules

/-- The checks of a group and of its rules. -/
def validate (c : Components) (g : CfgGroup) : Except ConfigError Unit :=
  let interval := g.interval.getD 0
  let evalOffset := g.evalOffset.getD 0
  if g.name = [] then .error .emptyName
  else if interval < evalOffset then .error (.evalOffset evalOffset interval)
  else if g.evalOffset.isSome ∧ g.evalDelay.isSome then .error .offsetWithDelay
  else if g.limit.any fun limit => limit < 0 then .error (.limit (g.limit.getD 0))
  else if g.concurrency < 0 then .error (.concurrency g.concurrency)
  else validateRules c [] g.rules

end CfgGroup

/-! ### Building -/

/-- What the manager gives to each group it builds. -/
structure ManagerDeps where
  disableAlertgroupLabel : Bool
  defaultEvalInterval : ℕ
  resendDelay : ℕ
  maxResolveDuration : Option ℕ

/-- Builds a rule; its identity is the hash of the parsed one. -/
def buildRule (r : CfgRule) (groupName : Bytes) (disableAlertgroupLabel : Bool) : RuleKind :=
  let id := r.identityHash
  if r.isRecording then
    .recording
      { id := id
        name := r.record.getD []
        expr := r.expr
        labels := r.labels }
  else
    .alerting
      { id := id
        name := r.alert.getD []
        groupName := groupName
        expr := r.expr
        forDuration := r.forDuration.getD 0
        keepFiringFor := r.keepFiringFor.getD 0
        labels := r.labels
        annotations := r.annotations
        disableAlertgroupLabel := disableAlertgroupLabel
        alerts := ∅ }

/-- The number of rules that are evaluated at a time. -/
def CfgGroup.runtimeConcurrency (g : CfgGroup) : ℕ :=
  max (if g.concurrency < 0 then 1 else g.concurrency.toNat) 1

/-- Builds the group that the daemon runs. -/
def buildRuntimeGroup (c : Components) (g : CfgGroup) (deps : ManagerDeps) : Group where
  name := g.name
  interval := g.interval.getD deps.defaultEvalInterval
  concurrency := g.runtimeConcurrency
  evalOffset := g.evalOffset
  evalDelay := g.evalDelay
  evalAlignment := g.evalAlignment.getD true
  limit := g.limit.getD 0
  rules := g.rules.map fun r => buildRule r g.name deps.disableAlertgroupLabel
  checksum := c.checksum g
  labels := g.labels
  resendDelay := deps.resendDelay
  maxResolveDuration := deps.maxResolveDuration

/-- Builds a group that the caller evaluates itself: the labels of each rule lie over the ones of
the group, and these over the extra ones. -/
def buildGroupForEval (c : Components) (g : CfgGroup) (extraLabels : StringMap)
    (disableAlertgroupLabel : Bool) (defaultEvalInterval resendDelay : ℕ)
    (maxResolveDuration : Option ℕ) : Group :=
  let baseLabels := extraLabels.insertMany g.labels.toList
  { name := g.name
    interval := g.interval.getD defaultEvalInterval
    concurrency := g.runtimeConcurrency
    evalOffset := g.evalOffset
    evalDelay := g.evalDelay
    evalAlignment := g.evalAlignment.getD true
    limit := g.limit.getD 0
    rules := g.rules.map fun r =>
      if baseLabels.isEmpty then buildRule r g.name disableAlertgroupLabel
      else buildRule { r with labels := baseLabels.insertMany r.labels.toList } g.name
        disableAlertgroupLabel
    checksum := c.checksum g
    labels := g.labels
    resendDelay := resendDelay
    maxResolveDuration := maxResolveDuration }

/-! ### The labels of a rule over those of its group -/

/-- The later labels win. -/
theorem getElem?_insertMany_toList (base labels : StringMap) (k : Bytes) :
    (base.insertMany labels.toList)[k]? = labels[k]?.or base[k]? := by
  have hdistinct : labels.toList.Pairwise fun a b => ¬ compare a.1 b.1 = .eq :=
    Std.ExtTreeMap.distinct_keys_toList
  cases hk : labels[k]? with
  | some v =>
    exact Std.ExtTreeMap.getElem?_insertMany_list_of_mem (by simp) hdistinct
      (Std.ExtTreeMap.mem_toList_iff_getElem?_eq_some.mpr hk)
  | none =>
    refine Std.ExtTreeMap.getElem?_insertMany_list_of_contains_eq_false
      (Bool.eq_false_iff.mpr fun hmem => ?_)
    obtain ⟨⟨k', v⟩, hkv, rfl⟩ := List.mem_map.mp (List.contains_iff_mem.mp hmem)
    cases hk.symm.trans (Std.ExtTreeMap.mem_toList_iff_getElem?_eq_some.mp hkv)

theorem insertMany_empty (labels : StringMap) : (∅ : StringMap).insertMany labels.toList =
    labels := by
  refine Std.ExtTreeMap.ext_getElem? fun k => ?_
  rw [getElem?_insertMany_toList, Std.ExtTreeMap.getElem?_empty, Option.or_none]

/-- Labels that are laid under others add nothing exactly when their names are there already. -/
theorem insertMany_eq_self_iff (base labels : StringMap) :
    base.insertMany labels.toList = labels ↔ ∀ k ∈ base, k ∈ labels := by
  constructor
  · intro heq k hk
    rw [← heq, Std.ExtTreeMap.mem_iff_isSome_getElem?, getElem?_insertMany_toList]
    rw [Std.ExtTreeMap.mem_iff_isSome_getElem?] at hk
    rw [Option.isSome_or, hk, Bool.or_true]
  · intro hsub
    refine Std.ExtTreeMap.ext_getElem? fun k => ?_
    rw [getElem?_insertMany_toList]
    by_cases hk : k ∈ labels
    · rw [Option.or_of_isSome (Std.ExtTreeMap.mem_iff_isSome_getElem?.mp hk)]
    · rw [Std.ExtTreeMap.getElem?_eq_none hk, Option.none_or,
        Std.ExtTreeMap.getElem?_eq_none (mt (hsub k) hk)]

/-! ### The same rules -/

/-- What the configuration of a rule comes to at run time. -/
structure RuleSpec where
  id : UInt64
  isRecording : Bool
  name : Bytes
  expr : Bytes
  forDuration : ℕ
  keepFiringFor : ℕ
  labels : StringMap
  annotations : StringMap

/-- The configuration of a rule; a recording rule has no durations and no annotations. -/
def RuleKind.spec : RuleKind → RuleSpec
  | .alerting ar =>
    ⟨ar.id, false, ar.name, ar.expr, ar.forDuration, ar.keepFiringFor, ar.labels, ar.annotations⟩
  | .recording rr => ⟨rr.id, true, rr.name, rr.expr, 0, 0, rr.labels, ∅⟩

/-- When the rules of a group are evaluated. -/
structure Timing where
  interval : ℕ
  concurrency : ℕ
  evalOffset : Option ℕ
  evalDelay : Option ℕ
  evalAlignment : Bool
  limit : ℤ
  resendDelay : ℕ
  maxResolveDuration : Option ℕ

def Group.timing (g : Group) : Timing :=
  ⟨g.interval, g.concurrency, g.evalOffset, g.evalDelay, g.evalAlignment, g.limit, g.resendDelay,
    g.maxResolveDuration⟩

/-- **The same rules.** Two groups have the same rules at the same times, and every evaluation in
every run gives the same series, notifications and errors. -/
structure SameRules (g g' : Group) : Prop where
  rules : g.rules.map RuleKind.spec = g'.rules.map RuleKind.spec
  timing : g.timing = g'.timing
  evaluations : ∀ (ev : GroupEvaluations) (n : ℕ),
    (ev.evaluate (ev.after g n) n).2 = (ev.evaluate (ev.after g' n) n).2

theorem labels_spec_buildRule (r : CfgRule) (groupName : Bytes) (flag : Bool) :
    (buildRule r groupName flag).spec.labels = r.labels := by
  rw [buildRule]
  split_ifs <;> rfl

/-- A rule built with the labels of its group under its own. -/
theorem buildGroupForEval_rules (c : Components) (g : CfgGroup) (flag : Bool) (interval resend : ℕ)
    (maxResolve : Option ℕ) :
    (buildGroupForEval c g ∅ flag interval resend maxResolve).rules = g.rules.map fun r =>
      buildRule { r with labels := g.labels.insertMany r.labels.toList } g.name flag := by
  rw [buildGroupForEval]
  simp only [insertMany_empty]
  refine List.map_congr_left fun r _ => ?_
  split_ifs with hempty
  · rw [Std.ExtTreeMap.isEmpty_iff.mp hempty, insertMany_empty]
  · rfl

/-- **The daemon and the unit-test tool run the same rules exactly when each rule has all the label
names of its group**: the daemon leaves the labels of the group out. -/
theorem same_rules_iff (c : Components) (g : CfgGroup) (deps : ManagerDeps) :
    SameRules (buildRuntimeGroup c g deps) (buildGroupForEval c g ∅ deps.disableAlertgroupLabel
        deps.defaultEvalInterval deps.resendDelay deps.maxResolveDuration) ↔
      ∀ r ∈ g.rules, ∀ k ∈ g.labels, k ∈ r.labels := by
  constructor
  · intro hsame r hr
    have hrules := hsame.rules
    rw [buildGroupForEval_rules, buildRuntimeGroup] at hrules
    simp only [List.map_map, List.map_inj_left, Function.comp_apply] at hrules
    have hlabels := congrArg RuleSpec.labels (hrules r hr)
    rw [labels_spec_buildRule, labels_spec_buildRule] at hlabels
    exact (insertMany_eq_self_iff g.labels r.labels).mp hlabels.symm
  · intro hcovered
    have heq : buildRuntimeGroup c g deps = buildGroupForEval c g ∅ deps.disableAlertgroupLabel
        deps.defaultEvalInterval deps.resendDelay deps.maxResolveDuration := by
      have hrules : (buildRuntimeGroup c g deps).rules = (buildGroupForEval c g ∅
          deps.disableAlertgroupLabel deps.defaultEvalInterval deps.resendDelay
          deps.maxResolveDuration).rules := by
        rw [buildGroupForEval_rules, buildRuntimeGroup]
        refine List.map_congr_left fun r hr => ?_
        rw [(insertMany_eq_self_iff g.labels r.labels).mpr (hcovered r hr)]
      exact congrArg (fun rules => { buildRuntimeGroup c g deps with rules := rules }) hrules
    rw [heq]
    exact ⟨rfl, rfl, fun ev n => rfl⟩

/-- A group with a label, and one rule without it. -/
def teamGroup : CfgGroup where
  name := ascii "g"
  type := none
  interval := none
  evalOffset := none
  evalDelay := none
  limit := none
  concurrency := 0
  labels := (∅ : StringMap).insert (ascii "team") (ascii "a")
  params := ∅
  headers := []
  notifierHeaders := []
  evalAlignment := none
  debug := false
  rules := [⟨some (ascii "r"), none, ascii "up", none, none, ∅, ∅, none, none⟩]

/-- Accepts every text. -/
def acceptAll : Components := ⟨fun _ => none, fun _ => none, fun _ => []⟩

/-- One evaluation of a query with one result. -/
def oneResult : GroupEvaluations where
  tpl := ⟨fun text _ => .ok text⟩
  order _ _ := .refl
  querier _ _ _ _ := .ok ⟨[⟨[(ascii "instance", ascii "h1")], [0], [.num 1]⟩], none⟩
  time k := 60000 * k

/-- The series that the daemon records for `teamGroup` lacks the label that the unit tests see. -/
theorem group_labels_missing : teamGroup.validate acceptAll = .ok () ∧
    ¬ SameRules (buildRuntimeGroup acceptAll teamGroup ⟨false, 60000, 0, none⟩)
      (buildGroupForEval acceptAll teamGroup ∅ false 60000 0 none) := by
  refine ⟨rfl, fun hsame => ?_⟩
  have hlabel :
      (((oneResult.evaluate (buildRuntimeGroup acceptAll teamGroup ⟨false, 60000, 0, none⟩)
      0).2.pushed.flatMap Series.labels).map Prod.fst).contains (ascii "team") = false := by
    decide +kernel
  have hlabel' : (((oneResult.evaluate (buildGroupForEval acceptAll teamGroup ∅ false 60000 0 none)
      0).2.pushed.flatMap Series.labels).map Prod.fst).contains (ascii "team") = true := by
    decide +kernel
  have heval := hsame.evaluations oneResult 0
  rw [GroupEvaluations.after, GroupEvaluations.after] at heval
  rw [heval, hlabel'] at hlabel
  cases hlabel

end Esmetrics.Esmalert
