import Std.Data.ExtTreeMap
import Esmetrics.Relabel.Label

/-!
# Relabel configs

Model of `esm-relabel/src/regex.rs`, `config.rs` and `if_expr.rs`: a rule with its compiled regexp,
the checks of a rule, and the `if` selector.

What the crate takes from elsewhere is a parameter (`Library`): compiled regexps with their match
and replacement, the hash, the two case mappings, and the parser of series selectors.
-/

namespace Esmetrics.Relabel

/-! ### Regular expressions -/

/-- A compiled regexp: whether it matches somewhere in a text, and the text with every match
replaced, where the replacement can refer to groups. -/
structure Regex where
  isMatch : Bytes → Bool
  replaceAll : Bytes → Bytes → Bytes

/-- One filter of a series selector. -/
structure LabelFilter where
  label : Bytes
  value : Bytes
  isNegative : Bool
  isRegexp : Bool

/-- What the relabel engine uses. -/
structure Library where
  newRegex : Bytes → Except Bytes Regex
  xxh64 : Bytes → UInt64
  toLowercase : Bytes → Bytes
  toUppercase : Bytes → Bytes
  /-- The alternative groups of filters of a series selector. -/
  parseSelector : Bytes → Except Bytes (List (List LabelFilter))

/-- Why a list of rules is rejected. -/
inductive RelabelError where
  | regex (pattern e : Bytes)
  | selector (s e : Bytes)
  | config (msg : String)

/-- A regexp that matches whole texts, and the pattern it is made from. -/
structure AnchoredRegex where
  re : Regex
  original : Bytes

namespace AnchoredRegex

/-- Compiles a pattern between anchors. -/
def compile (lib : Library) (pattern : Bytes) : Except RelabelError AnchoredRegex :=
  match lib.newRegex (ascii "^(?:" ++ pattern ++ ascii ")$") with
  | .ok re => .ok ⟨re, pattern⟩
  | .error e => .error (.regex pattern e)

def isMatch (r : AnchoredRegex) (s : Bytes) : Bool := r.re.isMatch s

def replaceAll (r : AnchoredRegex) (s rep : Bytes) : Bytes := r.re.replaceAll s rep

end AnchoredRegex

/-! ### Rules -/

inductive Action where
  | replace
  | replaceAll
  | keep
  | drop
  | keepEqual
  | dropEqual
  | keepIfEqual
  | dropIfEqual
  | keepIfContains
  | dropIfContains
  | keepMetrics
  | dropMetrics
  | labelmap
  | labelmapAll
  | labeldrop
  | labelkeep
  | hashmod
  | lowercase
  | uppercase
  | graphite
deriving DecidableEq

/-- A rule with its defaults applied. -/
structure RelabelConfig where
  sourceLabels : List Bytes
  separator : Bytes
  targetLabel : Bytes
  regex : AnchoredRegex
  modulus : UInt64
  replacement : Bytes
  action : Action
  ifExpr : Option (List Bytes)
  graphiteMatch : Option Bytes
  graphiteLabels : Std.ExtTreeMap Bytes Bytes

/-- The checks of the fields that an action needs. -/
def validateAction (cfg : RelabelConfig) : Except RelabelError Unit :=
  let err (msg : String) : Except RelabelError Unit := .error (.config msg)
  let hasSourceLabels := cfg.sourceLabels ≠ []
  let hasTargetLabel := cfg.targetLabel ≠ []
  match cfg.action with
  | .replace => if ¬ hasTargetLabel then err "missing `target_label` for `action=replace`"
    else .ok ()
  | .replaceAll =>
    if ¬ hasSourceLabels then err "missing `source_labels` for `action=replace_all`"
    else if ¬ hasTargetLabel then err "missing `target_label` for `action=replace_all`"
    else .ok ()
  | .keepIfContains | .dropIfContains =>
    if ¬ hasTargetLabel then
      err "`target_label` must be set for `action=keep_if_contains`/`drop_if_contains`"
    else if ¬ hasSourceLabels then
      err ("`source_labels` must contain at least a single entry for " ++
        "`action=keep_if_contains`/`drop_if_contains`")
    else .ok ()
  | .keepIfEqual | .dropIfEqual =>
    if cfg.sourceLabels.length < 2 then
      err ("`source_labels` must contain at least two entries for " ++
        "`action=keep_if_equal`/`drop_if_equal`")
    else if hasTargetLabel then
      err "`target_label` cannot be used for `action=keep_if_equal`/`drop_if_equal`"
    else .ok ()
  | .keepEqual | .dropEqual =>
    if ¬ hasTargetLabel then err "missing `target_label` for `action=keepequal`/`dropequal`"
      else .ok ()
  | .keep | .drop =>
    if ¬ hasSourceLabels ∧ cfg.ifExpr = none then err
      "missing `source_labels` for `action=keep`/`drop`"
    else .ok ()
  | .hashmod =>
    if ¬ hasSourceLabels then err "missing `source_labels` for `action=hashmod`"
    else if ¬ hasTargetLabel then err "missing `target_label` for `action=hashmod`"
    else if cfg.modulus < 1 then
      err "unexpected `modulus` for `action=hashmod`: must be greater than 0"
    else .ok ()
  | .uppercase | .lowercase =>
    if ¬ hasSourceLabels then err
      "missing `source_labels` for `action=uppercase`/`action=lowercase`"
    else if ¬ hasTargetLabel then err
      "missing `target_label` for `action=uppercase`/`action=lowercase`"
    else .ok ()
  | .graphite =>
    if cfg.graphiteMatch = none then err "missing `match` for `action=graphite`"
    else if cfg.graphiteLabels.isEmpty then err "missing `labels` for `action=graphite`"
    else if hasSourceLabels then err "`source_labels` cannot be used with `action=graphite`"
    else if hasTargetLabel then err "`target_label` cannot be used with `action=graphite`"
    else .ok ()
  | .keepMetrics | .dropMetrics | .labelmap | .labelmapAll | .labeldrop | .labelkeep => .ok ()

/-- The checks of a rule. -/
def validateRelabelConfig (cfg : RelabelConfig) : Except RelabelError Unit :=
  match validateAction cfg with
  | .error e => .error e
  | .ok () =>
    if cfg.action = .graphite then .ok ()
    else if cfg.graphiteMatch.isSome then
      .error (.config ("`match` config cannot be applied to this action; " ++
        "it is applied only to `action=graphite`"))
    else if ¬ cfg.graphiteLabels.isEmpty then
      .error (.config ("`labels` config cannot be applied to this action; " ++
        "it is applied only to `action=graphite`"))
    else .ok ()

/-! ### The selector of a rule -/

/-- A compiled filter; one of a regexp has it. -/
structure CompiledFilter where
  label : Bytes
  value : Bytes
  isNegative : Bool
  isRegexp : Bool
  re : Option AnchoredRegex
  isSome_re : re.isSome = isRegexp

namespace CompiledFilter

def compile (lib : Library) (lf : LabelFilter) : Except RelabelError CompiledFilter :=
  if h : lf.isRegexp then
    match AnchoredRegex.compile lib lf.value with
    | .ok re => .ok ⟨lf.label, lf.value, lf.isNegative, lf.isRegexp, some re, h.symm⟩
    | .error e => .error e
  else .ok ⟨lf.label, lf.value, lf.isNegative, lf.isRegexp, none, (Bool.eq_false_iff.mpr h).symm⟩

/-- The labels with the name of the filter have a value that satisfies `p`; an absent label counts
as an empty one. -/
def anyValue (f : CompiledFilter) (labels : List Label) (p : Bytes → Bool) : Bool :=
  let named := labels.filter fun l => l.name = f.label
  if named = [] then p [] else named.any fun l => p l.value

def equalValue (f : CompiledFilter) (labels : List Label) : Bool :=
  f.anyValue labels fun value => value = f.value

def matchRegexp (f : CompiledFilter) (labels : List Label) : Bool :=
  f.anyValue labels fun value => f.re.any fun re => re.isMatch value

def matchesLabels (f : CompiledFilter) (labels : List Label) : Bool :=
  match f.isNegative, f.isRegexp with
  | false, false => f.equalValue labels
  | true, false => !f.equalValue labels
  | false, true => f.matchRegexp labels
  | true, true => !f.matchRegexp labels

end CompiledFilter

/-- The groups of filters of a selector. -/
structure IfExpression where
  groups : List (List CompiledFilter)

namespace IfExpression

def parse (lib : Library) (s : Bytes) : Except RelabelError IfExpression :=
  match lib.parseSelector s with
  | .error e => .error (.selector s e)
  | .ok groups => (groups.mapM (List.mapM (CompiledFilter.compile lib))).map mk

/-- Parses the selectors; one of them has to match. -/
def parseList (lib : Library) (selectors : List Bytes) : Except RelabelError IfExpression :=
  (selectors.mapM (parse lib)).map fun parsed => ⟨parsed.flatMap groups⟩

/-- Some group matches with all its filters; without groups everything matches. -/
def matchesLabels (e : IfExpression) (labels : List Label) : Bool :=
  e.groups.isEmpty || e.groups.any fun group => group.all fun f => f.matchesLabels labels

end IfExpression

/-- The rules with their compiled selectors. -/
abbrev ParsedConfigs : Type := List (RelabelConfig × Option IfExpression)

/-- Checks and compiles one rule. -/
def parseConfig (lib : Library) (cfg : RelabelConfig) :
    Except RelabelError (RelabelConfig × Option IfExpression) :=
  match validateRelabelConfig cfg with
  | .error e => .error e
  | .ok () =>
    match cfg.ifExpr with
    | none => .ok (cfg, none)
    | some selectors => (IfExpression.parseList lib selectors).map fun e => (cfg, some e)

/-- Checks and compiles a list of rules. -/
def fromRawConfigs (lib : Library) (rawCfgs : List RelabelConfig) :
    Except RelabelError ParsedConfigs :=
  rawCfgs.mapM (parseConfig lib)

end Esmetrics.Relabel
