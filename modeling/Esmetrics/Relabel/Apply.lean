import Esmetrics.Relabel.Graphite

/-!
# Applying relabel rules

Model of `esm-relabel/src/apply.rs` and of `ParsedConfigs::apply`: what each action makes of a label
list, and a run of rules, each behind its selector.

Every action but one writes labels with `setLabel` or drops some, so it keeps the names distinct.
`labelmap_all` renames the labels where they are and does not look at the other names, so the names
stay distinct as long as it does not map two of them to one (`wellFormed_apply`). No action makes a
value empty.
-/

namespace Esmetrics.Relabel

variable (lib : Library)

/-! ### The actions -/

/-- Replaces the references to labels between double braces by their values. -/
def fillLabelReferences (labels : List Label) (replacement : Bytes) : Bytes :=
  match h : cutAt [123, 123] replacement with
  | none => replacement
  | some (text, s) =>
    match h' : cutAt [125, 125] s with
    | none => text ++ [123, 123] ++ s
    | some (labelName, s') =>
      have _hlength := length_lt_of_cutAt h h'
      text ++ getLabelValue labels labelName ++ fillLabelReferences labels s'
termination_by replacement.length

/-- The joined values of the source labels of a rule. -/
def sourceOf (cfg : RelabelConfig) (labels : List Label) : Bytes :=
  concatSourceValues labels cfg.sourceLabels cfg.separator

/-- `replace`: sets the target label when the regexp matches the source; both the value and the
target can refer to groups of the match. -/
def applyReplace (cfg : RelabelConfig) (labels : List Label) : List Label :=
  let source := sourceOf cfg labels
  if cfg.regex.isMatch source then
    let replacement :=
      if [123, 123] <:+: cfg.replacement then fillLabelReferences labels cfg.replacement
      else cfg.replacement
    setLabel labels (cfg.regex.replaceAll source cfg.targetLabel)
      (cfg.regex.replaceAll source replacement)
  else labels

/-- `replace_all`: replaces every match in the source, and sets the target label if that changes
it. -/
def applyReplaceAll (cfg : RelabelConfig) (labels : List Label) : List Label :=
  let source := sourceOf cfg labels
  match lib.newRegex cfg.regex.original with
  | .error _ => labels
  | .ok re =>
    let value := re.replaceAll source cfg.replacement
    if value ≠ source then setLabel labels cfg.targetLabel value else labels

/-- `keep`: the regexp matches the source. -/
def applyKeep (cfg : RelabelConfig) (labels : List Label) : Bool :=
  cfg.regex.isMatch (sourceOf cfg labels)

/-- `labelmap`: sets a label under a new name for each label whose name matches. -/
def applyLabelmap (cfg : RelabelConfig) (labels : List Label) : List Label :=
  labels.foldl
    (fun out label =>
      if cfg.regex.isMatch label.name then
        let newName := cfg.regex.replaceAll label.name cfg.replacement
        if newName ≠ label.name then setLabel out newName label.value else out
      else out)
    labels

/-- `hashmod`: sets the target label to the hash of the source modulo the modulus. -/
def applyHashmod (cfg : RelabelConfig) (labels : List Label) : List Label :=
  if cfg.modulus = 0 then labels
  else
    let value := (lib.xxh64 (sourceOf cfg labels) % cfg.modulus).toNat
    setLabel labels cfg.targetLabel ((Nat.toDigits 10 value).map fun c => c.val.toUInt8)

/-- `lowercase` and `uppercase`. -/
def applyCase (cfg : RelabelConfig) (labels : List Label) (transform : Bytes → Bytes) :
    List Label :=
  setLabel labels cfg.targetLabel (transform (sourceOf cfg labels))

/-- `keepequal`: the target label has the source as its value. -/
def applyKeepEqual (cfg : RelabelConfig) (labels : List Label) : Bool :=
  sourceOf cfg labels = getLabelValue labels cfg.targetLabel

/-- `keep_if_equal`: the source labels have one value. -/
def applyKeepIfEqual (cfg : RelabelConfig) (labels : List Label) : Bool :=
  match cfg.sourceLabels with
  | [] => true
  | firstName :: names =>
    names.all fun name => getLabelValue labels name = getLabelValue labels firstName

/-- `keep_if_contains`: the value of the target label contains the values of the source labels. -/
def applyKeepIfContains (cfg : RelabelConfig) (labels : List Label) : Bool :=
  cfg.sourceLabels.all fun name =>
    getLabelValue labels name <:+: getLabelValue labels cfg.targetLabel

/-- `keep_metrics`: the regexp matches the metric name. -/
def applyKeepMetrics (cfg : RelabelConfig) (labels : List Label) : Bool :=
  cfg.regex.isMatch (getLabelValue labels (ascii "__name__"))

/-- `labelmap_all`: replaces every match in the name of each label, where the label is. -/
def applyLabelmapAll (cfg : RelabelConfig) (labels : List Label) : List Label :=
  match lib.newRegex cfg.regex.original with
  | .error _ => labels
  | .ok re => labels.map fun label =>
    { label with name := re.replaceAll label.name cfg.replacement }

/-- Applies a rule; `false` drops the series. -/
def applyOne (cfg : RelabelConfig) (labels : List Label) : Bool × List Label :=
  match cfg.action with
  | .replace => (true, applyReplace cfg labels)
  | .replaceAll => (true, applyReplaceAll lib cfg labels)
  | .keep => (applyKeep cfg labels, labels)
  | .drop => (!applyKeep cfg labels, labels)
  | .labelmap => (true, applyLabelmap cfg labels)
  | .labeldrop => (true, labels.filter fun l => !cfg.regex.isMatch l.name)
  | .labelkeep => (true, labels.filter fun l => cfg.regex.isMatch l.name)
  | .hashmod => (true, applyHashmod lib cfg labels)
  | .lowercase => (true, applyCase cfg labels lib.toLowercase)
  | .uppercase => (true, applyCase cfg labels lib.toUppercase)
  | .keepEqual => (applyKeepEqual cfg labels, labels)
  | .dropEqual => (!applyKeepEqual cfg labels, labels)
  | .keepIfEqual => (applyKeepIfEqual cfg labels, labels)
  | .dropIfEqual => (!applyKeepIfEqual cfg labels, labels)
  | .keepIfContains => (applyKeepIfContains cfg labels, labels)
  | .dropIfContains => (!applyKeepIfContains cfg labels, labels)
  | .keepMetrics => (applyKeepMetrics cfg labels, labels)
  | .dropMetrics => (!applyKeepMetrics cfg labels, labels)
  | .labelmapAll => (true, applyLabelmapAll lib cfg labels)
  | .graphite => (true, applyGraphite cfg labels)

/-- The selector of a rule matches, or the rule has none. -/
def selected (ifExpr : Option IfExpression) (labels : List Label) : Bool :=
  ifExpr.all fun e => e.matchesLabels labels

/-- Applies the rules in order. A rule whose selector does not match is skipped, except for `keep`,
which drops the series then. -/
def apply : ParsedConfigs → List Label → Bool × List Label
  | [], labels => (true, labels)
  | (cfg, ifExpr) :: cfgs, labels =>
    if selected ifExpr labels then
      if (applyOne lib cfg labels).1 then apply cfgs (applyOne lib cfg labels).2
      else (false, (applyOne lib cfg labels).2)
    else if cfg.action = .keep then (false, labels)
    else apply cfgs labels

/-! ### One rule -/

/-- A property of label lists that setting and dropping labels keep. -/
structure Stable (p : List Label → Prop) : Prop where
  setLabel : ∀ {labels}, p labels → ∀ name value, p (setLabel labels name value)
  filter : ∀ {labels}, p labels → ∀ q : Label → Bool, p (labels.filter q)

theorem stable_valuesSet : Stable ValuesSet :=
  ⟨fun h => h.setLabel, fun h _ l hl => h l (List.mem_filter.mp hl).1⟩

theorem stable_namesDistinct : Stable NamesDistinct := ⟨fun h => h.setLabel, fun h => h.filter⟩

variable {lib} {p : List Label → Prop} {cfg : RelabelConfig} {labels : List Label}

theorem Stable.applyReplace (hp : Stable p) (h : p labels) : p (applyReplace cfg labels) := by
  rw [Relabel.applyReplace]
  split_ifs
  · exact hp.setLabel h _ _
  · exact hp.setLabel h _ _
  · exact h

theorem Stable.applyReplaceAll (hp : Stable p) (h : p labels) :
    p (applyReplaceAll lib cfg labels) := by
  rw [Relabel.applyReplaceAll]
  split
  · exact h
  · dsimp only
    split_ifs
    · exact hp.setLabel h _ _
    · exact h

/-- A loop that sets labels keeps the property. -/
theorem Stable.labelmap (hp : Stable p) (h : p labels) : p (applyLabelmap cfg labels) := by
  rw [applyLabelmap]
  refine List.foldlRecOn labels _ h fun out hout label _ => ?_
  dsimp only
  split_ifs
  · exact hp.setLabel hout _ _
  · exact hout
  · exact hout

theorem Stable.applyHashmod (hp : Stable p) (h : p labels) : p (applyHashmod lib cfg labels) := by
  rw [Relabel.applyHashmod]
  split_ifs
  · exact h
  · exact hp.setLabel h _ _

theorem Stable.applyGraphite (hp : Stable p) (h : p labels) : p (applyGraphite cfg labels) := by
  rw [Relabel.applyGraphite]
  split
  · exact h
  · split
    · exact h
    · exact List.foldlRecOn _ _ h fun out hout kv _ => hp.setLabel hout _ _

/-- **One rule.** Only `labelmap_all` writes a label in another way than `setLabel`. -/
theorem Stable.applyOne (hp : Stable p) (h : p labels)
    (hrename : cfg.action = .labelmapAll → p (applyLabelmapAll lib cfg labels)) :
    p (applyOne lib cfg labels).2 := by
  rw [Relabel.applyOne]
  cases haction : cfg.action with
  | replace => exact hp.applyReplace h
  | replaceAll => exact hp.applyReplaceAll h
  | labelmap => exact hp.labelmap h
  | labelmapAll => exact hrename haction
  | labeldrop => exact hp.filter h _
  | labelkeep => exact hp.filter h _
  | hashmod => exact hp.applyHashmod h
  | lowercase => exact hp.setLabel h _ _
  | uppercase => exact hp.setLabel h _ _
  | graphite => exact hp.applyGraphite h
  | keep => exact h
  | drop => exact h
  | keepEqual => exact h
  | dropEqual => exact h
  | keepIfEqual => exact h
  | dropIfEqual => exact h
  | keepIfContains => exact h
  | dropIfContains => exact h
  | keepMetrics => exact h
  | dropMetrics => exact h

/-- Renaming does not touch the values. -/
theorem ValuesSet.applyLabelmapAll (h : ValuesSet labels) :
    ValuesSet (applyLabelmapAll lib cfg labels) := by
  rw [Relabel.applyLabelmapAll]
  split
  · exact h
  · intro l hl
    obtain ⟨l', hl', rfl⟩ := List.mem_map.mp hl
    exact h l' hl'

/-! ### A run of rules -/

/-- The labels that a rule of the run meets: those after the rules before it. -/
def Meets (lib : Library) (cfgs : ParsedConfigs) (labels : List Label) (cfg : RelabelConfig)
    (met : List Label) : Prop :=
  ∃ before ifExpr after, cfgs = before ++ (cfg, ifExpr) :: after ∧
    apply lib before labels = (true, met) ∧ selected ifExpr met = true

/-- **A run of rules** keeps a property that each rule keeps of the labels it meets. -/
theorem apply_induction {cfgs : ParsedConfigs} {labels' : List Label} (h : p labels)
    (hstep : ∀ cfg met, Meets lib cfgs labels cfg met → p met → p (applyOne lib cfg met).2)
    (happly : apply lib cfgs labels = (true, labels')) : p labels' := by
  induction cfgs generalizing labels with
  | nil =>
    obtain rfl := (Prod.mk.inj happly).2
    exact h
  | cons c cfgs ih =>
    obtain ⟨cfg, ifExpr⟩ := c
    rw [apply] at happly
    split_ifs at happly with hselected hkept hkeep
    · -- the rule is applied, so the ones after it meet what it leaves
      refine ih (hstep cfg labels ⟨[], ifExpr, cfgs, rfl, rfl, hselected⟩ h) ?_ happly
      rintro cfg' met ⟨before, ifExpr', after, rfl, hbefore, hselected'⟩ hmet
      refine hstep cfg' met ⟨(cfg, ifExpr) :: before, ifExpr', after, rfl, ?_, hselected'⟩ hmet
      rw [apply, if_pos hselected, if_pos hkept]
      exact hbefore
    · exact absurd (Prod.mk.inj happly).1 Bool.false_ne_true
    · exact absurd (Prod.mk.inj happly).1 Bool.false_ne_true
    · refine ih h ?_ happly
      rintro cfg' met ⟨before, ifExpr', after, rfl, hbefore, hselected'⟩ hmet
      refine hstep cfg' met ⟨(cfg, ifExpr) :: before, ifExpr', after, rfl, ?_, hselected'⟩ hmet
      rw [apply, if_neg hselected, if_neg hkeep]
      exact hbefore

/-- No rule `labelmap_all` maps two names that it meets to one. -/
def RenamesApart (lib : Library) (cfgs : ParsedConfigs) (labels : List Label) : Prop :=
  ∀ cfg met, Meets lib cfgs labels cfg met → cfg.action = .labelmapAll →
    NamesDistinct (applyLabelmapAll lib cfg met)

/-- **Relabeling keeps label lists well formed.** From distinct names and values that are set, the
rules get values that are set; and distinct names, if no rule `labelmap_all` maps two names to
one. -/
theorem wellFormed_apply {cfgs : ParsedConfigs} {labels' : List Label}
    (hnames : NamesDistinct labels)
    (hvalues : ValuesSet labels) (happly : apply lib cfgs labels = (true, labels')) :
    ValuesSet labels' ∧ (RenamesApart lib cfgs labels → NamesDistinct labels') := by
  refine ⟨apply_induction hvalues (fun cfg met _ h => ?_) happly, fun hapart =>
    apply_induction hnames (fun cfg met hmet h => ?_) happly⟩
  · exact stable_valuesSet.applyOne h fun _ => h.applyLabelmapAll
  · exact stable_namesDistinct.applyOne h (hapart cfg met hmet)

/-- A library whose regexps match the letter `b`, for two patterns. -/
def letterLibrary : Library where
  newRegex pattern :=
    if pattern = ascii "b" then
      .ok ⟨fun s => 98 ∈ s, fun s rep => s.flatMap fun c => if c = 98 then rep else [c]⟩
    else if pattern = ascii "^(?:b)$" then
      .ok ⟨fun s => s = ascii "b", fun s rep => if s = ascii "b" then rep else s⟩
    else .error (ascii "unsupported")
  xxh64 _ := 0
  toLowercase s := s
  toUppercase s := s
  parseSelector _ := .error (ascii "unsupported")

/-- A rule that replaces the letter `b` in every name. -/
def renameLetter (replacement : Bytes) : RelabelConfig where
  sourceLabels := []
  separator := ascii ";"
  targetLabel := []
  regex := ⟨⟨fun s => s = ascii "b", fun s rep => if s = ascii "b" then rep else s⟩, ascii "b"⟩
  modulus := 0
  replacement := replacement
  action := .labelmapAll
  ifExpr := none
  graphiteMatch := none
  graphiteLabels := ∅

/-- Two labels with distinct names. -/
def twoLabels : List Label := [⟨ascii "a", ascii "1"⟩, ⟨ascii "b", ascii "2"⟩]

theorem wellFormed_apply_twoLabels :
    ValuesSet [⟨ascii "a", ascii "1"⟩, ⟨ascii "c", ascii "2"⟩] ∧
      NamesDistinct [⟨ascii "a", ascii "1"⟩, ⟨ascii "c", ascii "2"⟩] := by
  have hnames : NamesDistinct twoLabels := show (twoLabels.map Label.name).Nodup by decide
  have hvalues : ValuesSet twoLabels := show ∀ l ∈ twoLabels, l.value ≠ [] by decide
  have happly : apply letterLibrary [(renameLetter (ascii "c"), none)] twoLabels =
      (true, [⟨ascii "a", ascii "1"⟩, ⟨ascii "c", ascii "2"⟩]) := by decide +kernel
  have hapart : RenamesApart letterLibrary [(renameLetter (ascii "c"), none)] twoLabels := by
    rintro cfg met ⟨before, ifExpr, after, heq, hbefore, -⟩ -
    cases before with
    | nil =>
      obtain ⟨⟨rfl, -⟩, -⟩ : (renameLetter (ascii "c") = cfg ∧ none = ifExpr) ∧ after = [] := by
        simpa using heq
      cases hbefore
      exact show ((applyLabelmapAll letterLibrary _ twoLabels).map Label.name).Nodup by
        decide +kernel
    | cons x before => simp at heq
  obtain ⟨hset, hdistinct⟩ := wellFormed_apply hnames hvalues happly
  exact ⟨hset, hdistinct hapart⟩

/-- A valid rule that maps two names to one. -/
theorem labelmapAll_clash : ∃ cfgs,
    fromRawConfigs letterLibrary [renameLetter (ascii "a")] = .ok cfgs ∧ NamesDistinct twoLabels ∧
      ValuesSet twoLabels ∧ ∃ labels', apply letterLibrary cfgs twoLabels = (true, labels') ∧
        ¬ NamesDistinct labels' := by
  refine ⟨[(renameLetter (ascii "a"), none)], rfl, ?_, ?_,
    [⟨ascii "a", ascii "1"⟩, ⟨ascii "a", ascii "2"⟩], by decide +kernel, ?_⟩
  · exact (show (twoLabels.map Label.name).Nodup by decide)
  · exact (show ∀ l ∈ twoLabels, l.value ≠ [] by decide)
  · exact (show ¬ [ascii "a", ascii "a"].Nodup by decide)

end Esmetrics.Relabel
