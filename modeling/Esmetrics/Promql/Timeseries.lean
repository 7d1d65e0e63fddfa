import Esmetrics.Lib.BigEndian
import Esmetrics.Lib.Outcome
import Esmetrics.Lib.StableSort
import Esmetrics.Storage.MetricName

/-!
# Time series of a query

Model of the parts of `esm-promql/src/timeseries.rs` and `esm-storage/src/metric_name.rs` that group
series. The values of a series are on the grid of the query, which all series of a rollup share.
They are exact: a value is a rational number, or `none` for NaN.

The group key of a name is the sequence of its group and of the keys and values of its sorted tags,
each behind its length in two bytes. Names that fit these lengths have the same key only if they
have the same group and the same sorted tags (`groupKey_inj`).
-/

namespace Esmetrics

open List hiding Vector

/-- An exact value, or NaN. -/
abbrev Val : Type := Option ℚ

namespace Val

/-- The sum of two values. -/
def add (a b : Val) : Val := Option.map₂ (· + ·) a b

/-- The product of two values. -/
def mul (a b : Val) : Val := Option.map₂ (· * ·) a b

/-- A comparison with NaN is false. -/
def lt (a b : Val) : Bool :=
  match a, b with
  | some a, some b => a < b
  | _, _ => false

end Val

/-- A series with a value at each of the `n` points of the grid. -/
structure Timeseries (n : ℕ) where
  metricName : MetricName
  values : Vector Val n
deriving DecidableEq

/-- The series has a value. -/
def Timeseries.nonEmpty {n : ℕ} (ts : Timeseries n) : Bool := ts.values.any fun v => v.isSome

/-- Removes the series that are NaN everywhere. -/
def removeEmptySeries {n : ℕ} (tss : List (Timeseries n)) : List (Timeseries n) :=
  tss.filter Timeseries.nonEmpty

/-! ### Metric names -/

/-- The key under which a metric group is a tag. -/
def metricGroupTagKey : Bytes := ascii "__name__"

namespace MetricName

/-- Adds a tag. -/
def addTagBytes (mn : MetricName) (key value : Bytes) : MetricName :=
  if key = metricGroupTagKey then { mn with metricGroup := mn.metricGroup ++ value }
  else { mn with tags := mn.tags ++ [⟨key, value⟩] }

/-- Resets the metric group. -/
def resetMetricGroup (mn : MetricName) : MetricName := { mn with metricGroup := [] }

/-- Removes all the tags that are not in `onTags`. -/
def removeTagsOn (mn : MetricName) (onTags : List Bytes) : MetricName :=
  let mn := if metricGroupTagKey ∈ onTags then mn else mn.resetMetricGroup
  let tags := mn.tags
  let mn := { mn with tags := [] }
  if onTags = [] then mn
  else tags.foldl (fun mn tag => if tag.key ∈ onTags then mn.addTagBytes tag.key tag.value else mn)
    mn

/-- Removes all the tags that are in `ignoringTags`. -/
def removeTagsIgnoring (mn : MetricName) (ignoringTags : List Bytes) : MetricName :=
  if ignoringTags = [] then mn
  else
    let mn := if metricGroupTagKey ∈ ignoringTags then mn.resetMetricGroup else mn
    let tags := mn.tags
    let mn := { mn with tags := [] }
    tags.foldl
      (fun mn tag => if tag.key ∈ ignoringTags then mn else mn.addTagBytes tag.key tag.value) mn

/-- Sorts the tags by their keys; tags with one key stay in their order. -/
def sortMetricTags (mn : MetricName) : MetricName := { mn with tags := sortByKey Tag.key mn.tags }

end MetricName

/-- Appends a string behind its length. The length is cut to two bytes. -/
def marshalBytesFast (dst s : Bytes) : Bytes := dst ++ (beBytes 2 s.length).reverse ++ s

/-- Appends the group key of a name to `dst`; sorts the tags of the name. -/
def marshalMetricNameSorted (dst : Bytes) (mn : MetricName) : Bytes × MetricName :=
  let dst := marshalBytesFast dst mn.metricGroup
  let mn := mn.sortMetricTags
  (mn.tags.foldl (fun dst tag => marshalBytesFast (marshalBytesFast dst tag.key) tag.value) dst, mn)

/-- The group key of a name, and the name with sorted tags. -/
def metricNameGroupKey (mn : MetricName) : Bytes × MetricName := marshalMetricNameSorted [] mn

/-! ### Group modifiers -/

/-- The bytes of an ASCII string in lower case. -/
def toAsciiLowercase (s : Bytes) : Bytes := s.map fun b => if 65 ≤ b ∧ b ≤ 90 then b + 32 else b

/-- The text of ASCII bytes. -/
def asciiString (s : Bytes) : String := String.ofList (s.map fun b => Char.ofNat b.toNat)

/-- A modifier such as `by (…)`. -/
structure ModifierExpr where
  op : Bytes
  args : List Bytes
deriving DecidableEq, Repr

/-- Applies the modifier `by` or `without` of an aggregate function to a name. -/
def removeGroupTags (mn : MetricName) (modifier : ModifierExpr) : Outcome MetricName :=
  let groupOp := toAsciiLowercase modifier.op
  if groupOp = [] ∨ groupOp = ascii "by" then .ok (mn.removeTagsOn modifier.args)
  else if groupOp = ascii "without" then
    .ok (mn.removeTagsIgnoring modifier.args).resetMetricGroup
  else
    let op := asciiString groupOp
    .panic s!"BUG: unknown group modifier: \"{op}\""

/-- The modifier is one that aggregate functions have. -/
def ModifierExpr.IsGroupModifier (modifier : ModifierExpr) : Prop :=
  toAsciiLowercase modifier.op ∈ [[], ascii "by", ascii "without"]

instance (modifier : ModifierExpr) : Decidable modifier.IsGroupModifier :=
  inferInstanceAs (Decidable (_ ∈ _))

theorem exists_removeGroupTags {modifier : ModifierExpr} (h : modifier.IsGroupModifier)
    (mn : MetricName) : ∃ mn', removeGroupTags mn modifier = .ok mn' := by
  simp only [ModifierExpr.IsGroupModifier, mem_cons, not_mem_nil, or_false] at h
  rcases h with h | h | h
  · exact ⟨_, if_pos (.inl h)⟩
  · exact ⟨_, if_pos (.inr h)⟩
  · rw [removeGroupTags, h]
    exact ⟨_, (if_neg (by decide)).trans (if_pos rfl)⟩

/-! ### Group keys -/

/-- The string behind its length. -/
def lengthPrefixed (s : Bytes) : Bytes := (beBytes 2 s.length).reverse ++ s

/-- The group key of a name. -/
def MetricName.groupKey (mn : MetricName) : Bytes := (metricNameGroupKey mn).1

/-- The lengths in the group key are the true ones. -/
def MetricName.Fits (mn : MetricName) : Prop :=
  mn.metricGroup.length < 65536 ∧
    ∀ tag ∈ mn.tags, tag.key.length < 65536 ∧ tag.value.length < 65536

instance (mn : MetricName) : Decidable mn.Fits := inferInstanceAs (Decidable (_ ∧ _))

theorem MetricName.groupKey_eq (mn : MetricName) :
    mn.groupKey = lengthPrefixed mn.metricGroup ++
      (sortByKey Tag.key mn.tags).flatMap fun tag =>
        lengthPrefixed tag.key ++ lengthPrefixed tag.value := by
  have hfold : ∀ (tags : List Tag) (dst : Bytes),
      tags.foldl (fun dst tag => marshalBytesFast (marshalBytesFast dst tag.key) tag.value) dst =
        dst ++ tags.flatMap fun tag => lengthPrefixed tag.key ++ lengthPrefixed tag.value := by
    intro tags
    induction tags with
    | nil => simp
    | cons tag tags ih =>
      intro dst
      rw [foldl_cons, ih, flatMap_cons]
      simp only [marshalBytesFast, lengthPrefixed, append_assoc]
  rw [groupKey, metricNameGroupKey, marshalMetricNameSorted, hfold, marshalBytesFast, nil_append]
  rfl

/-- Sorting the tags keeps the group key. -/
@[simp]
theorem MetricName.groupKey_sortMetricTags (mn : MetricName) :
    mn.sortMetricTags.groupKey = mn.groupKey := by
  rw [groupKey_eq, groupKey_eq]
  simp only [sortMetricTags, sortByKey_eq_self Tag.key (pairwise_sortByKey Tag.key mn.tags)]

/-- A string that fits its length is read back. -/
theorem lengthPrefixed_append_inj {s s' r r' : Bytes} (hs : s.length < 65536)
    (hs' : s'.length < 65536) (h : lengthPrefixed s ++ r = lengthPrefixed s' ++ r') :
    s = s' ∧ r = r' := by
  rw [lengthPrefixed, lengthPrefixed, append_assoc, append_assoc] at h
  obtain ⟨hlen, hrest⟩ := append_inj h (by simp)
  have hnat := congrArg (fun bs => beNat bs.reverse) hlen
  simp only [reverse_reverse, beNat_beBytes] at hnat
  rw [Nat.mod_eq_of_lt (by simpa using hs), Nat.mod_eq_of_lt (by simpa using hs')] at hnat
  exact append_inj hrest hnat

theorem MetricName.Fits.sortMetricTags {mn : MetricName} (h : mn.Fits) : mn.sortMetricTags.Fits :=
  ⟨h.1, fun tag htag => h.2 tag ((sortByKey_perm Tag.key mn.tags).mem_iff.mp htag)⟩

/-- Names that fit and have the same group key are the same but for the order of their tags. -/
theorem MetricName.groupKey_inj {mn mn' : MetricName} (hfits : mn.Fits) (hfits' : mn'.Fits)
    (h : mn.groupKey = mn'.groupKey) : mn.sortMetricTags = mn'.sortMetricTags := by
  have htags : ∀ tags tags' : List Tag,
      (∀ tag ∈ tags, tag.key.length < 65536 ∧ tag.value.length < 65536) →
      (∀ tag ∈ tags', tag.key.length < 65536 ∧ tag.value.length < 65536) →
      (tags.flatMap fun tag => lengthPrefixed tag.key ++ lengthPrefixed tag.value) =
        (tags'.flatMap fun tag => lengthPrefixed tag.key ++ lengthPrefixed tag.value) →
      tags = tags' := by
    intro tags
    induction tags with
    | nil =>
      intro tags' _ _ heq
      cases tags' with
      | nil => rfl
      | cons tag tags' => simp [lengthPrefixed, beBytes] at heq
    | cons tag tags ih =>
      intro tags' hmem hmem' heq
      cases tags' with
      | nil => simp [lengthPrefixed, beBytes] at heq
      | cons tag' tags' =>
        rw [flatMap_cons, flatMap_cons, append_assoc, append_assoc] at heq
        obtain ⟨hk, hv⟩ := hmem tag mem_cons_self
        obtain ⟨hk', hv'⟩ := hmem' tag' mem_cons_self
        obtain ⟨hkey, heq⟩ := lengthPrefixed_append_inj hk hk' heq
        obtain ⟨hvalue, heq⟩ := lengthPrefixed_append_inj hv hv' heq
        have htag : tag = tag' := by
          obtain ⟨k, v⟩ := tag
          obtain ⟨k', v'⟩ := tag'
          simp only at hkey hvalue
          rw [hkey, hvalue]
        rw [htag, ih tags' (fun t ht => hmem t (mem_cons_of_mem _ ht))
          (fun t ht => hmem' t (mem_cons_of_mem _ ht)) heq]
  rw [groupKey_eq, groupKey_eq] at h
  obtain ⟨hgroup, htagsEq⟩ := lengthPrefixed_append_inj hfits.1 hfits'.1 h
  have hsorted : sortByKey Tag.key mn.tags = sortByKey Tag.key mn'.tags :=
    htags _ _ hfits.sortMetricTags.2 hfits'.sortMetricTags.2 htagsEq
  rw [MetricName.sortMetricTags, MetricName.sortMetricTags, hgroup, hsorted]

end Esmetrics
