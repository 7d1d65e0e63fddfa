import Esmetrics.Lib.StableSort
import Esmetrics.Storage.MetricName

/-!
# Canonical metric names

Model of `MetricName::sort_tags` and `MetricName::marshal_canonical` in
`esm-storage/src/metric_name.rs`. The tags are put in order by a stable sort on a *sentinel*
key, which several tag keys can share (`job` and `Job`, and any key that happens to be the
sentinel bytes themselves), and duplicates are removed between neighbours only.

Order-independence of the canonical form and uniqueness of its keys are therefore questions
about the classes of keys with one sentinel, and the library results on `sortByKey` and
`lastOfRuns` settle them exactly: the canonical form forgets the order of the tags up to the
order within each class, and it keeps one tag per key exactly when no class interleaves.
-/

namespace Esmetrics

open List

/-! ### Canonical order -/

/-- The sentinels of the well-known job-like keys (`\x00\x00…`) and instance-like keys
(`\x00\x01…`). -/
def commonTagKeys : List (List Bytes × Bytes) := [
  -- job-like tags
  ([ascii "namespace", ascii "Namespace"], [0x00, 0x00, 0x00]),
  ([ascii "ns", ascii "Ns"], [0x00, 0x00, 0x01]),
  ([ascii "datacenter", ascii "Datacenter"], [0x00, 0x00, 0x08]),
  ([ascii "dc", ascii "Dc"], [0x00, 0x00, 0x09]),
  ([ascii "environment", ascii "Environment"], [0x00, 0x00, 0x0c]),
  ([ascii "env", ascii "Env"], [0x00, 0x00, 0x0d]),
  ([ascii "cluster", ascii "Cluster"], [0x00, 0x00, 0x10]),
  ([ascii "service", ascii "Service"], [0x00, 0x00, 0x18]),
  ([ascii "job", ascii "Job"], [0x00, 0x00, 0x20]),
  ([ascii "model", ascii "Model"], [0x00, 0x00, 0x28]),
  ([ascii "type", ascii "Type"], [0x00, 0x00, 0x30]),
  ([ascii "sensor_type", ascii "Sensor_type", ascii "SensorType"], [0x00, 0x00, 0x38]),
  ([ascii "db", ascii "Db"], [0x00, 0x00, 0x40]),
  -- instance-like tags
  ([ascii "instance", ascii "Instance"], [0x00, 0x01, 0x00]),
  ([ascii "host", ascii "Host"], [0x00, 0x01, 0x08]),
  ([ascii "server", ascii "Server"], [0x00, 0x01, 0x10]),
  ([ascii "pod", ascii "Pod"], [0x00, 0x01, 0x18]),
  ([ascii "node", ascii "Node"], [0x00, 0x01, 0x20]),
  ([ascii "device", ascii "Device"], [0x00, 0x01, 0x28]),
  ([ascii "tenant", ascii "Tenant"], [0x00, 0x01, 0x30]),
  ([ascii "client", ascii "Client"], [0x00, 0x01, 0x38]),
  ([ascii "name", ascii "Name"], [0x00, 0x01, 0x40]),
  ([ascii "measurement", ascii "Measurement"], [0x00, 0x01, 0x48])]

/-- The sentinel of a well-known tag key. -/
def commonTagKey (key : Bytes) : Option Bytes :=
  (commonTagKeys.find? fun entry => entry.1.contains key).map Prod.snd

/-- The key a tag is sorted by: its sentinel, or its own key. -/
def normalizeTagKey (key : Bytes) : Bytes := (commonTagKey key).getD key

/-- The key of a tag in canonical order. -/
def Tag.sortKey (tag : Tag) : Bytes := normalizeTagKey tag.key

/-- One step of the compaction loop of `sortTags`: a tag overwrites the previous one of the
same key. -/
def pushTag (result : List Tag) (tag : Tag) : List Tag :=
  match result.getLast? with
  | some last => if last.key = tag.key then result.dropLast ++ [tag] else result ++ [tag]
  | none => result ++ [tag]

namespace MetricName

/-- Sorts the tags to canonical form and removes duplicates between neighbours. -/
def sortTags (mn : MetricName) : MetricName :=
  if mn.tags.isEmpty then mn
  else
    -- `sort_by` on the sentinels is stable
    { mn with tags := (sortByKey Tag.sortKey mn.tags).foldl pushTag [] }

/-- Sorts the tags and appends the canonical marshaled form to `dst`. -/
def marshalCanonical (mn : MetricName) (dst : Bytes) : Bytes := mn.sortTags.marshal dst

end MetricName

/-! ### The canonical tag list -/

/-- The compaction loop keeps the last tag of every run of equal keys. -/
theorem foldl_pushTag (tags : List Tag) : tags.foldl pushTag [] = lastOfRuns Tag.key tags := by
  have hgo : ∀ (tags r : List Tag) (a : Tag),
      tags.foldl pushTag (r ++ [a]) = r ++ lastOfRuns Tag.key (a :: tags) := by
    intro tags
    induction tags with
    | nil => simp [lastOfRuns]
    | cons b tags ih =>
      intro r a
      rw [foldl_cons, pushTag, getLast?_concat, lastOfRuns]
      dsimp only
      split_ifs with hab
      · rw [dropLast_concat, ih]
      · rw [ih, append_assoc]
        rfl
  cases tags with
  | nil => rfl
  | cons a tags => exact hgo tags [] a

namespace MetricName

theorem sortTags_metricGroup (mn : MetricName) : mn.sortTags.metricGroup = mn.metricGroup := by
  unfold sortTags
  split <;> rfl

theorem sortTags_tags (mn : MetricName) :
    mn.sortTags.tags =
      lastOfRuns Tag.key (sortByKey Tag.sortKey mn.tags) := by
  unfold sortTags
  split
  · next h =>
    rw [List.isEmpty_iff.mp h]
    rfl
  · exact foldl_pushTag _

end MetricName

/-- Tags of one key are tags of one sentinel. -/
private theorem filter_key_eq_filter_filter (tags : List Tag) (k : Bytes) :
    (tags.filter fun tag => tag.key = k) =
      (tags.filter fun tag => tag.sortKey = normalizeTagKey k).filter
        fun tag => tag.key = k := by
  rw [filter_filter]
  refine filter_congr fun tag _ => ?_
  by_cases h : tag.key = k <;> simp [Tag.sortKey, h]

/-- Sorting keeps the order of the tags of one key. -/
theorem filter_key_sortByKey (tags : List Tag) (k : Bytes) :
    ((sortByKey Tag.sortKey tags).filter fun tag => tag.key = k) =
      tags.filter fun tag => tag.key = k := by
  rw [filter_key_eq_filter_filter, filter_sortByKey, ← filter_key_eq_filter_filter]

/-- In the sorted list the tags of one key are contiguous exactly when, in the given order, no
tag of another key with the same sentinel stands between two of them. -/
theorem contiguous_sortByKey_iff (tags : List Tag) :
    Contiguous Tag.key (sortByKey Tag.sortKey tags) ↔
      ∀ a b c : Tag, [a, b, c] <+ tags → a.key = c.key →
        b.sortKey = a.sortKey → b.key = a.key := by
  set sorted := sortByKey Tag.sortKey tags with hsorted
  have hkey : ∀ {a c : Tag}, a.key = c.key → c.sortKey = a.sortKey := fun h => by
    rw [Tag.sortKey, Tag.sortKey, h]
  constructor
  · intro h a b c hsub hac hba
    have hclass : [a, b, c] <+
        sorted.filter fun tag => tag.sortKey = a.sortKey := by
      rw [hsorted, filter_sortByKey]
      simpa [hba, hkey hac] using hsub.filter fun tag => tag.sortKey = a.sortKey
    exact h a b c (hclass.trans filter_sublist) hac
  · intro h a b c hsub hac
    -- `b` lies between two tags of one sentinel, so it has that sentinel
    have hpair := (pairwise_sortByKey Tag.sortKey tags).sublist hsub
    simp only [pairwise_cons, mem_cons, not_mem_nil, or_false, forall_eq_or_imp,
      forall_eq] at hpair
    have hba : b.sortKey = a.sortKey :=
      le_antisymm (hkey hac ▸ hpair.2.1) hpair.1.1
    have hclass := hsub.filter fun tag => tag.sortKey = a.sortKey
    rw [hsorted, filter_sortByKey] at hclass
    simp only [hba, hkey hac, decide_true, filter_cons_of_pos, filter_nil] at hclass
    exact h a b c (hclass.trans filter_sublist) hac hba

namespace MetricName

/-- The canonical form holds every key of the name exactly once, with the value of its last
occurrence, and no other key. -/
def CanonicalKeepsLast (mn : MetricName) : Prop :=
  ∃ tags, unmarshal (mn.marshalCanonical []) = .ok ⟨mn.metricGroup, tags⟩ ∧
    KeepsLast Tag.key mn.tags tags

/-- The canonical form has unique keys exactly when no tag of another key with the same
sentinel stands between two tags of one key. -/
theorem canonicalKeepsLast_iff (mn : MetricName) :
    mn.CanonicalKeepsLast ↔
      ∀ a b c : Tag, [a, b, c] <+ mn.tags → a.key = c.key →
        b.sortKey = a.sortKey → b.key = a.key := by
  have hread : unmarshal (mn.marshalCanonical []) = .ok ⟨mn.metricGroup, mn.sortTags.tags⟩ := by
    rw [marshalCanonical, unmarshal_marshal, ← sortTags_metricGroup mn]
  have hkeeps : mn.CanonicalKeepsLast ↔ KeepsLast Tag.key mn.tags mn.sortTags.tags := by
    constructor
    · rintro ⟨tags, htags, hkeep⟩
      rw [hread] at htags
      simp only [Except.ok.injEq, MetricName.mk.injEq, true_and] at htags
      exact htags ▸ hkeep
    · exact fun hkeep => ⟨_, hread, hkeep⟩
  rw [hkeeps, sortTags_tags, ← contiguous_sortByKey_iff, ← keepsLast_lastOfRuns_iff]
  refine forall_congr' fun k => ?_
  rw [filter_key_sortByKey]

/-- With pairwise distinct keys the canonical tags are the tags in sentinel order. -/
theorem sortTags_tags_of_nodup (mn : MetricName) (h : (mn.tags.map Tag.key).Nodup) :
    mn.sortTags.tags = sortByKey Tag.sortKey mn.tags := by
  rw [sortTags_tags, lastOfRuns_eq_self]
  exact (((sortByKey_perm Tag.sortKey mn.tags).map
    Tag.key).nodup_iff).mpr h

/-- Two names with the same group and pairwise distinct keys have the same canonical form
exactly when their tags agree, in order, on every sentinel class. -/
theorem marshalCanonical_eq_iff {group dst : Bytes} {tags₁ tags₂ : List Tag}
    (h₁ : (tags₁.map Tag.key).Nodup) (h₂ : (tags₂.map Tag.key).Nodup) :
    marshalCanonical ⟨group, tags₁⟩ dst = marshalCanonical ⟨group, tags₂⟩ dst ↔
      ∀ k, (tags₁.filter fun tag => tag.sortKey = k) =
        tags₂.filter fun tag => tag.sortKey = k := by
  have hdst : ∀ mn : MetricName, mn.marshal dst = dst ++ mn.marshal [] := fun mn => by
    rw [marshal_eq, marshal_eq]
    simp
  have hsort : ∀ {tags : List Tag}, (tags.map Tag.key).Nodup →
      sortTags ⟨group, tags⟩ = ⟨group, sortByKey Tag.sortKey tags⟩ :=
    fun {tags} h => by
      rw [← sortTags_tags_of_nodup ⟨group, tags⟩ h]
      exact congrArg (MetricName.mk · _) (sortTags_metricGroup ⟨group, tags⟩)
  rw [← sortByKey_eq_iff, marshalCanonical, marshalCanonical, hdst, hdst,
    append_cancel_left_eq, hsort h₁, hsort h₂]
  constructor
  · intro h
    exact congrArg MetricName.tags (marshal_injective h)
  · intro h
    rw [h]

end MetricName

/-- **When canonical names identify label sets.** Permuting tags with pairwise distinct keys
leaves the canonical bytes unchanged exactly when the tags whose keys share a sentinel keep
their order; and the canonical form holds each key once, with its last value, exactly when no
tag of another key with the same sentinel stands between two tags of one key. -/
theorem marshalCanonical_identifies_iff (group dst : Bytes) (tags : List Tag) :
    (∀ tags' : List Tag, tags.Perm tags' → (tags.map Tag.key).Nodup →
      (MetricName.marshalCanonical ⟨group, tags⟩ dst =
          MetricName.marshalCanonical ⟨group, tags'⟩ dst ↔
        ∀ k, (tags.filter fun tag => tag.sortKey = k) =
          tags'.filter fun tag => tag.sortKey = k)) ∧
    (MetricName.CanonicalKeepsLast ⟨group, tags⟩ ↔
      ∀ a b c : Tag, [a, b, c] <+ tags → a.key = c.key → b.sortKey = a.sortKey →
        b.key = a.key) := by
  refine ⟨fun tags' hperm hnodup => ?_, MetricName.canonicalKeepsLast_iff ⟨group, tags⟩⟩
  exact MetricName.marshalCanonical_eq_iff hnodup (((hperm.map Tag.key).nodup_iff).mp hnodup)

/-- The tags `foo`, `bar` in both orders. -/
theorem marshalCanonical_identifies_foo_bar :
    MetricName.marshalCanonical ⟨[], [⟨ascii "foo", []⟩, ⟨ascii "bar", []⟩]⟩ [] =
      MetricName.marshalCanonical ⟨[], [⟨ascii "bar", []⟩, ⟨ascii "foo", []⟩]⟩ [] := by
  refine ((marshalCanonical_identifies_iff [] [] _).1 _ (Perm.swap _ _ _)
    (by decide)).mpr ?_
  intro k
  by_cases hfoo : ascii "foo" = k
  · subst hfoo
    decide
  · by_cases hbar : ascii "bar" = k
    · subst hbar
      decide
    · have hf : Tag.sortKey ⟨ascii "foo", []⟩ = ascii "foo" := by decide
      have hb : Tag.sortKey ⟨ascii "bar", []⟩ = ascii "bar" := by decide
      simp [hf, hb, hfoo, hbar]

/-- `job` and `Job` share a sentinel: their order shows in the canonical bytes, and a `Job`
between two `job` tags leaves both of them. -/
theorem marshalCanonical_job_Job :
    ([⟨ascii "job", ascii "a"⟩, ⟨ascii "Job", ascii "b"⟩] : List Tag).Perm
        [⟨ascii "Job", ascii "b"⟩, ⟨ascii "job", ascii "a"⟩] ∧
      (([⟨ascii "job", ascii "a"⟩, ⟨ascii "Job", ascii "b"⟩] : List Tag).map Tag.key).Nodup ∧
      MetricName.marshalCanonical
          ⟨ascii "m", [⟨ascii "job", ascii "a"⟩, ⟨ascii "Job", ascii "b"⟩]⟩ [] ≠
        MetricName.marshalCanonical
          ⟨ascii "m", [⟨ascii "Job", ascii "b"⟩, ⟨ascii "job", ascii "a"⟩]⟩ [] ∧
      ¬ MetricName.CanonicalKeepsLast
          ⟨ascii "m", [⟨ascii "job", ascii "a"⟩, ⟨ascii "Job", ascii "b"⟩,
            ⟨ascii "job", ascii "c"⟩]⟩ := by
  refine ⟨Perm.swap _ _ _, by decide, by decide, fun h => ?_⟩
  rw [MetricName.canonicalKeepsLast_iff] at h
  exact absurd (h _ _ _ (Sublist.refl _) rfl (by decide)) (by decide)

end Esmetrics
