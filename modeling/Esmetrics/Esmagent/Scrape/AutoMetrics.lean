import Mathlib.Data.List.Lex
import Mathlib.Data.Multiset.AddSub
import Mathlib.Data.Prod.Lex
import Esmetrics.Common.Decimal
import Esmetrics.Lib.StableSort
import Esmetrics.Protoparser.FastFloat
import Esmetrics.Relabel.Label

/-!
# Metrics about a scrape

Model of `esmagent/src/scrape/autometrics.rs` and of the label merging of `scrapework.rs`: the
series that a scraper adds to every scrape, and the hash that identifies a series.

The labels of a metric of this kind are its name, merged with the labels of the target and the
external labels. A label of the target may rename the label of the name, so that it is not found by
its name; but it stays the first label, with the name of the metric as its value
(`autoLabels_eq_modify`). Two such metrics therefore have different label sets, whatever the labels
of the target are (`labelSet_autoLabels_inj`).

Durations are nanoseconds, and a label set is a multiset of labels.
-/

namespace Esmetrics.Esmagent.Scrape

open List

open Relabel (Label)
open Protoparser (Message)

/-! ### Series -/

/-- The value of a sample, as the source writes it: which `f64` a number is converted to does not
matter here, except that it is no `STALE_NAN`. -/
inductive Value
  | staleNan
  /-- `_ as f64`. -/
  | count (n : ℕ)
  /-- `_.as_secs_f64()`. -/
  | seconds (nanos : ℕ)
  /-- The value of a row of the target, by its bits. -/
  | row (bits : UInt64)
deriving DecidableEq

def Value.isStaleNan : Value → Bool
  | staleNan => true
  | row bits => bits == staleNanBits
  | _ => false

structure Sample where
  value : Value
  timestamp : Int64
deriving DecidableEq

structure OwnedSeries where
  labels : List Label
  samples : List Sample
deriving DecidableEq

/-- The identity of a series: its labels, in no order. -/
abbrev LabelSet := Multiset Label

/-- Label sets are the same when the labels are, up to their order. -/
def labelSet (labels : List Label) : LabelSet := labels

theorem labelSet_eq_iff {l l' : List Label} : labelSet l = labelSet l' ↔ l.Perm l' :=
  Multiset.coe_eq_coe

/-- What `Scraper` needs of the configuration of its target. -/
structure ScrapeConfigResolved where
  honorLabels : Bool
  externalLabels : List Label
  targetLabels : List Label
  /-- Zero means unlimited. -/
  sampleLimit : ℕ
  /-- Zero means unlimited. -/
  labelLimit : ℕ
  scrapeTimeout : ℕ

/-- The result of one call of `scrape`. -/
structure ScrapeResult where
  series : List OwnedSeries
  up : Bool
  samplesScraped : ℕ
  samplesPostRelabel : ℕ
  duration : ℕ
  error : Option Message
  responseSize : ℕ

/-! ### Merging labels -/

def exported (name : Bytes) : Bytes := ascii "exported_" ++ name

def setName (name : Bytes) (l : Label) : Label := { l with name }

/-- One round of the loop of `merge_extra_labels`; the first `window` labels were there before the
call. -/
def mergeExtraLabel (honorLabels : Bool) (window : ℕ) (labels : List Label) (extra : Label) :
    List Label :=
  match (labels.take window).findIdx? fun l => l.name = extra.name with
  | none => labels ++ [extra]
  | some pos =>
    if honorLabels then labels
    else
      let exportedName := exported extra.name
      let renamed := match (labels.take window).findIdx? fun l => l.name = exportedName with
        | some dup => labels.modify dup (setName (exported exportedName))
        | none => labels
      renamed.modify pos (setName exportedName) ++ [extra]

def mergeExtraLabels (labels extra : List Label) (honorLabels : Bool) : List Label :=
  extra.foldl (mergeExtraLabel honorLabels labels.length) labels

def metricName : Bytes := ascii "__name__"

/-- The condition under which `finalize_labels` retains a label. -/
def isFinal (l : Label) : Bool := !(ascii "__").isPrefixOf l.name || l.name == metricName

def finalizeLabels (labels : List Label) : List Label := labels.filter isFinal

/-! ### The metrics -/

/-- The labels of `build_auto_series`. -/
def autoLabels (cfg : ScrapeConfigResolved) (name : Bytes) : List Label :=
  mergeExtraLabels
    (finalizeLabels (mergeExtraLabels [⟨metricName, name⟩] cfg.targetLabels cfg.honorLabels))
    cfg.externalLabels cfg.honorLabels

def buildAutoSeries (name : Bytes) (value : Value) (cfg : ScrapeConfigResolved)
    (scrapeTimestampMs : Int64) : OwnedSeries :=
  ⟨autoLabels cfg name, [⟨value, scrapeTimestampMs⟩]⟩

/-- The names and values of the metrics, in the order in which they are appended. -/
def autoEntries (result : ScrapeResult) (cfg : ScrapeConfigResolved) (seriesAdded : ℕ) :
    List (Bytes × Value) :=
  [(ascii "scrape_duration_seconds", .seconds result.duration),
    (ascii "scrape_response_size_bytes", .count result.responseSize)] ++
  (if cfg.sampleLimit > 0 then [(ascii "scrape_samples_limit", .count cfg.sampleLimit)] else []) ++
  [(ascii "scrape_samples_post_metric_relabeling", .count result.samplesPostRelabel),
    (ascii "scrape_samples_scraped", .count result.samplesScraped),
    (ascii "scrape_series_added", .count seriesAdded)] ++
  (if cfg.labelLimit > 0 then [(ascii "scrape_labels_limit", .count cfg.labelLimit)] else []) ++
  [(ascii "scrape_timeout_seconds", .seconds cfg.scrapeTimeout),
    (ascii "up", .count (if result.up then 1 else 0))]

def appendAutoMetrics (result : ScrapeResult) (cfg : ScrapeConfigResolved) (seriesAdded : ℕ)
    (scrapeTimestampMs : Int64) : ScrapeResult :=
  { result with
    series := result.series ++ (autoEntries result cfg seriesAdded).map fun e =>
      buildAutoSeries e.1 e.2 cfg scrapeTimestampMs }

/-! ### The labels of a metric -/

def setValue (value : Bytes) (l : Label) : Label := { l with value }

section Labels

variable {labels : List Label} {honorLabels : Bool} {window : ℕ} {extra : Label} {v n : Bytes}

/-- Looking for a name does not see the values. -/
theorem findIdx?_name_modify (i : ℕ) :
    (((labels.modify i (setValue v)).take window).findIdx? fun l => l.name = n) =
      (labels.take window).findIdx? fun l => l.name = n := by
  have hnames : (labels.modify i (setValue v)).map Label.name = labels.map Label.name := by
    refine ext_getElem? fun j => ?_
    rw [getElem?_map, getElem?_map, getElem?_modify]
    split_ifs <;> cases labels[j]? <;> rfl
  have hfind : ∀ l : List Label, (l.findIdx? fun l => l.name = n) =
      (l.map Label.name).findIdx? (· = n) := fun l => by
    rw [findIdx?_map]
    rfl
  rw [hfind, hfind, map_take, map_take, hnames]

/-- Setting a name and setting a value commute. -/
theorem modify_setValue_setName (i j : ℕ) :
    (labels.modify i (setValue v)).modify j (setName n) =
      (labels.modify j (setName n)).modify i (setValue v) := by
  refine ext_getElem? fun k => ?_
  simp only [getElem?_modify]
  split_ifs <;> cases labels[k]? <;> rfl

/-- Merging a label does not see the value of the first label, and keeps it the first. -/
theorem mergeExtraLabel_modify (hne : labels ≠ []) :
    mergeExtraLabel honorLabels window (labels.modify 0 (setValue v)) extra =
      (mergeExtraLabel honorLabels window labels extra).modify 0 (setValue v) := by
  have happend : ∀ l : List Label, l ≠ [] → l.modify 0 (setValue v) ++ [extra] =
      (l ++ [extra]).modify 0 (setValue v) := fun l hl => by
    cases l with
    | nil => exact absurd rfl hl
    | cons a l => rfl
  have hmodify : ∀ {l : List Label} (i : ℕ) (f : Label → Label), l ≠ [] → l.modify i f ≠ [] :=
    fun i f hl h => hl (length_eq_zero_iff.mp (by simpa using congrArg List.length h))
  rw [mergeExtraLabel, mergeExtraLabel, findIdx?_name_modify]
  cases (labels.take window).findIdx? fun l => l.name = extra.name with
  | none => exact happend labels hne
  | some pos =>
    cases honorLabels with
    | true => rfl
    | false =>
      simp only [Bool.false_eq_true, if_false, findIdx?_name_modify]
      cases (labels.take window).findIdx? fun l => l.name = exported extra.name with
      | none => rw [modify_setValue_setName, happend _ (hmodify _ _ hne)]
      | some dup =>
        simp only
        rw [modify_setValue_setName, modify_setValue_setName,
          happend _ (hmodify _ _ (hmodify _ _ hne))]

/-- The first label is there and survives `finalize_labels`. -/
def HeadFinal (labels : List Label) : Prop := ∃ l ∈ labels.head?, isFinal l

theorem HeadFinal.ne_nil (h : HeadFinal labels) : labels ≠ [] := by
  rintro rfl
  obtain ⟨l, hl, -⟩ := h
  exact nomatch hl

theorem isFinal_exported (l : Label) : isFinal (setName (exported n) l) := by
  rfl

theorem HeadFinal.modify (h : HeadFinal labels) (i : ℕ) :
    HeadFinal (labels.modify i (setName (exported n))) := by
  obtain ⟨l, hl, hfinal⟩ := h
  rw [head?_eq_getElem?, Option.mem_def] at hl
  rw [HeadFinal, head?_eq_getElem?, getElem?_modify, hl]
  split_ifs
  · exact ⟨_, rfl, isFinal_exported l⟩
  · exact ⟨l, rfl, hfinal⟩

theorem HeadFinal.append (h : HeadFinal labels) (l : List Label) : HeadFinal (labels ++ l) := by
  obtain ⟨a, ha, hfinal⟩ := h
  exact ⟨a, by rw [head?_append, Option.mem_def.mp ha]; rfl, hfinal⟩

/-- A renamed label is no internal one. -/
theorem HeadFinal.mergeExtraLabel (h : HeadFinal labels) (extra : Label) :
    HeadFinal (mergeExtraLabel honorLabels window labels extra) := by
  rw [Scrape.mergeExtraLabel]
  split
  · exact h.append _
  · split_ifs
    · exact h
    · refine .append (.modify ?_ _) _
      split
      · exact h.modify _
      · exact h

/-- Merging labels does not see the value of the first label, which stays the first. -/
theorem mergeExtraLabels_modify (honorLabels : Bool) (h : HeadFinal labels) (extra : List Label)
    (v : Bytes) : HeadFinal (mergeExtraLabels labels extra honorLabels) ∧
      mergeExtraLabels (labels.modify 0 (setValue v)) extra honorLabels =
        (mergeExtraLabels labels extra honorLabels).modify 0 (setValue v) := by
  rw [mergeExtraLabels, mergeExtraLabels, length_modify]
  generalize labels.length = window
  induction extra generalizing labels with
  | nil => exact ⟨h, rfl⟩
  | cons e extra ih =>
    rw [foldl_cons, foldl_cons, mergeExtraLabel_modify h.ne_nil]
    exact ih (h.mergeExtraLabel e)

/-- So does the removal of the internal labels. -/
theorem finalizeLabels_modify (h : HeadFinal labels) (v : Bytes) :
    HeadFinal (finalizeLabels labels) ∧
      finalizeLabels (labels.modify 0 (setValue v)) = (finalizeLabels labels).modify 0
      (setValue v) := by
  obtain ⟨l, hl, hfinal⟩ := h
  obtain ⟨rest, rfl⟩ := head?_eq_some_iff.mp hl
  have hset : isFinal (setValue v l) := hfinal
  rw [modify_zero_cons, finalizeLabels, finalizeLabels, filter_cons_of_pos hfinal,
    filter_cons_of_pos hset]
  exact ⟨⟨l, rfl, hfinal⟩, rfl⟩

end Labels

/-- **The labels of a metric**: those of a metric without a name, with the name as the value of the
first label. -/
theorem autoLabels_eq_modify (cfg : ScrapeConfigResolved) (name : Bytes) :
    autoLabels cfg [] ≠ [] ∧ autoLabels cfg name = (autoLabels cfg []).modify 0
    (setValue name) := by
  have hstart : HeadFinal [⟨metricName, []⟩] := ⟨_, rfl, by decide⟩
  obtain ⟨hmerged, htarget⟩ := mergeExtraLabels_modify cfg.honorLabels hstart cfg.targetLabels name
  obtain ⟨hfinal, hfinalize⟩ := finalizeLabels_modify hmerged name
  obtain ⟨hall, hexternal⟩ := mergeExtraLabels_modify cfg.honorLabels hfinal cfg.externalLabels name
  refine ⟨hall.ne_nil, ?_⟩
  rw [autoLabels, autoLabels, ← hexternal, ← hfinalize, ← htarget]
  rfl

/-- **Metrics of different names have different label sets.** -/
theorem labelSet_autoLabels_inj {cfg : ScrapeConfigResolved} {name name' : Bytes}
    (h : labelSet (autoLabels cfg name) = labelSet (autoLabels cfg name')) : name = name' := by
  obtain ⟨hne, hname⟩ := autoLabels_eq_modify cfg name
  obtain ⟨-, hname'⟩ := autoLabels_eq_modify cfg name'
  rw [hname, hname'] at h
  cases hl : autoLabels cfg [] with
  | nil => exact absurd hl hne
  | cons l rest =>
    rw [hl, modify_zero_cons, modify_zero_cons, labelSet, labelSet, ← Multiset.cons_coe,
      ← Multiset.cons_coe, Multiset.cons_inj_left] at h
    exact congrArg Label.value h

/-- The names of the metrics. -/
def autoNames (cfg : ScrapeConfigResolved) : List Bytes :=
  [ascii "scrape_duration_seconds", ascii "scrape_response_size_bytes"] ++
  (if cfg.sampleLimit > 0 then [ascii "scrape_samples_limit"] else []) ++
  [ascii "scrape_samples_post_metric_relabeling", ascii "scrape_samples_scraped",
    ascii "scrape_series_added"] ++
  (if cfg.labelLimit > 0 then [ascii "scrape_labels_limit"] else []) ++
  [ascii "scrape_timeout_seconds", ascii "up"]

theorem map_fst_autoEntries (result : ScrapeResult) (cfg : ScrapeConfigResolved) (seriesAdded : ℕ) :
    (autoEntries result cfg seriesAdded).map Prod.fst = autoNames cfg := by
  rw [autoEntries, autoNames]
  split_ifs <;> rfl

/-- The label sets of the metrics. -/
def autoLabelSets (cfg : ScrapeConfigResolved) : List LabelSet :=
  (autoNames cfg).map fun name => labelSet (autoLabels cfg name)

theorem nodup_autoLabelSets (cfg : ScrapeConfigResolved) : (autoLabelSets cfg).Nodup := by
  have hnames : (autoNames cfg).Nodup := by
    rw [autoNames]
    split_ifs <;> decide
  exact hnames.map fun _ _ => labelSet_autoLabels_inj

/-- No metric has a staleness mark. -/
theorem isStaleNan_of_mem_autoEntries {result : ScrapeResult} {cfg : ScrapeConfigResolved}
    {seriesAdded : ℕ} {e : Bytes × Value} (he : e ∈ autoEntries result cfg seriesAdded) :
    e.2.isStaleNan = false := by
  have hall : ∀ e ∈ autoEntries result cfg seriesAdded, e.2.isStaleNan = false := by
    rw [autoEntries]
    split_ifs <;> simp [Value.isStaleNan]
  exact hall e he

/-! ### The identity of a series -/

/-- The labels in the order of their names and values. -/
def sortLabels (labels : List Label) : List Label :=
  sortByKey (fun l => toLex (l.name, l.value)) labels

/-- The hash of a series, for a hash of the names and values in a row. -/
def seriesIdentityHash (hasher : List Label → UInt64) (series : OwnedSeries) : UInt64 :=
  hasher (sortLabels series.labels)

/-- The order of the labels does not matter. -/
theorem sortLabels_eq_of_perm {l l' : List Label} (h : l.Perm l') :
    sortLabels l = sortLabels l' := by
  have hanti : ∀ a b : Label, toLex (a.name, a.value) ≤ toLex (b.name, b.value) →
      toLex (b.name, b.value) ≤ toLex (a.name, a.value) → a = b := by
    intro a b hab hba
    have hkey := congrArg ofLex (le_antisymm hab hba)
    obtain ⟨hname, hvalue⟩ := Prod.mk.injEq .. ▸ hkey
    exact Label.mk.injEq .. ▸ ⟨hname, hvalue⟩
  have hperm : (sortLabels l).Perm (sortLabels l') :=
    (sortByKey_perm _ l).trans (h.trans (sortByKey_perm _ l').symm)
  exact hperm.eq_of_pairwise (fun a b _ _ => hanti a b) (pairwise_sortByKey _ l)
    (pairwise_sortByKey _ l')

end Esmetrics.Esmagent.Scrape
