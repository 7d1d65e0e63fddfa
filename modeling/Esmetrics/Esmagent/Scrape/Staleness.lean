import Esmetrics.Esmagent.Scrape.ScrapeWork
import Esmetrics.Lib.EndMarks

/-!
# Staleness markers of scraped series

A staleness marker has to end the presence of a label set, once and in the first output that has no
live sample of it. Each label set sees the calls of a scraper as rounds: a failed scrape, or a
successful one with or without it. `View` is the scraper as one label set sees it, and
`sighting_scrape` shows that the output of a call has of a label set what its view says.

The markers of a failed scrape are not remembered: the series stay in the map, for the comparison
with the next successful scrape, and are marked again when that lacks them or when the target is
gone before. And a target may expose a series with the label set of a metric that the scraper adds
itself. The markers of a run are exact if and only if neither happens (`stalenessExact_iff`).
-/

namespace Esmetrics.Esmagent.Scrape

open List
open Prod (fst snd)

open Relabel (Label)

/-! ### Exact markers -/

/-- The samples of a label set in an output. -/
def samplesOf (X : LabelSet) (out : List OwnedSeries) : List Sample :=
  (out.filter fun s => labelSet s.labels = X).flatMap OwnedSeries.samples

/-- The live samples and the staleness markers of a label set in an output. -/
def sighting (X : LabelSet) (out : List OwnedSeries) : Sighting where
  live := (samplesOf X out).any fun x => !x.value.isStaleNan
  marks := (samplesOf X out).countP fun x => x.value.isStaleNan

/-- The staleness markers in the outputs of some calls are exact, for every label set. -/
def StalenessExact (outs : List (List OwnedSeries)) : Prop :=
  ∀ X, ExactMarks (outs.map (sighting X))

/-! ### The view of one label set -/

/-- The scraper as one label set sees it. -/
structure View where
  tracked : Bool
  lastOk : Bool

namespace View

/-- A round is `none` when the scrape fails, and else says whether the label set is in the
scrape. -/
def next (v : View) : Option Bool → View
  | none => ⟨v.tracked, false⟩
  | some present => ⟨present, true⟩

/-- What the output of a round has of the label set; `auto` is whether a metric about the scrape has
it. -/
def shown (auto : Bool) (v : View) : Option Bool → Sighting
  | none => ⟨auto, if v.tracked && v.lastOk then 1 else 0⟩
  | some present => ⟨present || auto, if v.tracked && !present then 1 else 0⟩

/-- What the output at the end has of the label set. -/
def gone (auto : Bool) (v : View) : Sighting := ⟨false, v.tracked.toNat + auto.toNat⟩

def trace (auto : Bool) (v : View) : List (Option Bool) → List Sighting
  | [] => [v.gone auto]
  | r :: rounds => v.shown auto r :: (v.next r).trace auto rounds

/-- A round is steady when the label set is that of no metric, and is not missing once more after it
was marked already. -/
def SteadyRound (auto : Bool) (v : View) (r : Option Bool) : Prop :=
  ∀ present ∈ r, (auto → present = false) ∧ (v.lastOk = false → v.tracked → present)

def Steady (auto : Bool) (v : View) : List (Option Bool) → Prop
  | [] => v.lastOk ∨ v.tracked = false
  | r :: rounds => v.SteadyRound auto r ∧ (v.next r).Steady auto rounds

/-- A label set that is not tracked is seen before it is marked. -/
theorem marksFollow_trace (lastOk : Bool) (rounds : List (Option Bool)) :
    MarksFollow (trace false ⟨false, lastOk⟩ rounds) := by
  induction rounds generalizing lastOk with
  | nil => exact marksFollow_singleton.mpr rfl
  | cons r rounds ih =>
    refine marksFollow_cons.mpr ?_
    match r with
    | none => exact ⟨rfl, .inr (ih false)⟩
    | some true => exact ⟨rfl, .inl rfl⟩
    | some false => exact ⟨rfl, .inr (ih true)⟩

/-- A label set that was in the last scrape is in the next one, or gets its marker. -/
theorem headMarked_trace (rounds : List (Option Bool)) :
    HeadMarked (trace false ⟨true, true⟩ rounds) := by
  match rounds with
  | [] => exact fun b hb _ => by obtain rfl := Option.some.inj hb; rfl
  | none :: _ => exact fun b hb _ => by obtain rfl := Option.some.inj hb; rfl
  | some false :: _ => exact fun b hb _ => by obtain rfl := Option.some.inj hb; rfl
  | some true :: _ =>
    exact fun b hb hnot => by obtain rfl := Option.some.inj hb; exact absurd rfl hnot

/-- The rounds of a label set that no metric has. A label set that is tracked after a failure has
been marked, so that it has to be seen before the next marker. -/
theorem exactMarks_trace_iff (v : View) (rounds : List (Option Bool)) :
    ExactMarks (v.trace false rounds) ∧ (v.tracked → v.lastOk = false →
      MarksFollow (v.trace false rounds)) ↔
      v.Steady false rounds := by
  induction rounds generalizing v with
  | nil =>
    obtain ⟨tracked, lastOk⟩ := v
    rw [trace, exactMarks_singleton, marksFollow_singleton]
    cases tracked <;> cases lastOk <;> simp [gone, Steady]
  | cons r rounds ih =>
    obtain ⟨tracked, lastOk⟩ := v
    have hfollow := fun lastOk => marksFollow_trace lastOk rounds
    have hhead := headMarked_trace rounds
    rw [trace, exactMarks_cons, marksFollow_cons, Steady, ← ih (next ⟨tracked, lastOk⟩ r)]
    -- a failure leaves what is tracked, and a success replaces it
    rcases r with _ | _ | _
    · cases tracked <;> cases lastOk <;> simp [shown, next, SteadyRound, hfollow]
      exact and_comm
    · cases tracked <;> cases lastOk <;> simp [shown, next, SteadyRound, hfollow]
    · cases tracked <;> cases lastOk <;> simp [shown, next, SteadyRound, hhead]

/-- A label set that a metric has too and that is tracked gets a marker besides a live sample, or a
second marker at the end. -/
theorem not_exactMarks_trace_auto (rounds : List (Option Bool)) :
    ¬ ExactMarks (trace true ⟨true, true⟩ rounds) := by
  induction rounds with
  | nil =>
    rw [trace, exactMarks_singleton]
    simp [gone]
  | cons r rounds ih =>
    rw [trace, exactMarks_cons]
    rcases r with _ | _ | _
    · simp [shown]
    · simp [shown]
    · exact fun h => ih h.2

/-- The rounds of a label set that a metric has. -/
theorem exactMarks_trace_auto_iff (lastOk : Bool) (rounds : List (Option Bool)) :
    ExactMarks (trace true ⟨false, lastOk⟩ rounds) ↔ Steady true ⟨false, lastOk⟩ rounds := by
  induction rounds generalizing lastOk with
  | nil =>
    rw [trace, exactMarks_singleton]
    simp [gone, Steady]
  | cons r rounds ih =>
    have hhead : ∀ lastOk, HeadMarked (trace true ⟨false, lastOk⟩ rounds) := fun lastOk => by
      match rounds with
      | [] => exact fun b hb _ => by obtain rfl := Option.some.inj hb; rfl
      | none :: _ =>
        exact fun b hb hnot => by obtain rfl := Option.some.inj hb; exact absurd rfl hnot
      | some present :: _ =>
        exact fun b hb hnot => by
          obtain rfl := Option.some.inj hb
          exact absurd (Bool.or_true present) hnot
    rw [trace, exactMarks_cons, Steady]
    rcases r with _ | _ | _
    · simp [shown, next, SteadyRound, hhead, ih]
    · simp [shown, next, SteadyRound, hhead, ih]
    · simp [next, SteadyRound, not_exactMarks_trace_auto]

/-- **The view of a label set**: its markers are exact if and only if its rounds are steady. -/
theorem exactMarks_iff (auto lastOk : Bool) (rounds : List (Option Bool)) :
    ExactMarks (trace auto ⟨false, lastOk⟩ rounds) ↔ Steady auto ⟨false, lastOk⟩ rounds := by
  cases auto with
  | false => rw [← exactMarks_trace_iff]; simp
  | true => exact exactMarks_trace_auto_iff lastOk rounds

end View

/-! ### The outputs of a scraper -/

section Samples

variable {X : LabelSet}

theorem sighting_append (out out' : List OwnedSeries) : sighting X (out ++ out') =
    ⟨(sighting X out).live || (sighting X out').live,
      (sighting X out).marks + (sighting X out').marks⟩ := by
  rw [sighting, samplesOf, filter_append, flatMap_append, any_append, countP_append]
  rfl

/-- Series of one sample each. -/
theorem sighting_map {α : Type} (labels : α → List Label) (sample : α → Sample) (l : List α) :
    sighting X (l.map fun a => ⟨labels a, [sample a]⟩) =
      ⟨l.any fun a => labelSet (labels a) = X && !(sample a).value.isStaleNan,
        l.countP fun a => labelSet (labels a) = X && (sample a).value.isStaleNan⟩ := by
  induction l with
  | nil => rfl
  | cons a l ih =>
    rw [map_cons, ← singleton_append, sighting_append, ih, any_cons, countP_cons]
    by_cases h : labelSet (labels a) = X
    · cases hs : (sample a).value.isStaleNan <;> simp [sighting, samplesOf, h, hs, Nat.add_comm]
    · simp [sighting, samplesOf, h]

/-- Staleness markers have nothing live. -/
theorem sighting_makeStaleSeries (l : List (List Label)) (ts : Int64) :
    sighting X (l.map fun labels => makeStaleSeries labels ts) =
      ⟨false, l.countP fun labels => labelSet labels = X⟩ := by
  refine (sighting_map (fun labels => labels) (fun _ => ⟨.staleNan, ts⟩) l).trans ?_
  simp [Value.isStaleNan]

/-- The series of rows have no markers. -/
theorem sighting_toOwned (l : List RowSeries) :
    sighting X (l.map RowSeries.toOwned) = ⟨l.any fun s => labelSet s.labels = X, 0⟩ := by
  have hbits : ∀ s : RowSeries, (s.bits == staleNanBits) = false :=
    fun s => by simpa using s.bits_ne
  refine (sighting_map RowSeries.labels (fun s => ⟨.row s.bits, s.timestamp⟩) l).trans ?_
  simp [Value.isStaleNan, hbits]

/-- The metrics about a scrape. -/
theorem sighting_appendAutoMetrics (result : ScrapeResult) (cfg : ScrapeConfigResolved)
    (seriesAdded : ℕ) (ts : Int64) :
    sighting X (appendAutoMetrics result cfg seriesAdded ts).series =
      ⟨(sighting X result.series).live || decide (X ∈ autoLabelSets cfg),
        (sighting X result.series).marks⟩ := by
  have hlive := @isStaleNan_of_mem_autoEntries result cfg seriesAdded
  have hauto : sighting X ((autoEntries result cfg seriesAdded).map fun e =>
      buildAutoSeries e.1 e.2 cfg ts) = ⟨decide (X ∈ autoLabelSets cfg), 0⟩ := by
    refine (sighting_map (fun e : Bytes × Value => autoLabels cfg e.1)
      (fun e => ⟨e.2, ts⟩) _).trans ?_
    refine congrArg₂ Sighting.mk ?_ ?_
    · rw [autoLabelSets, ← map_fst_autoEntries result cfg seriesAdded, map_map, Bool.eq_iff_iff,
        any_eq_true, decide_eq_true_iff, mem_map]
      refine exists_congr fun e => and_congr_right fun he => ?_
      simp [hlive he]
    · rw [countP_eq_zero]
      intro e he
      simp [hlive he]
  rw [appendAutoMetrics, sighting_append, hauto]
  rfl

/-- The markers of the metrics of a target that is gone: one for each, as their label sets are
distinct. -/
theorem sighting_autoOfGone (cfg : ScrapeConfigResolved) (ts : Int64) :
    sighting X ((Scraper.autoOfGone cfg ts).series.map fun series =>
      { series with samples := series.samples.map fun x => { x with value := .staleNan } }) =
      ⟨false, (decide (X ∈ autoLabelSets cfg)).toNat⟩ := by
  rw [Scraper.autoOfGone, appendAutoMetrics, nil_append, map_map]
  refine (sighting_map (fun e : Bytes × Value => autoLabels cfg e.1)
    (fun _ => ⟨.staleNan, ts⟩) _).trans ?_
  refine congrArg₂ Sighting.mk ?_ ?_
  · simp [Value.isStaleNan]
  · generalize hresult : (⟨[], false, 0, 0, 0, none, 0⟩ : ScrapeResult) = result
    have hcount : (autoEntries result cfg 0).countP (fun e => labelSet (autoLabels cfg e.1) = X) =
        (autoLabelSets cfg).count X := by
      rw [autoLabelSets, ← map_fst_autoEntries result cfg 0, map_map, count_eq_countP, countP_map]
      refine countP_congr fun e _ => ?_
      simp
    simp only [Value.isStaleNan, Bool.and_true, hcount]
    by_cases h : X ∈ autoLabelSets cfg
    · rw [count_eq_one_of_mem (nodup_autoLabelSets cfg) h, decide_eq_true h]
      rfl
    · rw [count_eq_zero.mpr h, decide_eq_false h]
      rfl

end Samples

/-! ### The map of the last series -/

/-- Different label sets among some label lists have different hashes. -/
def Separates (hasher : List Label → UInt64) (U : Set (List Label)) : Prop :=
  ∀ l ∈ U, ∀ l' ∈ U, hasher (sortLabels l) = hasher (sortLabels l') → labelSet l = labelSet l'

namespace SeriesMap

variable {hasher : List Label → UInt64} {U : Set (List Label)} {X : LabelSet}

/-- Whether a label set is in the map. -/
def has (m : SeriesMap hasher) (X : LabelSet) : Bool := m.values.any fun labels =>
  labelSet labels = X

theorem keys_insert (m : SeriesMap hasher) (labels : List Label) (k : UInt64) :
    k ∈ (m.insert labels).entries.map fst ↔
      k ∈ m.entries.map fst ∨ k = hasher (sortLabels labels) := by
  rw [insert, map_setByKey]
  split_ifs with h
  · rw [or_iff_left_of_imp]
    rintro rfl
    exact h
  · rw [mem_append, mem_singleton]

theorem keys_collect (series : List OwnedSeries) (k : UInt64) :
    k ∈ (collect series : SeriesMap hasher).entries.map fst ↔
      ∃ s ∈ series, seriesIdentityHash hasher s = k := by
  have hfold : ∀ m : SeriesMap hasher,
      k ∈ (series.foldl (fun m s => m.insert s.labels) m).entries.map fst ↔
        k ∈ m.entries.map fst ∨ ∃ s ∈ series, seriesIdentityHash hasher s = k := by
    induction series with
    | nil => simp
    | cons s series ih =>
      intro m
      rw [foldl_cons, ih, keys_insert, or_assoc, exists_mem_cons_iff, seriesIdentityHash,
        eq_comm (a := k)]
  rw [collect, hfold]
  simp [empty]

variable {series : List OwnedSeries}

/-- The labels in the map are those of some series. -/
theorem values_collect {labels : List Label}
    (h : labels ∈ (collect series : SeriesMap hasher).values) :
    ∃ s ∈ series, s.labels = labels := by
  have hfold : ∀ m : SeriesMap hasher,
      labels ∈ (series.foldl (fun m s => m.insert s.labels) m).values →
        labels ∈ m.values ∨ ∃ s ∈ series, s.labels = labels := by
    clear h
    induction series with
    | nil => exact fun m hm => .inl hm
    | cons s series ih =>
      intro m hm
      obtain hm | ⟨s', hs', hlabels⟩ := ih _ hm
      · obtain ⟨e, he, rfl⟩ := mem_map.mp hm
        obtain rfl | he := mem_setByKey he
        · exact .inr ⟨s, mem_cons_self .., rfl⟩
        · exact .inl (mem_map_of_mem he)
      · exact .inr ⟨s', mem_cons_of_mem _ hs', hlabels⟩
  exact (hfold empty h).resolve_left (by simp [values, empty])

theorem containsKey_iff (m : SeriesMap hasher) (k : UInt64) :
    m.containsKey k ↔ k ∈ m.entries.map fst := by
  simp [containsKey]

/-- A label set has at most one entry. -/
theorem countP_entries (m : SeriesMap hasher) (X : LabelSet) :
    m.entries.countP (fun e => labelSet e.2 = X) = (m.has X).toNat := by
  have hhas : m.has X ↔ 0 < m.entries.countP fun e => labelSet e.2 = X := by
    rw [countP_pos_iff, has, values, any_map, any_eq_true]
    rfl
  cases h : m.has X with
  | false => exact Nat.eq_zero_of_not_pos (mt hhas.mpr (by simp [h]))
  | true =>
    refine Nat.le_antisymm ?_ (hhas.mp h)
    obtain ⟨e, he, hX⟩ := countP_pos_iff.mp (hhas.mp h)
    -- the entries of a label set share its hash, which is the key of one entry only
    have hkey : ∀ e' ∈ m.entries, labelSet e'.2 = X → e'.1 = e.1 := fun e' he' hX' => by
      have hperm := labelSet_eq_iff.mp (hX'.trans (of_decide_eq_true hX).symm)
      rw [m.hash_eq e' he', m.hash_eq e he, sortLabels_eq_of_perm hperm]
    calc m.entries.countP (fun e => labelSet e.2 = X)
        ≤ m.entries.countP (fun e' => e'.1 == e.1) :=
          countP_mono_left fun e' he' hX' => by simpa using hkey e' he' (by simpa using hX')
      _ = (m.entries.map fst).count e.1 := by rw [count_eq_countP, countP_map]; rfl
      _ ≤ 1 := nodup_iff_count_le_one.mp m.nodup e.1

/-- The map of some series has their label sets. -/
theorem has_collect (hU : Separates hasher U) (hseries : ∀ s ∈ series, s.labels ∈ U) :
    (collect series : SeriesMap hasher).has X = series.any fun s => labelSet s.labels = X := by
  rw [Bool.eq_iff_iff, has, any_eq_true, any_eq_true]
  constructor
  · rintro ⟨labels, hlabels, hX⟩
    obtain ⟨s, hs, rfl⟩ := values_collect hlabels
    exact ⟨s, hs, hX⟩
  · rintro ⟨s, hs, hX⟩
    have hkey : seriesIdentityHash hasher s ∈ (collect series : SeriesMap hasher).entries.map fst :=
      (keys_collect series _).mpr ⟨s, hs, rfl⟩
    obtain ⟨e, he, hhash⟩ := mem_map.mp hkey
    have hvalue := mem_map_of_mem (f := snd) he
    obtain ⟨s', hs', hlabels⟩ := values_collect hvalue
    rw [hash_eq _ e he, ← hlabels] at hhash
    refine ⟨e.2, hvalue, ?_⟩
    rw [← hlabels, hU _ (hseries s' hs') _ (hseries s hs) hhash]
    exact hX

/-- A vanished label set is in one map and not in the other. -/
theorem countP_vanished (hU : Separates hasher U) (m : SeriesMap hasher)
    (hm : ∀ labels ∈ m.values, labels ∈ U)
    (hseries : ∀ s ∈ series, s.labels ∈ U) :
    (m.vanished (collect series)).countP (fun labels => labelSet labels = X) =
      (m.has X && !series.any fun s => labelSet s.labels = X).toNat := by
  have hcontains : ∀ e ∈ m.entries, labelSet e.2 = X →
      (collect series : SeriesMap hasher).containsKey e.1 = series.any fun s =>
      labelSet s.labels = X := by
    rintro e he rfl
    rw [Bool.eq_iff_iff, containsKey_iff, keys_collect, any_eq_true]
    refine exists_congr fun s => and_congr_right fun hs => ?_
    rw [m.hash_eq e he, decide_eq_true_iff]
    refine ⟨hU _ (hseries s hs) _ (hm _ (mem_map_of_mem he)), fun h => ?_⟩
    rw [seriesIdentityHash, sortLabels_eq_of_perm (labelSet_eq_iff.mp h)]
  rw [vanished, countP_map, countP_filter]
  cases hpresent : series.any fun s => labelSet s.labels = X with
  | true =>
    rw [Bool.not_true, Bool.and_false, Bool.toNat_false, countP_eq_zero]
    intro e he
    by_cases hX : labelSet e.2 = X
    · simp [hcontains e he hX, hpresent]
    · simp [hX]
  | false =>
    rw [Bool.not_false, Bool.and_true, ← countP_entries]
    refine countP_congr fun e he => ?_
    by_cases hX : labelSet e.2 = X
    · simp [hcontains e he hX, hpresent, hX]
    · simp [hX]

end SeriesMap

/-! ### Runs -/

/-- The rows of a call that was answered. -/
def Call.rows (c : Call) : List RowSeries :=
  match c.outcome with
  | .ok outcome => outcome.series
  | .error _ => []

/-- The rows of a successful scrape, within the sample limit. -/
def Call.accepted (c : Call) (cfg : ScrapeConfigResolved) : Option (List RowSeries) :=
  match c.outcome with
  | .ok outcome =>
    if cfg.sampleLimit > 0 ∧ outcome.samplesPostRelabel > cfg.sampleLimit then none
    else some outcome.series
  | .error _ => none

namespace Scraper

variable {hasher : List Label → UInt64} {U : Set (List Label)} {X : LabelSet}

/-- A call keeps the markers exact when, in case it succeeds, no series of it has the label set of a
metric about the scrape, and, in case the call before it failed, it has all series of the last
successful one. -/
def SteadyCall (s : Scraper hasher) (c : Call) : Prop :=
  ∀ rows ∈ c.accepted s.cfg,
    (∀ row ∈ rows, labelSet row.labels ∉ autoLabelSets s.cfg) ∧
      (s.lastScrapeOk = false →
        ∀ labels ∈ s.lastSeries.values, ∃ row ∈ rows, labelSet row.labels = labelSet labels)

/-- All calls of a run keep the markers exact, and the last one does not fail unless no series is
tracked. -/
def SteadyRun (s : Scraper hasher) (scrapeUrl : Bytes) : List Call → Prop
  | [] => s.lastScrapeOk = true ∨ s.lastSeries.values = []
  | c :: calls => s.SteadyCall c ∧ (s.scrape scrapeUrl c).2.SteadyRun scrapeUrl calls

instance (s : Scraper hasher) (c : Call) : Decidable (s.SteadyCall c) :=
  inferInstanceAs (Decidable (∀ rows ∈ c.accepted s.cfg, _))

instance decidableSteadyRun (scrapeUrl : Bytes) : ∀ (calls : List Call) (s : Scraper hasher),
    Decidable (s.SteadyRun scrapeUrl calls)
  | [], s => inferInstanceAs (Decidable (s.lastScrapeOk = true ∨ s.lastSeries.values = []))
  | c :: calls, s =>
    have := decidableSteadyRun scrapeUrl calls (s.scrape scrapeUrl c).2
    inferInstanceAs (Decidable (s.SteadyCall c ∧
      (s.scrape scrapeUrl c).2.SteadyRun scrapeUrl calls))

/-- What a label set sees of the scraper and of a call. -/
def view (s : Scraper hasher) (X : LabelSet) : View := ⟨s.lastSeries.has X, s.lastScrapeOk⟩

def round (s : Scraper hasher) (X : LabelSet) (c : Call) : Option Bool :=
  (c.accepted s.cfg).map fun rows => rows.any fun row => labelSet row.labels = X

theorem fetch_spec (s : Scraper hasher) (scrapeUrl : Bytes) (c : Call) :
    (s.fetch scrapeUrl c).1.up = (c.accepted s.cfg).isSome ∧
      (s.fetch scrapeUrl c).1.series = ((c.accepted s.cfg).getD []).map RowSeries.toOwned ∧
      (s.fetch scrapeUrl c).2.cfg = s.cfg ∧ (s.fetch scrapeUrl c).2.lastSeries = s.lastSeries ∧
      (s.fetch scrapeUrl c).2.lastScrapeOk = s.lastScrapeOk := by
  rw [fetch, Call.accepted]
  cases c.outcome with
  | ok outcome => simp only; split_ifs <;> exact ⟨rfl, rfl, rfl, rfl, rfl⟩
  | error failure => cases failure <;> exact ⟨rfl, rfl, rfl, rfl, rfl⟩

theorem accepted_subset {c : Call} {cfg : ScrapeConfigResolved} {row : RowSeries}
    (h : row ∈ (c.accepted cfg).getD []) : row ∈ c.rows := by
  rw [Call.accepted] at h
  rw [Call.rows]
  cases hc : c.outcome with
  | ok outcome =>
    simp only [hc] at h ⊢
    split_ifs at h
    · exact nomatch h
    · exact h
  | error failure =>
    rw [hc] at h
    exact nomatch h

/-- **One call, as a label set sees it**: the live samples and the markers of its output, and the
scraper afterwards. -/
theorem sighting_scrape (hU : Separates hasher U) (s : Scraper hasher)
    (hs : ∀ labels ∈ s.lastSeries.values, labels ∈ U) (scrapeUrl : Bytes) (c : Call)
    (hc : ∀ row ∈ c.rows, row.labels ∈ U) :
    sighting X (s.scrape scrapeUrl c).1.series =
        (s.view X).shown (decide (X ∈ autoLabelSets s.cfg)) (s.round X c) ∧
      (s.scrape scrapeUrl c).2.view X = (s.view X).next (s.round X c) := by
  obtain ⟨hup, hseries, hcfg, hlast, hok⟩ := s.fetch_spec scrapeUrl c
  rw [scrape]
  generalize s.fetch scrapeUrl c = p at hup hseries hcfg hlast hok
  obtain ⟨result, s'⟩ := p
  simp only at hup hseries hcfg hlast hok
  have hmem : ∀ o ∈ result.series, o.labels ∈ U := by
    rw [hseries]
    intro o ho
    obtain ⟨row, hrow, rfl⟩ := mem_map.mp ho
    exact hc row (accepted_subset hrow)
  have hany : (result.series.any fun o => labelSet o.labels = X) =
      ((c.accepted s.cfg).getD []).any fun row => labelSet row.labels = X := by
    rw [hseries, any_map]
    rfl
  have hvanished := (s.lastSeries.countP_vanished (X := X) hU hs hmem)
  have hcollect := SeriesMap.has_collect (X := X) hU hmem
  rw [hany] at hvanished hcollect
  simp only [hlast, hok, hcfg]
  generalize hv : s.lastSeries.vanished (.collect result.series) = vanished at hvanished
  have hshown : sighting X (if vanished ≠ [] ∧ (s.lastScrapeOk ∨ result.up) then
      { result with
        series := result.series ++ vanished.map fun labels => makeStaleSeries labels c.timestampMs }
      else result).series =
      ⟨((c.accepted s.cfg).getD []).any fun row => labelSet row.labels = X,
        if s.lastScrapeOk ∨ result.up then vanished.countP fun labels =>
          labelSet labels = X else 0⟩ := by
    have hrows : sighting X result.series =
        ⟨((c.accepted s.cfg).getD []).any fun row => labelSet row.labels = X, 0⟩ := by
      rw [hseries, sighting_toOwned]
    split_ifs with hmarks hgate hgate
    · rw [sighting_append, sighting_makeStaleSeries, hrows]
      simp
    · exact absurd hmarks.2 hgate
    · have hnil : vanished = [] := by
        by_contra hne
        exact hmarks ⟨hne, hgate⟩
      rw [hrows, hnil]
      rfl
    · exact hrows
  rw [sighting_appendAutoMetrics, hshown, hvanished, hup, view, view, round]
  cases haccepted : c.accepted s.cfg with
  | none =>
    refine ⟨?_, rfl⟩
    cases s.lastSeries.has X <;> cases s.lastScrapeOk <;> simp [View.shown]
  | some rows =>
    refine ⟨?_, ?_⟩
    · simp only [Option.getD_some, Option.map_some, View.shown, Option.isSome_some,
        or_true, if_true]
      cases s.lastSeries.has X <;> cases rows.any fun row => labelSet row.labels = X <;> rfl
    · rw [haccepted, Option.getD_some] at hcollect
      simp only [Option.isSome_some, if_true, Option.map_some, View.next]
      rw [hcollect]

/-- The scraper keeps its configuration, and tracks labels that it has scraped. -/
theorem scrape_keeps (s : Scraper hasher) (hs : ∀ labels ∈ s.lastSeries.values, labels ∈ U)
    (scrapeUrl : Bytes) (c : Call) (hc : ∀ row ∈ c.rows, row.labels ∈ U) :
    (s.scrape scrapeUrl c).2.cfg = s.cfg ∧
      ∀ labels ∈ (s.scrape scrapeUrl c).2.lastSeries.values, labels ∈ U := by
  obtain ⟨hup, hseries, hcfg, hlast, hok⟩ := s.fetch_spec scrapeUrl c
  rw [scrape]
  generalize s.fetch scrapeUrl c = p at hup hseries hcfg hlast hok
  obtain ⟨result, s'⟩ := p
  simp only at hup hseries hcfg hlast hok
  simp only [hlast]
  refine ⟨hcfg, fun labels hlabels => ?_⟩
  split_ifs at hlabels
  · obtain ⟨o, ho, rfl⟩ := SeriesMap.values_collect hlabels
    rw [hseries] at ho
    obtain ⟨row, hrow, rfl⟩ := mem_map.mp ho
    exact hc row (accepted_subset hrow)
  · exact hs labels hlabels

/-- The end of a run, as a label set sees it. -/
theorem sighting_markStaleAll (s : Scraper hasher) (ts : Int64) :
    sighting X (s.markStaleAll ts).1 = (s.view X).gone (decide (X ∈ autoLabelSets s.cfg)) := by
  have hvalues : s.lastSeries.values.countP (fun labels => labelSet labels = X) =
      (s.lastSeries.has X).toNat := by
    rw [← SeriesMap.countP_entries, SeriesMap.values, countP_map]
    rfl
  rw [markStaleAll, sighting_append, sighting_makeStaleSeries, sighting_autoOfGone, hvalues]
  rfl

/-- **The outputs of a run, as a label set sees them.** -/
theorem sighting_outputs (hU : Separates hasher U) (scrapeUrl : Bytes) (ts : Int64)
    (calls : List Call)
    (hcalls : ∀ c ∈ calls, ∀ row ∈ c.rows, row.labels ∈ U) (s : Scraper hasher)
    (hs : ∀ labels ∈ s.lastSeries.values, labels ∈ U) :
    (s.outputs scrapeUrl ts calls).map (sighting X) =
      (s.view X).trace (decide (X ∈ autoLabelSets s.cfg)) (calls.map (s.round X)) := by
  induction calls generalizing s with
  | nil => rw [outputs, map_singleton, sighting_markStaleAll]; rfl
  | cons c calls ih =>
    have hc := hcalls c (mem_cons_self ..)
    obtain ⟨hseen, hview⟩ := sighting_scrape (X := X) hU s hs scrapeUrl c hc
    obtain ⟨hcfg, hs'⟩ := scrape_keeps s hs scrapeUrl c hc
    have hround : (s.scrape scrapeUrl c).2.round X = s.round X := by
      funext c'
      rw [round, round, hcfg]
    rw [outputs, map_cons, hseen, ih (fun c' hc' => hcalls c' (mem_cons_of_mem _ hc')) _ hs',
      hview, hcfg, hround]
    rfl

/-- A call is steady when its round is steady for every label set. -/
theorem steadyCall_iff (s : Scraper hasher) (c : Call) : s.SteadyCall c ↔
    ∀ X, (s.view X).SteadyRound (decide (X ∈ autoLabelSets s.cfg)) (s.round X c) := by
  constructor
  · intro h X present hpresent
    obtain ⟨rows, hrows, rfl⟩ := Option.map_eq_some_iff.mp hpresent
    obtain ⟨hauto, hall⟩ := h rows hrows
    refine ⟨fun hX => ?_, fun hok htracked => ?_⟩
    · refine any_eq_false.mpr fun row hrow heq => hauto row hrow ?_
      rw [of_decide_eq_true heq]
      exact of_decide_eq_true hX
    · obtain ⟨labels, hlabels, hX⟩ := any_eq_true.mp htracked
      obtain ⟨row, hrow, heq⟩ := hall hok labels hlabels
      exact any_eq_true.mpr ⟨row, hrow, by rw [heq]; exact hX⟩
  · intro h rows hrows
    have hround : ∀ X, s.round X c = some (rows.any fun row => labelSet row.labels = X) :=
      fun X => by
      rw [round, Option.mem_def.mp hrows]
      rfl
    refine ⟨fun row hrow hauto => ?_, fun hok labels hlabels => ?_⟩
    · have hnone := (h (labelSet row.labels) _ (hround _)).1 (decide_eq_true hauto)
      exact any_eq_false.mp hnone row hrow (decide_eq_true rfl)
    · have htracked : s.lastSeries.has (labelSet labels) :=
        any_eq_true.mpr ⟨labels, hlabels, decide_eq_true rfl⟩
      have hsome := (h (labelSet labels) _ (hround _)).2 hok htracked
      obtain ⟨row, hrow, heq⟩ := any_eq_true.mp hsome
      exact ⟨row, hrow, of_decide_eq_true heq⟩

/-- A run is steady when its rounds are steady for every label set. -/
theorem steadyRun_iff (hU : Separates hasher U) (scrapeUrl : Bytes) (calls : List Call)
    (hcalls : ∀ c ∈ calls, ∀ row ∈ c.rows, row.labels ∈ U) (s : Scraper hasher)
    (hs : ∀ labels ∈ s.lastSeries.values, labels ∈ U) :
    s.SteadyRun scrapeUrl calls ↔
      ∀ X, (s.view X).Steady (decide (X ∈ autoLabelSets s.cfg)) (calls.map (s.round X)) := by
  induction calls generalizing s with
  | nil =>
    have hnil : s.lastSeries.values = [] ↔ ∀ X, s.lastSeries.has X = false := by
      simp only [SeriesMap.has, any_eq_false, eq_nil_iff_forall_not_mem, decide_eq_true_eq]
      exact ⟨fun h X labels hlabels => absurd hlabels (h labels),
        fun h labels hlabels => h (labelSet labels) labels hlabels rfl⟩
    rw [SteadyRun, hnil, ← forall_or_left]
    rfl
  | cons c calls ih =>
    have hc := hcalls c (mem_cons_self ..)
    obtain ⟨hcfg, hs'⟩ := scrape_keeps s hs scrapeUrl c hc
    have hround : ∀ X, (s.scrape scrapeUrl c).2.round X = s.round X := fun X => by
      funext c'
      rw [round, round, hcfg]
    rw [SteadyRun, steadyCall_iff, ih (fun c' hc' => hcalls c' (mem_cons_of_mem _ hc')) _ hs',
      ← forall_and]
    refine forall_congr' fun X => ?_
    rw [(sighting_scrape hU s hs scrapeUrl c hc).2, hcfg, hround]
    rfl

end Scraper

/-- **The staleness markers of a run are exact if and only if the run is steady**, when the
different label sets of its rows have different hashes. -/
theorem stalenessExact_iff (hasher : List Label → UInt64) (cfg : ScrapeConfigResolved)
    (scrapeUrl : Bytes) (ts : Int64) (calls : List Call)
    (hhash : ∀ c ∈ calls, ∀ row ∈ c.rows, ∀ c' ∈ calls, ∀ row' ∈ c'.rows,
      hasher (sortLabels row.labels) = hasher (sortLabels row'.labels) →
        labelSet row.labels = labelSet row'.labels) :
    StalenessExact ((Scraper.new hasher cfg).outputs scrapeUrl ts calls) ↔
      (Scraper.new hasher cfg).SteadyRun scrapeUrl calls := by
  have hU : Separates hasher {l | ∃ c ∈ calls, ∃ row ∈ c.rows, row.labels = l} := by
    rintro _ ⟨c, hc, row, hrow, rfl⟩ _ ⟨c', hc', row', hrow', rfl⟩ h
    exact hhash c hc row hrow c' hc' row' hrow' h
  have hs : ∀ labels ∈ (Scraper.new hasher cfg).lastSeries.values,
      labels ∈ {l | ∃ c ∈ calls, ∃ row ∈ c.rows, row.labels = l} := fun labels h => nomatch h
  have hcalls : ∀ c ∈ calls, ∀ row ∈ c.rows,
      row.labels ∈ {l | ∃ c ∈ calls, ∃ row ∈ c.rows, row.labels = l} :=
    fun c hc row hrow => ⟨c, hc, row, hrow, rfl⟩
  rw [Scraper.steadyRun_iff hU scrapeUrl calls hcalls _ hs]
  refine forall_congr' fun X => ?_
  rw [Scraper.sighting_outputs hU scrapeUrl ts calls hcalls _ hs]
  exact View.exactMarks_iff _ _ _

/-- A configuration without limits and labels. -/
def plainConfig : ScrapeConfigResolved := ⟨false, [], [], 0, 0, 10000000000⟩

/-- A row `{__name__=name}` with the value `1`. -/
def namedRow (name : Bytes) : RowSeries := ⟨[⟨metricName, name⟩], 0x3ff0000000000000, 0, by decide⟩

/-- A scrape with some names. -/
def scraped (names : List Bytes) : Call :=
  ⟨.ok ⟨names.map namedRow, names.length, names.length, 100⟩, 1000000, 0⟩

def unreachable : Call := ⟨.error (.generic [.text "cannot scrape"]), 1000000, 0⟩

/-- A hash of the lengths and the bytes. -/
def sumHasher (labels : List Label) : UInt64 :=
  labels.foldl (fun h l => (l.name ++ l.value).foldl (fun h b => h * 31 + b.toUInt64) h) 7

/-- Two series of which one vanishes before a failure and the other one survives it. -/
theorem stalenessExact_iff_two :
    StalenessExact ((Scraper.new sumHasher plainConfig).outputs (ascii "http://a") 0
      [scraped [ascii "a", ascii "b"], scraped [ascii "a"], unreachable,
        scraped [ascii "a", ascii "c"]]) :=
  (stalenessExact_iff sumHasher plainConfig (ascii "http://a") 0 _ (by decide)).mpr (by decide)

/-- A series that vanishes over a failure is marked at the failure and once more afterwards. -/
theorem not_stalenessExact_vanished :
    ¬ StalenessExact ((Scraper.new sumHasher plainConfig).outputs (ascii "http://a") 0
      [scraped [ascii "a"], unreachable, scraped []]) := by
  intro h
  have hseen : ((Scraper.new sumHasher plainConfig).outputs (ascii "http://a") 0
      [scraped [ascii "a"], unreachable, scraped []]).map
      (sighting (labelSet [⟨metricName, ascii "a"⟩])) =
      [⟨true, 0⟩, ⟨false, 1⟩, ⟨false, 1⟩, ⟨false, 0⟩] := by decide
  have hexact := h (labelSet [⟨metricName, ascii "a"⟩])
  rw [hseen] at hexact
  obtain ⟨k, c, hik, hkj, -⟩ := hexact.between 1 2 _ _ (by decide) rfl rfl (by decide) (by decide)
  omega

end Esmetrics.Esmagent.Scrape
