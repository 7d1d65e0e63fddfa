import Esmetrics.Esmagent.Scrape.AutoMetrics

/-!
# One target over its scrapes

Model of `Scraper` of `esmagent/src/scrape/scrapework.rs`. A call of `scrape` is given what
`fetch_and_parse` returns, with the time it took and its start; the rows of a target have no
staleness marks, as the text format has no spelling of one. The map of the last series is the list
of its entries: the source goes through it in any order, and nothing below depends on the order.
-/

namespace Esmetrics.Esmagent.Scrape

open Relabel (Label)
open Protoparser (Message Piece)

/-! ### The last series -/

/-- A map from hashes to labels, in which the labels of every entry have its hash. -/
structure SeriesMap (hasher : List Label → UInt64) where
  entries : List (UInt64 × List Label)
  nodup : (entries.map Prod.fst).Nodup
  hash_eq : ∀ e ∈ entries, e.1 = hasher (sortLabels e.2)

namespace SeriesMap

variable {hasher : List Label → UInt64}

def empty : SeriesMap hasher := ⟨[], List.nodup_nil, by simp⟩

def insert (m : SeriesMap hasher) (labels : List Label) : SeriesMap hasher where
  entries := setByKey Prod.fst (hasher (sortLabels labels), labels) m.entries
  nodup := nodup_setByKey m.nodup _
  hash_eq e he := by
    obtain rfl | he := mem_setByKey he
    · rfl
    · exact m.hash_eq e he

/-- The map of the hashes and labels of some series. -/
def collect (series : List OwnedSeries) : SeriesMap hasher :=
  series.foldl (fun m s => m.insert s.labels) empty

def containsKey (m : SeriesMap hasher) (hash : UInt64) : Bool := m.entries.any fun e => e.1 = hash

def values (m : SeriesMap hasher) : List (List Label) := m.entries.map Prod.snd

/-- The labels of the entries whose hash another map does not have. -/
def vanished (m current : SeriesMap hasher) : List (List Label) :=
  (m.entries.filter fun e => !current.containsKey e.1).map Prod.snd

end SeriesMap

/-! ### Fetching -/

/-- A series that `build_series` makes of a row: it has one sample, which is no staleness mark. -/
structure RowSeries where
  labels : List Label
  bits : UInt64
  timestamp : Int64
  bits_ne : bits ≠ staleNanBits

def RowSeries.toOwned (s : RowSeries) : OwnedSeries := ⟨s.labels, [⟨.row s.bits, s.timestamp⟩]⟩

structure FetchOutcome where
  series : List RowSeries
  samplesScraped : ℕ
  samplesPostRelabel : ℕ
  responseSize : ℕ

inductive ScrapeFailure
  | generic (err : Message)
  | labelLimitExceeded (samplesScraped : ℕ)

/-- A call of `scrape`: what the target answered, how long it took, and when it started. -/
structure Call where
  outcome : Except ScrapeFailure FetchOutcome
  duration : ℕ
  timestampMs : Int64

/-! ### The scraper -/

structure Scraper (hasher : List Label → UInt64) where
  cfg : ScrapeConfigResolved
  lastSeries : SeriesMap hasher
  lastScrapeOk : Bool
  staleSamplesCreated : ℕ
  scrapesSkippedBySampleLimit : ℕ
  scrapesSkippedByLabelLimit : ℕ

def makeStaleSeries (labels : List Label) (timestamp : Int64) : OwnedSeries :=
  ⟨labels, [⟨.staleNan, timestamp⟩]⟩

namespace Scraper

variable {hasher : List Label → UInt64}

def new (hasher : List Label → UInt64) (cfg : ScrapeConfigResolved) : Scraper hasher :=
  ⟨cfg, .empty, false, 0, 0, 0⟩

def limitMessage (scrapeUrl : Bytes) (what : String) (limit : ℕ) (advice : String) : Message :=
  [.text "the response from ", .debug scrapeUrl, .text what, .display (ascii (toString limit)),
    .text advice]

/-- The result of a call before the metrics about it, and the scraper with its skip counters. -/
def fetch (s : Scraper hasher) (scrapeUrl : Bytes) (c : Call) : ScrapeResult × Scraper hasher :=
  match c.outcome with
  | .ok outcome =>
    if s.cfg.sampleLimit > 0 ∧ outcome.samplesPostRelabel > s.cfg.sampleLimit then
      ({ series := []
         up := false
         samplesScraped := outcome.samplesScraped
         samplesPostRelabel := outcome.samplesPostRelabel
         duration := c.duration
         error := some (limitMessage scrapeUrl " exceeds sample_limit=" s.cfg.sampleLimit
           "; either reduce the sample count for the target or increase sample_limit")
         responseSize := 0 },
        { s with scrapesSkippedBySampleLimit := s.scrapesSkippedBySampleLimit + 1 })
    else
      ({ series := outcome.series.map RowSeries.toOwned
         up := true
         samplesScraped := outcome.samplesScraped
         samplesPostRelabel := outcome.samplesPostRelabel
         duration := c.duration
         error := none
         responseSize := outcome.responseSize }, s)
  | .error (.labelLimitExceeded samplesScraped) =>
    ({ series := []
       up := false
       samplesScraped
       samplesPostRelabel := 0
       duration := c.duration
       error := some (limitMessage scrapeUrl
         " contains samples with a number of labels exceeding label_limit=" s.cfg.labelLimit
         "; either reduce the labels count for the target or increase label_limit")
       responseSize := 0 },
      { s with scrapesSkippedByLabelLimit := s.scrapesSkippedByLabelLimit + 1 })
  | .error (.generic err) =>
    ({ series := []
       up := false
       samplesScraped := 0
       samplesPostRelabel := 0
       duration := c.duration
       error := some err
       responseSize := 0 }, s)

def scrape (s : Scraper hasher) (scrapeUrl : Bytes) (c : Call) : ScrapeResult × Scraper hasher :=
  let (result, s) := s.fetch scrapeUrl c
  let scrapeOk := result.up
  let currentSeries : SeriesMap hasher := .collect result.series
  let seriesAdded := currentSeries.entries.countP fun e => !s.lastSeries.containsKey e.1
  let vanished := s.lastSeries.vanished currentSeries
  let marks := vanished ≠ [] ∧ (s.lastScrapeOk ∨ scrapeOk)
  let result := if marks then
      { result with
        series := result.series ++ vanished.map fun labels => makeStaleSeries labels c.timestampMs }
    else result
  let s := { s with
    staleSamplesCreated := s.staleSamplesCreated + if marks then vanished.length else 0
    lastSeries := if scrapeOk then currentSeries else s.lastSeries
    lastScrapeOk := scrapeOk }
  (appendAutoMetrics result s.cfg seriesAdded c.timestampMs, s)

/-- The metrics of a target that is gone. -/
def autoOfGone (cfg : ScrapeConfigResolved) (ts : Int64) : ScrapeResult :=
  appendAutoMetrics
    { series := []
      up := false
      samplesScraped := 0
      samplesPostRelabel := 0
      duration := 0
      error := none
      responseSize := 0 } cfg 0 ts

def markStaleAll (s : Scraper hasher) (ts : Int64) : List OwnedSeries × Scraper hasher :=
  let auto := autoOfGone s.cfg ts
  let stale := s.lastSeries.values.map (fun labels => makeStaleSeries labels ts) ++
    auto.series.map fun series =>
      { series with samples := series.samples.map fun x => { x with value := .staleNan } }
  (stale, { s with
    staleSamplesCreated := s.staleSamplesCreated + s.lastSeries.entries.length + auto.series.length
    lastSeries := .empty })

/-- The output of some calls of `scrape` and of `mark_stale_all` at the end, call by call. -/
def outputs (s : Scraper hasher) (scrapeUrl : Bytes) (ts : Int64) :
    List Call → List (List OwnedSeries)
  | [] => [(s.markStaleAll ts).1]
  | c :: calls => (s.scrape scrapeUrl c).1.series :: (s.scrape scrapeUrl c).2.outputs
    scrapeUrl ts calls

end Scraper

end Esmetrics.Esmagent.Scrape
