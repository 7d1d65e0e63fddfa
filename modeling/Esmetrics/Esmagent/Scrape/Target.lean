import Esmetrics.Lib.StableSort
import Esmetrics.Relabel.Apply

/-!
# Targets

Model of `esmagent/src/scrape/target.rs`: the labels and the scrape URL of a discovered address, and
the targets of a job. A group is active with the addresses that the rules of the job keep and that
have a URL.

The labels of a group and the parameters of a job are listed in the order of their names, and a
duration is in milliseconds. The encoding of a query is code of another package, and a parameter
here.
-/

namespace Esmetrics.Esmagent.Scrape

open Relabel (Label RelabelConfig ParsedConfigs)

/-- What the manager and the targets of a job need of its configuration. -/
structure ScrapeConfig where
  jobName : Bytes
  scrapeInterval : Option ℕ
  scrapeTimeout : Option ℕ
  metricsPath : Bytes
  scheme : Bytes
  honorLabels : Bool
  params : List (Bytes × List Bytes)
  relabelConfigs : List RelabelConfig
  metricRelabelConfigs : List RelabelConfig
  sampleLimit : ℕ
  labelLimit : ℕ
  /-- The other fields, of which only the checksum and the discovery providers are made. -/
  others : Bytes

/-- A group of addresses with the labels of its source. -/
structure TargetGroup where
  targets : List Bytes
  labels : List (Bytes × Bytes)

/-- A target that can be scraped. -/
structure Target where
  scrapeUrl : Bytes
  labels : List Label
  discoveredLabels : List Label
deriving DecidableEq

/-- A target that has no URL or that the rules of the job drop. -/
structure DroppedTarget where
  discoveredLabels : List Label
deriving DecidableEq

def getLabel (labels : List Label) (name : Bytes) : Option Bytes :=
  (findByKey Label.name name labels).map Label.value

/-- Sets a label where it is, or appends it; `set_label` of this file keeps empty values. -/
def putLabel (labels : List Label) (name value : Bytes) : List Label :=
  setByKey Label.name ⟨name, value⟩ labels

def decimalText (n : ℕ) : Bytes := (Nat.toDigits 10 n).map fun c => c.val.toUInt8

def formatDuration (millis : ℕ) : Bytes :=
  if millis % 1000 = 0 then decimalText (millis / 1000) ++ ascii "s"
    else decimalText millis ++ ascii "ms"

def paramLabel (name : Bytes) : Bytes := ascii "__param_" ++ name

/-- The labels of an address before the rules of the job: those of the group come last, and win. -/
def assembleLabels (sc : ScrapeConfig) (address : Bytes) (group : TargetGroup) : List Label :=
  let labels := putLabel [] (ascii "__address__") address
  let labels := putLabel labels (ascii "__scheme__") sc.scheme
  let labels := putLabel labels (ascii "__metrics_path__") sc.metricsPath
  let labels := sc.params.foldl
    (fun labels (k, values) =>
      match values with
      | first :: _ => putLabel labels (paramLabel k) first
      | [] => labels)
    labels
  let labels := putLabel labels (ascii "job") sc.jobName
  let labels := match sc.scrapeInterval with
    | some d => putLabel labels (ascii "__scrape_interval__") (formatDuration d)
    | none => labels
  let labels := match sc.scrapeTimeout with
    | some d => putLabel labels (ascii "__scrape_timeout__") (formatDuration d)
    | none => labels
  group.labels.foldl (fun labels (k, v) => putLabel labels k v) labels

/-- The parameters of a query: the labels `__param_*`, each with the further values that the job has
under the name. -/
def getParamsFromLabels (labels : List Label) (extraParams : List (Bytes × List Bytes)) :
    List (Bytes × List Bytes) :=
  sortByKey Prod.fst <| labels.foldl
    (fun params l =>
      if (paramLabel []).isPrefixOf l.name then
        let name := l.name.drop (paramLabel []).length
        let extra := ((findByKey Prod.fst name extraParams).map Prod.snd).getD []
        setByKey Prod.fst (name, l.value :: extra.tail) params
      else params)
    []

section

variable (formUrlEncode : List (Bytes × Bytes) → Bytes)

def encodeParams (params : List (Bytes × List Bytes)) : Bytes :=
  formUrlEncode (params.flatMap fun (name, values) => values.map fun value => (name, value))

/-- The scheme and the address, when the address begins with a scheme. -/
def splitScheme (scheme address : Bytes) : Bytes × Bytes :=
  if (ascii "http://").isPrefixOf address then (ascii "http", address.drop 7)
  else if (ascii "https://").isPrefixOf address then (ascii "https", address.drop 8)
  else (scheme, address)

def orDefault (s default : Bytes) : Bytes := if s = [] then default else s

def getScrapeUrl (labels : List Label) (extraParams : List (Bytes × List Bytes)) : Option Bytes :=
  let scheme := orDefault ((getLabel labels (ascii "__scheme__")).getD []) (ascii "http")
  let metricsPath := orDefault ((getLabel labels (ascii "__metrics_path__")).getD [])
    (ascii "/metrics")
  let address := (getLabel labels (ascii "__address__")).getD []
  if address = [] then none
  else
    let (scheme, address) := splitScheme scheme address
    let path := address.dropWhile (· ≠ '/'.toUInt8)
    let metricsPath := orDefault path metricsPath
    let address := address.takeWhile (· ≠ '/'.toUInt8)
    let metricsPath :=
      if metricsPath.head? = some '/'.toUInt8 then metricsPath else '/'.toUInt8 :: metricsPath
    let params := getParamsFromLabels labels extraParams
    let optionalQuestion :=
      if params.isEmpty then [] else if '?'.toUInt8 ∈ metricsPath then ascii "&" else ascii "?"
    some (scheme ++ ascii "://" ++ address ++ metricsPath ++ optionalQuestion ++
      encodeParams formUrlEncode params)

variable (lib : Relabel.Library)

/-- The target of one address. -/
def buildTarget (sc : ScrapeConfig) (targetRelabel : ParsedConfigs) (group : TargetGroup)
    (address : Bytes) : DroppedTarget ⊕ Target :=
  let discoveredLabels := assembleLabels sc address group
  match Relabel.apply lib targetRelabel discoveredLabels with
  | (false, _) => .inl ⟨discoveredLabels⟩
  | (true, labels) =>
    let labels :=
      match getLabel labels (ascii "instance"), getLabel labels (ascii "__address__") with
      | none, some addr => putLabel labels (ascii "instance") addr
      | _, _ => labels
    match getScrapeUrl formUrlEncode labels sc.params with
    | none => .inl ⟨discoveredLabels⟩
    | some scrapeUrl =>
      .inr ⟨scrapeUrl, labels.filter fun l => !(ascii "__").isPrefixOf l.name, discoveredLabels⟩

/-- The active and the dropped targets of some groups. -/
def buildTargets (sc : ScrapeConfig) (targetRelabel : ParsedConfigs) (groups : List TargetGroup) :
    List Target × List DroppedTarget :=
  let targets := groups.flatMap fun group =>
    group.targets.map fun address => buildTarget formUrlEncode lib sc targetRelabel group address
  (targets.filterMap Sum.getRight?, targets.filterMap Sum.getLeft?)

end

end Esmetrics.Esmagent.Scrape
