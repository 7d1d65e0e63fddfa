import Esmetrics.Esmagent.Scrape.ScrapeWork
import Esmetrics.Esmagent.Scrape.Target

/-!
# The scrape manager

Model of `esmagent/src/scrape/manager.rs` and of `manager/worker.rs`: the jobs with their running
workers, the snapshot of the targets, a reconcile pass and a reload. A pass is given what the
providers of each job return, and workers always start. The map of the jobs and the maps of their
workers are lists of distinct names and URLs; the source goes through them in any order, and nothing
below depends on the order.

The threads are given by their workers. A worker that is stopped is joined, and its last act is
`mark_stale_all`. The world also has two things that no function reads: the number of the next
worker, and the numbers of the workers that were stopped.

The code of other packages, the checksum of a job and the making of its providers are parameters.
-/

namespace Esmetrics.Esmagent.Scrape

open Relabel (Label RelabelConfig ParsedConfigs RelabelError fromRawConfigs)

/-! ### Configuration -/

structure GlobalConfig where
  scrapeInterval : ℕ
  scrapeTimeout : ℕ
  externalLabels : List (Bytes × Bytes)
  sampleLimit : ℕ
  labelLimit : ℕ

structure ScrapeConfigFile where
  global : GlobalConfig
  scrapeConfigs : List ScrapeConfig

/-- Why a configuration is rejected. -/
inductive ScrapeError where
  /-- duplicate job_name in scrape_configs -/
  | duplicateJob (jobName : Bytes)
  /-- job_name: unexpected `scheme`; supported values: http or https -/
  | scheme (jobName scheme : Bytes)
  /-- job_name: scrape_timeout exceeds scrape_interval -/
  | timeout (jobName : Bytes) (scrapeTimeout scrapeInterval : ℕ)
  /-- job_name: invalid rules of a field -/
  | relabel (jobName : Bytes) (field : String) (e : RelabelError)
  /-- The error of a discovery provider. -/
  | provider (msg : Bytes)

/-- What the manager uses. -/
structure Components where
  lib : Relabel.Library
  formUrlEncode : List (Bytes × Bytes) → Bytes
  /-- The checks of the provider configurations. -/
  validateProviders : ScrapeConfig → Except ScrapeError Unit
  /-- The making of the providers. -/
  buildProviders : ScrapeConfig → Except ScrapeError Unit
  jobChecksum : ScrapeConfig → GlobalConfig → UInt64

variable (components : Components)

/-- The checks of one job; `seen` are the names before it. -/
def validateJob (global : GlobalConfig) (seen : List Bytes) (sc : ScrapeConfig) :
    Except ScrapeError Unit :=
  let scrapeInterval := sc.scrapeInterval.getD global.scrapeInterval
  let scrapeTimeout := sc.scrapeTimeout.getD global.scrapeTimeout
  if sc.jobName ∈ seen then .error (.duplicateJob sc.jobName)
  else if sc.scheme ≠ ascii "http" ∧ sc.scheme ≠ ascii "https" then .error
    (.scheme sc.jobName sc.scheme)
  else if scrapeTimeout > scrapeInterval then .error
    (.timeout sc.jobName scrapeTimeout scrapeInterval)
  else components.validateProviders sc

def validateJobs (global : GlobalConfig) : List Bytes → List ScrapeConfig → Except ScrapeError Unit
  | _, [] => .ok ()
  | seen, sc :: scs =>
    match validateJob components global seen sc with
    | .error e => .error e
    | .ok () => validateJobs global (sc.jobName :: seen) scs

def validate (cfg : ScrapeConfigFile) : Except ScrapeError Unit :=
  validateJobs components cfg.global [] cfg.scrapeConfigs

/-! ### Workers and jobs -/

/-- A running worker: the number of its thread, its target, and what it scrapes with. -/
structure WorkerHandle where
  id : ℕ
  scrapeUrl : Bytes
  discoveredLabels : List Label
  resolved : ScrapeConfigResolved
  interval : ℕ

/-- The labels that a worker attaches. -/
def WorkerHandle.labels (h : WorkerHandle) : List Label := h.resolved.targetLabels

/-- One job; `global` is the configuration that it was resolved against, of which the source keeps
what is in the other fields. -/
structure Job where
  sc : ScrapeConfig
  global : GlobalConfig
  externalLabels : List Label
  sampleLimit : ℕ
  labelLimit : ℕ
  scrapeTimeout : ℕ
  scrapeInterval : ℕ
  targetRelabel : ParsedConfigs
  workers : List WorkerHandle
  checksum : UInt64

/-- The key of a job. -/
def Job.name (job : Job) : Bytes := job.sc.jobName

inductive Health where
  | up
  | down
  | unknown
deriving DecidableEq

structure ActiveTarget where
  scrapePool : Bytes
  scrapeUrl : Bytes
  labels : List Label
  discoveredLabels : List Label
  health : Health
  lastError : Option Protoparser.Message
  lastScrapeMs : ℤ
  lastScrapeDurationMs : ℤ

/-- What identifies an entry of the snapshot. -/
def ActiveTarget.key (a : ActiveTarget) : Bytes × Bytes := (a.scrapePool, a.scrapeUrl)

/-- The snapshot of the targets, and the history of the threads. -/
structure World where
  active : List ActiveTarget
  dropped : List DroppedTarget
  nextWorker : ℕ
  stopped : List ℕ

def upsertActive (w : World) (entry : ActiveTarget) : World :=
  { w with active := setByKey ActiveTarget.key entry w.active }

def removeActive (w : World) (jobName scrapeUrl : Bytes) : World :=
  { w with active := dropByKey ActiveTarget.key (jobName, scrapeUrl) w.active }

/-- What the worker of a target scrapes with. -/
def Job.resolve (job : Job) (target : Target) : ScrapeConfigResolved where
  honorLabels := job.sc.honorLabels
  externalLabels := job.externalLabels
  targetLabels := target.labels
  sampleLimit := job.sampleLimit
  labelLimit := job.labelLimit
  scrapeTimeout := job.scrapeTimeout * 1000000

def spawnWorker (job : Job) (target : Target) (w : World) : WorkerHandle × World :=
  let w := upsertActive w
    { scrapePool := job.name
      scrapeUrl := target.scrapeUrl
      labels := target.labels
      discoveredLabels := target.discoveredLabels
      health := .unknown
      lastError := none
      lastScrapeMs := 0
      lastScrapeDurationMs := 0 }
  ({ id := w.nextWorker
     scrapeUrl := target.scrapeUrl
     discoveredLabels := target.discoveredLabels
     resolved := job.resolve target
     interval := job.scrapeInterval },
    { w with nextWorker := w.nextWorker + 1 })

/-- Stops a worker: its thread ends with `mark_stale_all`, and then its entry is removed. -/
def stopWorker (jobName : Bytes) (w : World) (handle : WorkerHandle) : World :=
  removeActive { w with stopped := w.stopped ++ [handle.id] } jobName handle.scrapeUrl

/-- Stops every worker of a job. -/
def stopJob (w : World) (job : Job) : World := job.workers.foldl (stopWorker job.name) w

/-- What a worker records after a scrape. -/
def recordResult (job : Job) (handle : WorkerHandle) (up : Bool)
    (error : Option Protoparser.Message)
    (nowMs durationMs : ℤ) (w : World) : World :=
  upsertActive w
    { scrapePool := job.name
      scrapeUrl := handle.scrapeUrl
      labels := handle.labels
      discoveredLabels := handle.discoveredLabels
      health := if up then .up else .down
      lastError := error
      lastScrapeMs := nowMs
      lastScrapeDurationMs := durationMs }

/-! ### A reconcile pass -/

/-- One round of the loop over the active targets: a target without a worker gets one. -/
def spawnMissing (job : Job) (s : List WorkerHandle × World) (target : Target) :
    List WorkerHandle × World :=
  if (findByKey WorkerHandle.scrapeUrl target.scrapeUrl s.1).isSome then s
  else
    let (handle, w) := spawnWorker job target s.2
    (setByKey WorkerHandle.scrapeUrl handle s.1, w)

/-- The pass for one job: the workers whose URL is not active any more are stopped. -/
def reconcileJob (job : Job) (active : List Target) (w : World) : Job × World :=
  let seenUrls := active.map Target.scrapeUrl
  let (workers, w) := active.foldl (spawnMissing job) (job.workers, w)
  let vanished := workers.filter fun h => h.scrapeUrl ∉ seenUrls
  ({ job with workers := workers.filter fun h => h.scrapeUrl ∈ seenUrls },
    vanished.foldl (stopWorker job.name) w)

/-- The targets that a job builds of what its providers return. -/
def Job.targets (job : Job) (groups : List TargetGroup) : List Target × List DroppedTarget :=
  buildTargets components.formUrlEncode components.lib job.sc job.targetRelabel groups

/-- The pass for some jobs, given the groups of each; the dropped targets are returned. -/
def reconcileJobs (groups : Bytes → List TargetGroup) :
    List Job → World → List Job × World × List DroppedTarget
  | [], w => ([], w, [])
  | job :: jobs, w =>
    let (active, dropped) := job.targets components (groups job.name)
    let (job', w) := reconcileJob job active w
    let (jobs', w, allDropped) := reconcileJobs groups jobs w
    (job' :: jobs', w, dropped ++ allDropped)

structure Manager where
  jobs : List Job
  world : World

def reconcileLocked (m : Manager) (groups : Bytes → List TargetGroup) : Manager :=
  let (jobs, w, allDropped) := reconcileJobs components groups m.jobs m.world
  ⟨jobs, { w with dropped := allDropped }⟩

/-! ### Start and reload -/

def buildJob (sc : ScrapeConfig) (global : GlobalConfig) (checksum : UInt64) :
    Except ScrapeError Job :=
  match fromRawConfigs components.lib sc.relabelConfigs with
  | .error e => .error (.relabel sc.jobName "relabel_configs" e)
  | .ok targetRelabel =>
    match fromRawConfigs components.lib sc.metricRelabelConfigs with
    | .error e => .error (.relabel sc.jobName "metric_relabel_configs" e)
    | .ok _ =>
      match components.buildProviders sc with
      | .error e => .error e
      | .ok () => .ok
          { sc
            global
            externalLabels := global.externalLabels.map fun (name, value) => ⟨name, value⟩
            sampleLimit := if sc.sampleLimit > 0 then sc.sampleLimit else global.sampleLimit
            labelLimit := if sc.labelLimit > 0 then sc.labelLimit else global.labelLimit
            scrapeTimeout := sc.scrapeTimeout.getD global.scrapeTimeout
            scrapeInterval := sc.scrapeInterval.getD global.scrapeInterval
            targetRelabel
            workers := []
            checksum }

/-- Builds the jobs in order, up to the first error. -/
def buildJobs (global : GlobalConfig) : List Job → List ScrapeConfig → Except ScrapeError (List Job)
  | jobs, [] => .ok jobs
  | jobs, sc :: scs =>
    match buildJob components sc global (components.jobChecksum sc global) with
    | .error e => .error e
    | .ok job => buildJobs global (setByKey Job.name job jobs) scs

def start (cfg : ScrapeConfigFile) (groups : Bytes → List TargetGroup) :
    Except ScrapeError Manager :=
  match validate components cfg with
  | .error e => .error e
  | .ok () =>
    match buildJobs components cfg.global [] cfg.scrapeConfigs with
    | .error e => .error e
    | .ok jobs => .ok (reconcileLocked components ⟨jobs, ⟨[], [], 0, []⟩⟩ groups)

/-- The first half of a reload: the jobs that the configuration does not have are stopped. -/
def removeJobs (cfg : ScrapeConfigFile) (m : Manager) : Manager :=
  let newJobNames := cfg.scrapeConfigs.map ScrapeConfig.jobName
  ⟨m.jobs.filter fun job => job.name ∈ newJobNames,
    (m.jobs.filter fun job => job.name ∉ newJobNames).foldl stopJob m.world⟩

/-- One round of the second half: a new or changed job is built, and takes the place of the old one,
which is stopped. A job that cannot be built leaves the old one. -/
def reloadJob (global : GlobalConfig) (m : Manager) (sc : ScrapeConfig) : Manager :=
  let checksum := components.jobChecksum sc global
  match findByKey Job.name sc.jobName m.jobs with
  | some old =>
    if old.checksum = checksum then m
    else
      match buildJob components sc global checksum with
      | .ok job =>
        ⟨setByKey Job.name job (dropByKey Job.name sc.jobName m.jobs), stopJob m.world old⟩
      | .error _ => m
  | none =>
    match buildJob components sc global checksum with
    | .ok job => ⟨setByKey Job.name job m.jobs, m.world⟩
    | .error _ => m

/-- The jobs of a reload, before the pass that ends it. -/
def reloadJobs (m : Manager) (cfg : ScrapeConfigFile) : Manager :=
  cfg.scrapeConfigs.foldl (reloadJob components cfg.global) (removeJobs cfg m)

def reload (m : Manager) (cfg : ScrapeConfigFile) (groups : Bytes → List TargetGroup) :
    Except ScrapeError Manager :=
  match validate components cfg with
  | .error e => .error e
  | .ok () => .ok (reconcileLocked components (reloadJobs components m cfg) groups)

end Esmetrics.Esmagent.Scrape
