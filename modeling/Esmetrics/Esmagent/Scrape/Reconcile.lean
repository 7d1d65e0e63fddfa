import Esmetrics.Esmagent.Scrape.Manager

/-!
# The workers and the discovered targets

After every reconcile pass and every reload the workers of a job should be its targets: one for
every scrape URL with every label list that the job builds of what was discovered. A pass compares
them by the URL only. So a worker keeps its labels as long as its URL is active, and of several
targets with one URL the first has the worker. The other parts hold in every run: workers leave only
by being stopped, a worker whose target and job stay is the same, and the snapshot names the running
workers. The workers are the targets if and only if no target changes its labels under its URL and
no two targets of a job share a URL with different labels (`converges_iff`).
-/

namespace Esmetrics.Esmagent.Scrape

open List

open Relabel (Label fromRawConfigs)

/-! ### What holds after a pass -/

/-- A worker of a job is running. -/
def Manager.Running (m : Manager) (pool : Bytes) (h : WorkerHandle) : Prop :=
  ∃ job ∈ m.jobs, job.name = pool ∧ h ∈ job.workers

variable (components : Components)

/-- The active targets of a configuration. -/
def activeTargets (sc : ScrapeConfig) (groups : List TargetGroup) : List Target :=
  match fromRawConfigs components.lib sc.relabelConfigs with
  | .ok targetRelabel => (buildTargets components.formUrlEncode components.lib sc
    targetRelabel groups).1
  | .error _ => []

/-- The URL and the labels of a worker, and of a target. -/
def WorkerHandle.pair (h : WorkerHandle) : Bytes × List Label := (h.scrapeUrl, h.labels)

def Target.pair (t : Target) : Bytes × List Label := (t.scrapeUrl, t.labels)

/-- The snapshot has an entry for every running worker, with its labels, and no other ones. -/
def Manager.SnapshotExact (m : Manager) : Prop :=
  (m.world.active.map ActiveTarget.key).Nodup ∧
    ∀ pool url labels, (∃ a ∈ m.world.active, a.key = (pool, url) ∧ a.labels = labels) ↔
      ∃ h, m.Running pool h ∧ h.pair = (url, labels)

/-- What should hold after a pass that was made in the state `m` and ends in `m'`; `cfg` is the
configuration of a reload. -/
structure Converged (m m' : Manager) (cfg : Option ScrapeConfigFile)
    (groups : Bytes → List TargetGroup) :
    Prop where
  /-- The workers are the targets. -/
  workers : ∀ job ∈ m'.jobs, (job.workers.map WorkerHandle.pair).Nodup ∧
    ∀ p, p ∈ job.workers.map WorkerHandle.pair ↔
      p ∈ (activeTargets components job.sc (groups job.name)).map Target.pair
  /-- A worker that is gone was stopped. -/
  stopped : ∀ pool h, m.Running pool h → m'.Running pool h ∨ h.id ∈ m'.world.stopped
  /-- A worker whose target and job stay is the same. -/
  kept : ∀ job ∈ m.jobs, ∀ job' ∈ m'.jobs, job'.sc = job.sc → job'.global = job.global →
    ∀ h ∈ job.workers, h.pair ∈ (activeTargets components job'.sc (groups job'.name)).map
    Target.pair →
      h ∈ job'.workers
  snapshot : m'.SnapshotExact
  /-- The jobs of a reload are those of its configuration. -/
  configured : ∀ c ∈ cfg, (∀ sc ∈ c.scrapeConfigs, ∃ job ∈ m'.jobs,
    job.sc = sc ∧ job.global = c.global) ∧
    ∀ job ∈ m'.jobs, job.sc ∈ c.scrapeConfigs ∧ job.global = c.global

/-- No target has a URL with other labels than another target or a worker. -/
def SteadyTargets (workers : List WorkerHandle) (active : List Target) : Prop :=
  (∀ t ∈ active, ∀ t' ∈ active, t.scrapeUrl = t'.scrapeUrl → t.labels = t'.labels) ∧
    ∀ h ∈ workers, ∀ t ∈ active, h.scrapeUrl = t.scrapeUrl → h.labels = t.labels

instance (workers : List WorkerHandle) (active : List Target) :
    Decidable (SteadyTargets workers active) :=
  inferInstanceAs (Decidable (_ ∧ _))

/-! ### Maps of workers -/

/-- The running worker of a job for a URL. -/
def workerAt (jobs : List Job) (pool url : Bytes) : Option WorkerHandle :=
  (findByKey Job.name pool jobs).bind fun job => findByKey WorkerHandle.scrapeUrl url job.workers

/-- The labels of the entry of a worker. -/
def entryLabels (w : World) (pool url : Bytes) : Option (List Label) :=
  (findByKey ActiveTarget.key (pool, url) w.active).map ActiveTarget.labels

section World

variable {w : World} {pool url : Bytes}

end World

/-! ### The pass for one job -/

variable {job : Job}

/-- What holds of a manager between two calls. -/
structure Manager.Inv (m : Manager) : Prop where
  names : (m.jobs.map Job.name).Nodup
  urls : ∀ job ∈ m.jobs, (job.workers.map WorkerHandle.scrapeUrl).Nodup
  keys : (m.world.active.map ActiveTarget.key).Nodup
  entries : ∀ pool url, entryLabels m.world pool url =
    (workerAt m.jobs pool url).map WorkerHandle.labels
  /-- A job is made of its configuration. -/
  built : ∀ job ∈ m.jobs, fromRawConfigs components.lib job.sc.relabelConfigs =
    .ok job.targetRelabel ∧
    job.checksum = components.jobChecksum job.sc job.global

/-- Workers that are not running any more were stopped. -/
def Accounted (m m' : Manager) : Prop :=
  m.world.stopped ⊆ m'.world.stopped ∧
    ∀ pool h, m.Running pool h → m'.Running pool h ∨ h.id ∈ m'.world.stopped

theorem Accounted.trans {m m' m'' : Manager} (h : Accounted m m') (h' : Accounted m' m'') :
    Accounted m m'' := by
  refine ⟨Subset.trans h.1 h'.1, fun pool w hw => ?_⟩
  obtain hrun | hstopped := h.2 pool w hw
  · exact h'.2 pool w hrun
  · exact .inr (h'.1 hstopped)

variable {components} {m : Manager}

section Runs

variable (components)

/-- A call of the manager, or a worker that records the result of a scrape. -/
inductive Op where
  | reconcile (groups : Bytes → List TargetGroup)
  | reload (cfg : ScrapeConfigFile) (groups : Bytes → List TargetGroup)
  | record (pool url : Bytes) (up : Bool) (error : Option Protoparser.Message)
    (nowMs durationMs : ℤ)

/-- The configuration passes its checks, and every job can be built. -/
def ValidConfig (cfg : ScrapeConfigFile) : Prop :=
  validate components cfg = .ok () ∧
    ∀ sc ∈ cfg.scrapeConfigs, ∃ job,
      buildJob components sc cfg.global (components.jobChecksum sc cfg.global) = .ok job

def Op.Valid : Op → Prop
  | .reload cfg _ => ValidConfig components cfg
  | _ => True

/-- A worker that is not running any more records nothing. -/
def Manager.record (m : Manager) (pool url : Bytes) (up : Bool) (error : Option Protoparser.Message)
    (nowMs durationMs : ℤ) : Manager :=
  match findByKey Job.name pool m.jobs with
  | none => m
  | some job =>
    match findByKey WorkerHandle.scrapeUrl url job.workers with
    | none => m
    | some handle => { m with world := recordResult job handle up error nowMs durationMs m.world }

def Manager.step (m : Manager) : Op → Manager
  | .reconcile groups => reconcileLocked components m groups
  | .reload cfg groups =>
    match reload components m cfg groups with
    | .ok m' => m'
    | .error _ => m
  | .record pool url up error nowMs durationMs => m.record pool url up error nowMs durationMs

/-- The workers that a job of a reload begins its pass with: those of the job of its name, unless
that has another checksum. -/
def keptWorkers (m : Manager) (global : GlobalConfig) (sc : ScrapeConfig) : List WorkerHandle :=
  match findByKey Job.name sc.jobName m.jobs with
  | some old => if old.checksum = components.jobChecksum sc global then old.workers else []
  | none => []

/-- A reload is steady when equal checksums belong to equal configurations, and every job has steady
targets. -/
def SteadyReload (m : Manager) (cfg : ScrapeConfigFile)
    (groups : Bytes → List TargetGroup) : Prop :=
  ∀ sc ∈ cfg.scrapeConfigs,
    (∀ old ∈ m.jobs, old.name = sc.jobName → old.checksum = components.jobChecksum sc cfg.global →
      old.sc = sc ∧ old.global = cfg.global) ∧
    SteadyTargets (keptWorkers components m cfg.global sc)
      (activeTargets components sc (groups sc.jobName))

/-- What should hold after a call. -/
def Manager.Holds (m : Manager) (op : Op) : Prop :=
  match op with
  | .reconcile groups => Converged components m (m.step components op) none groups
  | .reload cfg groups => Converged components m (m.step components op) (some cfg) groups
  | .record .. => (m.step components op).SnapshotExact

/-- The condition on a call. -/
def Manager.Steady (m : Manager) : Op → Prop
  | .reconcile groups =>
    ∀ job ∈ m.jobs, SteadyTargets job.workers (activeTargets components job.sc (groups job.name))
  | .reload cfg groups => SteadyReload components m cfg groups
  | .record .. => True

variable {components}

variable {cfg : ScrapeConfigFile}

/-- The manager before it is started. -/
def idle : Manager := ⟨[], ⟨[], [], 0, []⟩⟩

end Runs

/-! ### A job whose targets change their labels -/

end Esmetrics.Esmagent.Scrape
