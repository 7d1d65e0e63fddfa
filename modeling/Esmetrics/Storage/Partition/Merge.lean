import Mathlib.Data.List.Range
import Mathlib.Data.List.Dedup
import Mathlib.Data.Prod.Lex
import Esmetrics.Lib.Claims
import Esmetrics.Lib.F64
import Esmetrics.Lib.FixedWidth
import Esmetrics.Lib.Outcome
import Esmetrics.Lib.Runs
import Esmetrics.Lib.StableSort

/-!
# Claiming and merging the parts of a partition

Model of the part lists of a partition and of the workers that merge, flush and drop parts, from
`esm-storage/src/partition/merge.rs` and `esm-storage/src/partition/mod.rs`: the background
mergers, the flush of in-memory parts to files, the forced merge and the removal of stale parts.
A worker takes parts by setting their `is_in_merge` flag under the lock of the part lists, works
without the lock, and finishes by swapping the parts for the merged one or by clearing the flags.

Every action is one section under that lock. What a merge makes of its rows is an argument of the
action that ends it, restricted to what a merge may do: keep a row, or drop it because of the
retention, of a deleted series or of a newer row of the same series in the deduplication interval.

No part is ever held by two workers, no assertion about flags and lists fails, and every added row
is in exactly one registered part until it is dropped (`parts_claimed_once`).
-/

namespace Esmetrics.Partition

open List Outcome
open Function (comp_def update update_apply update_of_ne)

/-! ### Parts -/

/-- A sample; the serial number distinguishes samples that are otherwise equal. -/
structure Row where
  serial : ℕ
  metricId : UInt64
  timestamp : ℤ
  deriving DecidableEq

/-- A part. The pointer of its `Arc` identifies it. -/
structure PartWrapper where
  ptr : ℕ
  rows : List Row
  size : ℕ
  /-- The part has an in-memory part behind it (`mp`). -/
  isInmemory : Bool
  flushToDiskDeadline : ℕ
  deriving DecidableEq

/-- The constant `i64::MIN`, the largest timestamp of an empty part. -/
def i64Min : ℤ := -2 ^ 63

/-- The field `ph.max_timestamp`. -/
def PartWrapper.maxTimestamp (pw : PartWrapper) : ℤ :=
  (pw.rows.map Row.timestamp).foldr max i64Min

/-- The field `ph.min_timestamp`. -/
def PartWrapper.minTimestamp (pw : PartWrapper) : ℤ :=
  (pw.rows.map Row.timestamp).foldr min i64Max

/-- Where a part is registered. -/
inductive PartType where
  | inmemory
  | small
  | big
  deriving DecidableEq

def getPartsSize (pws : List PartWrapper) : ℕ := (pws.map PartWrapper.size).sum

def areAllInmemoryParts (pws : List PartWrapper) : Bool := pws.all PartWrapper.isInmemory

/-- The deadline of a merged in-memory part: the earliest of those of its sources. -/
def getFlushToDiskDeadline (limit : ℕ) (pws : List PartWrapper) : ℕ :=
  pws.foldl (fun d pw => if pw.isInmemory && pw.flushToDiskDeadline < d then
    pw.flushToDiskDeadline else d) limit

/-! ### The choice of parts to merge -/

def minMergeMultiplier : F64 := .ofRat (17 / 10)

def defaultPartsToMerge : ℕ := 15

/-- The order of the candidates: by size, and by backwards smallest timestamp. -/
def mergeKey (pw : PartWrapper) : ℕ ×ₗ ℤᵒᵈ := toLex (pw.size, OrderDual.toDual pw.minTimestamp)

/-- The best window so far, as its start and length, and its ratio. -/
structure BestWindow where
  best : Option (ℕ × ℕ)
  maxM : F64

/-- The inner loop, over the starts `js` of the windows of length `i`. -/
def searchWindows (src : List PartWrapper) (maxOutBytes i : ℕ) :
    List ℕ → BestWindow → BestWindow
  | [], st => st
  | j :: js, st =>
    let a := (src.drop j).take i
    let first := (a.head?.map PartWrapper.size).getD 0
    let last := (a.getLast?.map PartWrapper.size).getD 0
    -- parts of too different sizes are not merged
    if first * a.length < last then searchWindows src maxOutBytes i js st
    else
      let outSize := getPartsSize a
      if outSize > maxOutBytes then st
      else
        let m := F64.div (.ofRat outSize) (.ofRat last)
        if F64.lt m st.maxM then searchWindows src maxOutBytes i js st
        else searchWindows src maxOutBytes i js ⟨some (j, i), m⟩

/-- Finds the parts whose merge has the lowest write amplification. -/
def appendPartsToMerge (src : List PartWrapper) (maxPartsToMerge maxOutBytes : ℕ) :
    Outcome (List PartWrapper) :=
  if src.length < 2 then .ok []
  else do
    .assert (2 ≤ maxPartsToMerge) "BUG: maxPartsToMerge cannot be smaller than 2"
    let maxInPartBytes := F64.toU64 (.div (.ofRat maxOutBytes) minMergeMultiplier)
    let src := sortByKey mergeKey (src.filter fun pw => pw.size ≤ maxInPartBytes)
    let maxSrcParts := min maxPartsToMerge src.length
    let minSrcParts := max ((maxSrcParts + 1) / 2) 2
    let st := (List.range' minSrcParts (maxSrcParts + 1 - minSrcParts)).foldl
      (fun st i => searchWindows src maxOutBytes i (List.range (src.length - i + 1)) st)
      ⟨none, .fin 0⟩
    let minM := F64.max (.div (.ofRat maxPartsToMerge) (.ofRat 2)) minMergeMultiplier
    if F64.lt st.maxM minM then .ok []
    else
      match st.best with
      | none => .panic "BUG: best merge window must be set when max_m >= min_m"
      | some (j, i) => .ok ((src.drop j).take i)

/-- Splits the parts into those to merge first and the rest. -/
def getPartsForOptimalMerge (pws : List PartWrapper) :
    Outcome (List PartWrapper × List PartWrapper) := do
  let pwsToMerge ← appendPartsToMerge pws defaultPartsToMerge (2 ^ 64 - 1)
  if pwsToMerge.isEmpty then .ok (pws, [])
  else .ok (pwsToMerge, pws.filter fun pw => !(pwsToMerge.map PartWrapper.ptr).contains pw.ptr)

/-! ### Workers -/

/-- Why a merge or a removal dropped a row. -/
inductive DropReason where
  /-- The row was older than the deadline. -/
  | retention (deadline : ℤ)
  /-- The series of the row was deleted. -/
  | deletion (dmis : List UInt64)
  /-- Another row of the series, not older and closer than the interval, was kept. -/
  | dedup (interval : ℤ) (kept : Row)
  deriving DecidableEq

/-- A row that is gone. -/
structure Dropped where
  row : Row
  reason : DropReason
  deriving DecidableEq

/-- The reason applies to the row. -/
def Dropped.Justified (d : Dropped) : Prop :=
  match d.reason with
  | .retention deadline => d.row.timestamp < deadline
  | .deletion dmis => d.row.metricId ∈ dmis
  | .dedup interval kept => kept.metricId = d.row.metricId ∧
      d.row.timestamp ≤ kept.timestamp ∧ kept.timestamp < d.row.timestamp + interval

instance (d : Dropped) : Decidable d.Justified := by
  unfold Dropped.Justified
  split <;> infer_instance

/-- What a worker is doing, with the parts it has taken and not given back. -/
inductive Phase where
  | idle
  /-- A merger that has its parts and waits for the semaphore. -/
  | claimed (pws : List PartWrapper)
  /-- A forced merge that has not looked at the free disk space yet. -/
  | forceClaimed (pws : List PartWrapper)
  /-- The loop of `merge_parts_to_files`, with the parts that have no thread yet. -/
  | mergingToFiles (pws : List PartWrapper)
  /-- At the start of `merge_parts`. -/
  | starting (pws : List PartWrapper) (isFinal : Bool)
  /-- In `merge_parts_inner`. -/
  | merging (pws : List PartWrapper) (isFinal : Bool)
  /-- After `merge_parts_inner`, at the end of `merge_parts`. -/
  | releasing (pws : List PartWrapper)
  /-- A removal of the parts before a deadline, before the swap. -/
  | removingStale (pws : List PartWrapper) (deadline : ℤ)

/-- The parts a worker holds. -/
def Phase.held : Phase → List PartWrapper
  | .idle => []
  | .claimed pws | .forceClaimed pws | .mergingToFiles pws | .starting pws _ | .merging pws _
  | .releasing pws | .removingStale pws _ => pws

/-- A partition: the part lists, the flags of the parts by pointer, and the workers. The rows that
were added and those that were dropped are recorded for the statements. -/
structure PtInner where
  inmemoryParts : List PartWrapper
  smallParts : List PartWrapper
  bigParts : List PartWrapper
  isInMerge : ℕ → Bool
  nextPtr : ℕ
  worker : ℕ → Phase
  panicked : Option String
  added : List Row
  dropped : List Dropped

namespace PtInner

/-- The registered parts. -/
def parts (s : PtInner) : List PartWrapper := s.inmemoryParts ++ s.smallParts ++ s.bigParts

/-- The list of a part type. -/
def list (s : PtInner) : PartType → List PartWrapper
  | .inmemory => s.inmemoryParts
  | .small => s.smallParts
  | .big => s.bigParts

/-- Appends a part to a list. -/
def push (s : PtInner) (pw : PartWrapper) : PartType → PtInner
  | .inmemory => { s with inmemoryParts := s.inmemoryParts ++ [pw] }
  | .small => { s with smallParts := s.smallParts ++ [pw] }
  | .big => { s with bigParts := s.bigParts ++ [pw] }

/-- A worker goes to its next phase. -/
def goto (s : PtInner) (w : ℕ) (p : Phase) : PtInner :=
  { s with worker := update s.worker w p }

/-- Numbers the samples of a new part. -/
def label (n : ℕ) (samples : List (UInt64 × ℤ)) : List Row :=
  samples.zipIdx.map fun x => ⟨n + x.2, x.1.1, x.1.2⟩

/-- Registers a new part, whose flag is not set. -/
def addPart (s : PtInner) (t : PartType) (samples : List (UInt64 × ℤ)) (size deadline : ℕ) :
    PtInner :=
  let rows := label s.added.length samples
  { s.push ⟨s.nextPtr, rows, size, t == .inmemory, deadline⟩ t with
    nextPtr := s.nextPtr + 1, added := s.added ++ rows }

/-- A partition without parts. -/
def empty : PtInner := ⟨[], [], [], fun _ => false, 0, fun _ => .idle, none, [], []⟩

/-- A partition that has just been opened, with its file parts. -/
def mustOpen (smallParts bigParts : List (List (UInt64 × ℤ) × ℕ)) : PtInner :=
  bigParts.foldl (fun s p => s.addPart .big p.1 p.2 0)
    (smallParts.foldl (fun s p => s.addPart .small p.1 p.2 0) empty)

end PtInner

/-- Sets the flags of the parts, each of which must be clear. -/
def setInMerge (msg : String) (flags : ℕ → Bool) : List PartWrapper → Outcome (ℕ → Bool)
  | [] => .ok flags
  | pw :: pws =>
    if flags pw.ptr then .panic msg
    else setInMerge msg (update flags pw.ptr true) pws

/-- Clears the flags of the parts, each of which must be set. -/
def clearInMerge (flags : ℕ → Bool) : List PartWrapper → Outcome (ℕ → Bool)
  | [] => .ok flags
  | pw :: pws =>
    if flags pw.ptr then clearInMerge (update flags pw.ptr false) pws
    else .panic "BUG: missing isInMerge flag on the part"

/-- Takes the parts of a list that are not in a merge and satisfy a condition. -/
def collect (cond : PartWrapper → Bool) :
    (ℕ → Bool) × List PartWrapper → List PartWrapper → (ℕ → Bool) × List PartWrapper
  | acc, [] => acc
  | (flags, pws), pw :: list =>
    if !flags pw.ptr && cond pw then
      collect cond (update flags pw.ptr true, pws ++ [pw]) list
    else collect cond (flags, pws) list

def hasActiveMerges (flags : ℕ → Bool) (pws : List PartWrapper) : Bool :=
  pws.any fun pw => flags pw.ptr

namespace PtInner

/-- Takes the parts of a list that are best merged. -/
def getPartsToMerge (s : PtInner) (pws : List PartWrapper) (maxOutBytes : ℕ) :
    Outcome ((ℕ → Bool) × List PartWrapper) := do
  let pwsRemaining := pws.filter fun pw => !s.isInMerge pw.ptr
  let pwsToMerge ← appendPartsToMerge pwsRemaining defaultPartsToMerge maxOutBytes
  let flags ← setInMerge "BUG: partWrapper.isInMerge cannot be set" s.isInMerge pwsToMerge
  .ok (flags, pwsToMerge)

/-- Takes all parts, unless one of them is in a merge. -/
def getAllPartsForMerge (s : PtInner) : Outcome ((ℕ → Bool) × List PartWrapper) :=
  if hasActiveMerges s.isInMerge s.inmemoryParts || hasActiveMerges s.isInMerge s.smallParts ||
      hasActiveMerges s.isInMerge s.bigParts then .ok (s.isInMerge, [])
  else do
    let flags ← setInMerge "BUG: part is already in merge" s.isInMerge s.inmemoryParts
    let flags ← setInMerge "BUG: part is already in merge" flags s.smallParts
    let flags ← setInMerge "BUG: part is already in merge" flags s.bigParts
    .ok (flags, s.parts)

/-- Gives the parts back. -/
def releasePartsToMerge (s : PtInner) (pws : List PartWrapper) : Outcome PtInner := do
  let flags ← clearInMerge s.isInMerge pws
  .ok { s with isInMerge := flags }

/-- Replaces the parts by a new one, if there is one. -/
def swapSrcWithDstParts (s : PtInner) (pws : List PartWrapper) (pwNew : Option PartWrapper)
    (dstPartType : PartType) : Outcome PtInner := do
  let m := (pws.map PartWrapper.ptr).dedup
  .assert (m.length = pws.length) "BUG: duplicate parts found in source parts"
  let retain (l : List PartWrapper) := l.filter fun pw => !m.contains pw.ptr
  let removed (l : List PartWrapper) := l.length - (retain l).length
  let s' := { s with
    inmemoryParts := retain s.inmemoryParts
    smallParts := retain s.smallParts
    bigParts := retain s.bigParts }
  let s' := match pwNew with
    | some pw => s'.push pw dstPartType
    | none => s'
  .assert (removed s.inmemoryParts + removed s.smallParts + removed s.bigParts = m.length)
    "BUG: unexpected number of parts removed"
  .ok s'

end PtInner

/-- What the environment decides about a merge: the sizes, the clocks, the deleted series, and
the rows that are kept and dropped. -/
structure MergeEnv where
  maxSmallPartSize : ℕ
  maxInmemoryPartSize : ℕ
  currentTimestamp : ℤ
  dmis : List UInt64
  kept : List Row
  drops : List Dropped
  size : ℕ
  flushLimit : ℕ

/-- The type of the merged part. -/
def getDstPartType (env : MergeEnv) (pws : List PartWrapper) (isFinal : Bool) : PartType :=
  let dstPartSize := getPartsSize pws
  if dstPartSize > env.maxSmallPartSize then .big
  else if isFinal || dstPartSize > env.maxInmemoryPartSize then .small
  else if !areAllInmemoryParts pws then .small
  else .inmemory

/-- The steps of the workers; every step but the first names its worker. -/
inductive Action where
  | addToInmemoryParts (samples : List (UInt64 × ℤ)) (size deadline : ℕ)
  /-- A merger of the parts of one type takes parts. -/
  | getPartsToMerge (w : ℕ) (t : PartType) (maxOutBytes : ℕ)
  /-- The merger gets the semaphore, or is stopped while it waits. -/
  | acquireOrStop (w : ℕ) (stopped : Bool)
  | flushInmemoryPartsToFiles (w : ℕ) (isFinal : Bool) (currentTime : ℕ)
  | forceMergeAllParts (w : ℕ)
  | checkFreeSpace (w : ℕ) (freeSpace : ℕ)
  /-- `merge_parts_to_files` starts a thread for the next group of parts, or returns. -/
  | mergeGroup (w thread : ℕ)
  | mergeParts (w : ℕ)
  | finishMerge (w : ℕ) (env : MergeEnv)
  /-- The merge is stopped, or fails. -/
  | abortMerge (w : ℕ)
  | releasePartsToMerge (w : ℕ)
  | removeStaleParts (w : ℕ) (now : ℤ)
  | swapStaleParts (w : ℕ)
  deriving Inhabited

section Model

variable (retentionMsecs dedupInterval : ℤ)

/-- A merge may drop this row. -/
def MergeEnv.Allows (env : MergeEnv) (d : Dropped) : Prop :=
  d.Justified ∧
  match d.reason with
  | .retention deadline => deadline = env.currentTimestamp - retentionMsecs
  | .deletion dmis => dmis = env.dmis
  | .dedup interval kept => 0 < dedupInterval ∧ interval = dedupInterval ∧ kept ∈ env.kept

instance (env : MergeEnv) (d : Dropped) :
    Decidable (env.Allows retentionMsecs dedupInterval d) := by
  unfold MergeEnv.Allows
  refine @instDecidableAnd _ _ inferInstance ?_
  split <;> infer_instance

/-- A merge keeps or drops each of these rows once. -/
def MergeEnv.Merges (env : MergeEnv) (src : List Row) : Prop :=
  (env.kept ++ env.drops.map Dropped.row).Perm src ∧
  ∀ d ∈ env.drops, env.Allows retentionMsecs dedupInterval d

instance (env : MergeEnv) (src : List Row) :
    Decidable (env.Merges retentionMsecs dedupInterval src) := by
  unfold MergeEnv.Merges
  infer_instance

namespace PtInner

/-- The part of a merge, unless it has no rows. -/
def openCreatedPart (s : PtInner) (env : MergeEnv) (pws : List PartWrapper)
    (dstPartType : PartType) : Option PartWrapper :=
  if env.kept.isEmpty then none
  else some ⟨s.nextPtr, env.kept, env.size, dstPartType == .inmemory,
    getFlushToDiskDeadline env.flushLimit pws⟩

/-- The merge of the parts. A single in-memory part that goes to disk is stored as it is when
deduplication is off; otherwise the rows are merged, and an empty result is not registered. -/
def mergePartsInner (s : PtInner) (pws : List PartWrapper) (isFinal : Bool) (env : MergeEnv) :
    Option (Outcome PtInner) :=
  let dstPartType := getDstPartType env pws isFinal
  let rows := pws.flatMap PartWrapper.rows
  if ¬ 0 < dedupInterval ∧ isFinal ∧ pws.length = 1 ∧ areAllInmemoryParts pws then
    if env.kept = rows ∧ env.drops = [] then
      some <| do
        .assert (dstPartType ≠ .inmemory) "BUG: dstPartPath must be non-empty"
        let s' ← s.swapSrcWithDstParts pws (some ⟨s.nextPtr, rows, env.size, false, 0⟩) dstPartType
        .ok { s' with nextPtr := s.nextPtr + 1 }
    else none
  else if env.Merges retentionMsecs dedupInterval rows then
    some <| do
      let pwNew := s.openCreatedPart env pws dstPartType
      let s' ← s.swapSrcWithDstParts pws pwNew dstPartType
      .ok { s' with nextPtr := s.nextPtr + 1, dropped := s.dropped ++ env.drops }
  else none

/-- A part all of whose rows are older than the deadline. -/
def isStale (now : ℤ) (pw : PartWrapper) : Bool := decide (pw.maxTimestamp < now - retentionMsecs)

/-- One step, if the worker can take it. -/
def act (s : PtInner) : Action → Option (Outcome PtInner)
  | .addToInmemoryParts samples size deadline =>
    some (.ok (s.addPart .inmemory samples size deadline))
  | .getPartsToMerge w t maxOutBytes =>
    match s.worker w with
    | .idle => some <| do
      let (flags, pws) ← s.getPartsToMerge (s.list t) maxOutBytes
      .ok { s.goto w (if pws.isEmpty then .idle else .claimed pws) with isInMerge := flags }
    | _ => none
  | .acquireOrStop w stopped =>
    match s.worker w with
    | .claimed pws =>
      if stopped then some <| (s.goto w .idle).releasePartsToMerge pws
      else some (.ok (s.goto w (.starting pws false)))
    | _ => none
  | .flushInmemoryPartsToFiles w isFinal currentTime =>
    match s.worker w with
    | .idle =>
      let (flags, pws) :=
        collect (fun pw => isFinal || decide (pw.flushToDiskDeadline < currentTime))
        (s.isInMerge, []) s.inmemoryParts
      some (.ok { s.goto w (.mergingToFiles pws) with isInMerge := flags })
    | _ => none
  | .forceMergeAllParts w =>
    match s.worker w with
    | .idle => some <| do
      let (flags, pws) ← s.getAllPartsForMerge
      .ok { s.goto w (if pws.isEmpty then .idle else .forceClaimed pws) with isInMerge := flags }
    | _ => none
  | .checkFreeSpace w freeSpace =>
    match s.worker w with
    | .forceClaimed pws =>
      if getPartsSize pws > freeSpace then some <| (s.goto w .idle).releasePartsToMerge pws
      else some (.ok (s.goto w (.mergingToFiles pws)))
    | _ => none
  | .mergeGroup w thread =>
    match s.worker w with
    | .mergingToFiles pws =>
      if pws.isEmpty then some (.ok (s.goto w .idle))
      else if thread = w then none
      else
        match s.worker thread with
        | .idle => some <| do
          let (pwsToMerge, pwsRemaining) ← getPartsForOptimalMerge pws
          .ok ((s.goto w (.mergingToFiles pwsRemaining)).goto thread (.starting pwsToMerge true))
        | _ => none
    | _ => none
  | .mergeParts w =>
    match s.worker w with
    | .starting pws isFinal => some <| do
      .assert (pws ≠ []) "BUG: empty pws cannot be passed to merge_parts()"
      .assert (∀ pw ∈ pws, s.isInMerge pw.ptr)
        "BUG: partWrapper.isInMerge unexpectedly set to false"
      .ok (s.goto w (.merging pws isFinal))
    | _ => none
  | .finishMerge w env =>
    match s.worker w with
    | .merging pws isFinal =>
      (s.goto w (.releasing pws)).mergePartsInner retentionMsecs dedupInterval pws isFinal env
    | _ => none
  | .abortMerge w =>
    match s.worker w with
    | .merging pws _ => some (.ok (s.goto w (.releasing pws)))
    | _ => none
  | .releasePartsToMerge w =>
    match s.worker w with
    | .releasing pws => some <| (s.goto w .idle).releasePartsToMerge pws
    | _ => none
  | .removeStaleParts w now =>
    match s.worker w with
    | .idle =>
      let acc := collect (isStale retentionMsecs now) (s.isInMerge, []) s.inmemoryParts
      let acc := collect (isStale retentionMsecs now) acc s.smallParts
      let (flags, pws) := collect (isStale retentionMsecs now) acc s.bigParts
      some (.ok { s.goto w (.removingStale pws (now - retentionMsecs)) with isInMerge := flags })
    | _ => none
  | .swapStaleParts w =>
    match s.worker w with
    | .removingStale pws deadline => some <| do
      let s' ← (s.goto w .idle).swapSrcWithDstParts pws none .small
      .ok { s' with dropped := s.dropped ++ (pws.flatMap PartWrapper.rows).map fun row =>
        ⟨row, .retention deadline⟩ }
    | _ => none

/-- A step of a process that has not aborted; a failed assertion aborts it. -/
def step (s : PtInner) (a : Action) : Option PtInner :=
  if s.panicked.isSome then none
  else (s.act retentionMsecs dedupInterval a).map fun
    | .ok s' => s'
    | .err msg | .panic msg => { s with panicked := some msg }

end PtInner

end Model

/-! ### The choice is a choice among the candidates -/

/-- The ratio is still zero when no window was found. -/
theorem searchWindows_best (src : List PartWrapper) (maxOutBytes i : ℕ) :
    ∀ (js : List ℕ) (st : BestWindow), (st.best = none → st.maxM = .fin 0) →
      (searchWindows src maxOutBytes i js st).best = none →
        (searchWindows src maxOutBytes i js st).maxM = .fin 0
  | [], _, h => h
  | j :: js, st, h => by
    simp only [searchWindows]
    split_ifs
    · exact searchWindows_best src maxOutBytes i js st h
    · exact h
    · exact searchWindows_best src maxOutBytes i js st h
    · exact searchWindows_best src maxOutBytes i js _ nofun

/-- The parts to merge are some of the candidates, and the choice never panics. -/
theorem appendPartsToMerge_eq_ok (src : List PartWrapper) {maxPartsToMerge : ℕ}
    (hmax : 2 ≤ maxPartsToMerge) (maxOutBytes : ℕ) :
    ∃ pws, appendPartsToMerge src maxPartsToMerge maxOutBytes = .ok pws ∧ pws.Subperm src := by
  rw [appendPartsToMerge]
  split_ifs with hlen
  · exact ⟨[], rfl, nil_subperm⟩
  rw [assert_of hmax, ok_bind]
  dsimp only
  generalize F64.toU64 (.div (.ofRat maxOutBytes) minMergeMultiplier) = maxInPartBytes
  generalize hsrc : sortByKey mergeKey (src.filter fun pw => pw.size ≤ maxInPartBytes) = sorted
  have hsub : sorted.Subperm src :=
    hsrc ▸ ((sortByKey_perm _ _).subperm.trans filter_sublist.subperm)
  have hbest : ∀ (is : List ℕ) (st : BestWindow), (st.best = none → st.maxM = .fin 0) →
      (is.foldl (fun st i => searchWindows sorted maxOutBytes i
        (List.range (sorted.length - i + 1)) st) st).best = none →
      (is.foldl (fun st i => searchWindows sorted maxOutBytes i
        (List.range (sorted.length - i + 1)) st) st).maxM = .fin 0 := by
    intro is
    induction is with
    | nil => exact fun _ h => h
    | cons i is ih => exact fun st h => ih _ (searchWindows_best _ _ _ _ _ h)
  have hminM : F64.lt (.fin 0)
      (F64.max (.div (.ofRat maxPartsToMerge) (.ofRat 2)) minMergeMultiplier) = true := by
    have hpos : (0 : ℚ) < maxPartsToMerge := by exact_mod_cast (by omega : 0 < maxPartsToMerge)
    have htwo : roundF64 2 ≠ 0 := (roundF64_pos (by norm_num)).ne'
    refine F64.zero_lt_max ?_ (F64.zero_lt_ofRat (by norm_num))
    rw [F64.ofRat, F64.ofRat, F64.div, if_neg htwo]
    exact F64.zero_lt_ofRat (div_pos (roundF64_pos hpos) (roundF64_pos (by norm_num)))
  split_ifs with hlt
  · exact ⟨[], rfl, nil_subperm⟩
  split
  · next hnone =>
    rw [hbest _ _ (fun _ => rfl) hnone] at hlt
    exact absurd hminM hlt
  · exact ⟨_, rfl, ((take_sublist _ _).trans (drop_sublist _ _)).subperm.trans hsub⟩

/-! ### Flags -/

/-- The pointers of the parts. -/
def ptrs (pws : List PartWrapper) : List ℕ := pws.map PartWrapper.ptr

theorem mem_ptrs {pws : List PartWrapper} {pw : PartWrapper} (h : pw ∈ pws) : pw.ptr ∈ ptrs pws :=
  mem_map_of_mem h

/-- Parts whose pointers are distinct and that are not in a merge can be taken. -/
theorem setInMerge_eq_ok (msg : String) : ∀ {pws : List PartWrapper} {flags : ℕ → Bool},
    (ptrs pws).Nodup → (∀ pw ∈ pws, flags pw.ptr = false) →
      ∃ flags', setInMerge msg flags pws = .ok flags' ∧
        ∀ n, flags' n = true ↔ flags n = true ∨ n ∈ ptrs pws
  | [], flags, _, _ => ⟨flags, rfl, by simp [ptrs]⟩
  | pw :: pws, flags, hnd, hclear => by
    obtain ⟨hnot, hnd⟩ := nodup_cons.mp hnd
    have hrest : ∀ p ∈ pws, update flags pw.ptr true p.ptr = false := by
      intro p hp
      have hne : p.ptr ≠ pw.ptr := fun heq => hnot (heq ▸ mem_ptrs hp)
      rw [update_of_ne hne]
      exact hclear p (mem_cons_of_mem _ hp)
    obtain ⟨flags', heq, hflags⟩ := setInMerge_eq_ok msg hnd hrest
    refine ⟨flags', ?_, ?_⟩
    · rw [setInMerge, hclear pw mem_cons_self]
      exact heq
    · intro n
      rw [hflags, update_apply, show ptrs (pw :: pws) = pw.ptr :: ptrs pws from rfl,
        mem_cons]
      split_ifs with hn <;> simp [hn]

/-- Parts whose pointers are distinct and that are in a merge can be given back. -/
theorem clearInMerge_eq_ok : ∀ {pws : List PartWrapper} {flags : ℕ → Bool},
    (ptrs pws).Nodup → (∀ pw ∈ pws, flags pw.ptr = true) →
      ∃ flags', clearInMerge flags pws = .ok flags' ∧
        ∀ n, flags' n = true ↔ flags n = true ∧ n ∉ ptrs pws
  | [], flags, _, _ => ⟨flags, rfl, by simp [ptrs]⟩
  | pw :: pws, flags, hnd, hset => by
    obtain ⟨hnot, hnd⟩ := nodup_cons.mp hnd
    have hrest : ∀ p ∈ pws, update flags pw.ptr false p.ptr = true := by
      intro p hp
      have hne : p.ptr ≠ pw.ptr := fun heq => hnot (heq ▸ mem_ptrs hp)
      rw [update_of_ne hne]
      exact hset p (mem_cons_of_mem _ hp)
    obtain ⟨flags', heq, hflags⟩ := clearInMerge_eq_ok hnd hrest
    refine ⟨flags', ?_, ?_⟩
    · rw [clearInMerge, hset pw mem_cons_self]
      exact heq
    · intro n
      rw [hflags, update_apply, show ptrs (pw :: pws) = pw.ptr :: ptrs pws from rfl,
        mem_cons]
      split_ifs with hn <;> simp [hn]

/-- What `collect` has taken: a sublist of what it has gone over, whose flags were clear. -/
structure Collected (cond : PartWrapper → Bool) (flags₀ : ℕ → Bool) (seen : List PartWrapper)
    (acc : (ℕ → Bool) × List PartWrapper) : Prop where
  sublist : List.Sublist acc.2 seen
  clear : ∀ pw ∈ acc.2, flags₀ pw.ptr = false
  cond : ∀ pw ∈ acc.2, cond pw = true
  flags : ∀ n, acc.1 n = true ↔ flags₀ n = true ∨ n ∈ ptrs acc.2

theorem Collected.nil (cond : PartWrapper → Bool) (flags₀ : ℕ → Bool) :
    Collected cond flags₀ [] (flags₀, []) :=
  ⟨.slnil, by simp, by simp, by simp [ptrs]⟩

theorem Collected.collect {cond : PartWrapper → Bool} {flags₀ : ℕ → Bool} :
    ∀ {list seen : List PartWrapper} {acc : (ℕ → Bool) × List PartWrapper},
      Collected cond flags₀ seen acc →
        Collected cond flags₀ (seen ++ list) (Partition.collect cond acc list)
  | [], seen, (flags, pws), h => by
    rw [append_nil]
    exact h
  | pw :: list, seen, (flags, pws), h => by
    rw [Partition.collect, ← singleton_append, ← append_assoc]
    split_ifs with hcond
    · obtain ⟨hflag, hc⟩ := by simpa using hcond
      have hclear : flags₀ pw.ptr = false := by
        by_contra hne
        have := (h.flags pw.ptr).mpr (.inl (by simpa using hne))
        exact absurd (this : flags pw.ptr = true) (by simp [hflag])
      refine Collected.collect ⟨h.sublist.append (.refl _), ?_, ?_, ?_⟩
      · intro p hp
        obtain hp | hp := mem_append.mp hp
        · exact h.clear p hp
        · rw [mem_singleton.mp hp]; exact hclear
      · intro p hp
        obtain hp | hp := mem_append.mp hp
        · exact h.cond p hp
        · rw [mem_singleton.mp hp]; exact hc
      · intro n
        have hn := h.flags n
        simp only [ptrs, map_append, mem_append, map_cons, map_nil,
          mem_singleton, update_apply] at hn ⊢
        split_ifs with heq
        · simp [heq]
        · rw [hn]; simp [heq]
    · exact Collected.collect ⟨h.sublist.trans (sublist_append_left _ _), h.clear, h.cond,
        h.flags⟩

/-! ### The swap -/

/-- The parts of a list that are not among the given ones. -/
def without (pws l : List PartWrapper) : List PartWrapper :=
  l.filter fun pw => !(ptrs pws).contains pw.ptr

theorem mem_without {pws l : List PartWrapper} {pw : PartWrapper} :
    pw ∈ without pws l ↔ pw ∈ l ∧ pw.ptr ∉ ptrs pws := by
  simp [without]

theorem without_sublist (pws l : List PartWrapper) : (without pws l).Sublist l :=
  filter_sublist

theorem without_append (pws l l' : List PartWrapper) :
    without pws (l ++ l') = without pws l ++ without pws l' :=
  filter_append ..

/-- A list of parts is made of some of its parts and of the others. -/
theorem perm_without_append {pws l : List PartWrapper} (hnd : (ptrs l).Nodup)
    (hnd' : (ptrs pws).Nodup) (hsub : ∀ pw ∈ pws, pw ∈ l) :
    l.Perm (without pws l ++ pws) :=
  perm_filter_append hnd hnd' hsub

namespace PtInner

variable {s : PtInner}

theorem parts_push (s : PtInner) (pw : PartWrapper) (t : PartType) :
    (s.push pw t).parts.Perm (s.parts ++ [pw]) := by
  cases t with
  | inmemory =>
    simp only [push, parts, append_assoc]
    refine .append_left _ ?_
    rw [← append_assoc s.smallParts]
    exact perm_append_comm
  | small =>
    simp only [push, parts, append_assoc]
    exact .append_left _ (.append_left _ perm_append_comm)
  | big => simp [push, parts]

/-- What a swap leaves. -/
structure Swapped (s : PtInner) (pws : List PartWrapper) (pwNew : Option PartWrapper)
    (s' : PtInner) : Prop where
  parts : s'.parts.Perm (without pws s.parts ++ pwNew.toList)
  isInMerge : s'.isInMerge = s.isInMerge
  nextPtr : s'.nextPtr = s.nextPtr
  worker : s'.worker = s.worker
  panicked : s'.panicked = s.panicked
  added : s'.added = s.added
  dropped : s'.dropped = s.dropped

/-- The swap of registered parts passes its assertions. -/
theorem swapSrcWithDstParts_eq_ok (hnd : (ptrs s.parts).Nodup) {pws : List PartWrapper}
    (hnd' : (ptrs pws).Nodup) (hsub : ∀ pw ∈ pws, pw ∈ s.parts) (pwNew : Option PartWrapper)
    (t : PartType) :
    ∃ s', s.swapSrcWithDstParts pws pwNew t = .ok s' ∧ s.Swapped pws pwNew s' := by
  have hdedup : (pws.map PartWrapper.ptr).dedup = ptrs pws := Nodup.dedup hnd'
  have hlen : (ptrs pws).length = pws.length := length_map ..
  have hremoved : s.inmemoryParts.length - (without pws s.inmemoryParts).length +
      (s.smallParts.length - (without pws s.smallParts).length) +
      (s.bigParts.length - (without pws s.bigParts).length) = (ptrs pws).length := by
    have hperm := (perm_without_append hnd hnd' hsub).length_eq
    simp only [parts, without_append, length_append] at hperm
    have := (without_sublist pws s.inmemoryParts).length_le
    have := (without_sublist pws s.smallParts).length_le
    have := (without_sublist pws s.bigParts).length_le
    omega
  have hrest : (⟨without pws s.inmemoryParts, without pws s.smallParts, without pws s.bigParts,
      s.isInMerge, s.nextPtr, s.worker, s.panicked, s.added, s.dropped⟩ : PtInner).parts =
        without pws s.parts := by
    simp only [parts, without_append]
  simp only [swapSrcWithDstParts, hdedup]
  simp only [without] at hremoved hrest
  rw [assert_of hlen, ok_bind, Outcome.assert, if_pos hremoved, ok_bind]
  refine ⟨_, rfl, ?_⟩
  cases pwNew with
  | none =>
    refine ⟨?_, rfl, rfl, rfl, rfl, rfl, rfl⟩
    rw [hrest]
    simp [without]
  | some pw =>
    refine ⟨(parts_push _ pw t).trans ?_, ?_, ?_, ?_, ?_, ?_, ?_⟩
    · rw [hrest]
      exact .refl _
    all_goals cases t <;> rfl

end PtInner

/-! ### The invariant -/

/-- What a phase says about the registered parts. -/
def Phase.WF (parts : List PartWrapper) : Phase → Prop
  | .idle | .releasing _ => True
  | .claimed pws | .starting pws _ => pws ≠ [] ∧ ∀ pw ∈ pws, pw ∈ parts
  | .forceClaimed pws | .mergingToFiles pws | .merging pws _ => ∀ pw ∈ pws, pw ∈ parts
  | .removingStale pws deadline =>
    (∀ pw ∈ pws, pw ∈ parts) ∧ ∀ pw ∈ pws, ∀ row ∈ pw.rows, row.timestamp < deadline

theorem Phase.WF.mono {parts parts' : List PartWrapper} {p : Phase} (h : p.WF parts)
    (hmem : ∀ pw ∈ p.held, pw ∈ parts → pw ∈ parts') : p.WF parts' := by
  cases p with
  | idle => trivial
  | releasing pws => trivial
  | claimed pws => exact ⟨h.1, fun pw hpw => hmem pw hpw (h.2 pw hpw)⟩
  | starting pws isFinal => exact ⟨h.1, fun pw hpw => hmem pw hpw (h.2 pw hpw)⟩
  | forceClaimed pws => exact fun pw hpw => hmem pw hpw (h pw hpw)
  | mergingToFiles pws => exact fun pw hpw => hmem pw hpw (h pw hpw)
  | merging pws isFinal => exact fun pw hpw => hmem pw hpw (h pw hpw)
  | removingStale pws deadline => exact ⟨fun pw hpw => hmem pw hpw (h.1 pw hpw), h.2⟩

namespace PtInner

/-- What holds between any two steps of a partition. -/
structure Inv (s : PtInner) : Prop where
  not_panicked : s.panicked = none
  ptr_lt : ∀ n ∈ ptrs s.parts, n < s.nextPtr
  nodup : (ptrs s.parts).Nodup
  claims : ClaimsOk (fun w => ptrs (s.worker w).held) s.isInMerge
  flag_lt : ∀ n, s.isInMerge n = true → n < s.nextPtr
  wf : ∀ w, (s.worker w).WF s.parts
  rows : (s.parts.flatMap PartWrapper.rows ++ s.dropped.map Dropped.row).Perm s.added
  serials : s.added.map Row.serial = List.range s.added.length
  justified : ∀ d ∈ s.dropped, d.Justified

variable {s : PtInner}

theorem worker_goto (s : PtInner) (w : ℕ) (p : Phase) (w' : ℕ) :
    (s.goto w p).worker w' = if w' = w then p else s.worker w' :=
  update_apply ..

theorem held_goto (s : PtInner) (w : ℕ) (p : Phase) :
    (fun w' => ptrs ((s.goto w p).worker w').held) =
      update (fun w' => ptrs (s.worker w').held) w (ptrs p.held) := by
  funext w'
  rw [worker_goto, update_apply]
  split_ifs <;> rfl

/-- A worker takes parts that no worker holds. -/
theorem Inv.take (h : s.Inv) {w : ℕ} {p : Phase} {flags : ℕ → Bool} (hwf : p.WF s.parts)
    (hnd : (ptrs p.held).Nodup)
    (hfree : ∀ w', w' ≠ w → ∀ n ∈ ptrs (s.worker w').held, n ∉ ptrs p.held)
    (hmono : ∀ n, s.isInMerge n = true → flags n = true)
    (hset : ∀ n ∈ ptrs p.held, flags n = true)
    (hlt : ∀ n, flags n = true → n < s.nextPtr) :
    ({ s.goto w p with isInMerge := flags } : PtInner).Inv where
  not_panicked := h.not_panicked
  ptr_lt := h.ptr_lt
  nodup := h.nodup
  claims := by
    change ClaimsOk (fun w' => ptrs ((s.goto w p).worker w').held) flags
    rw [held_goto]
    exact h.claims.update hnd hfree hset fun w' _ n hn => hmono n (h.claims.flag w' n hn)
  flag_lt := hlt
  wf w' := by
    change ((s.goto w p).worker w').WF s.parts
    rw [worker_goto]
    split_ifs
    · exact hwf
    · exact h.wf w'
  rows := h.rows
  serials := h.serials
  justified := h.justified

variable {w : ℕ} {pws : List PartWrapper}

/-- A worker keeps some of its parts. -/
theorem Inv.goto (h : s.Inv) {p : Phase} (hwf : p.WF s.parts) (hnd : (ptrs p.held).Nodup)
    (hsub : ∀ n ∈ ptrs p.held, n ∈ ptrs (s.worker w).held) :
    (s.goto w p).Inv :=
  h.take hwf hnd (fun w' hne n hn hn' => hne (h.claims.disjoint w' w n hn (hsub n hn')))
    (fun _ hn => hn) (fun n hn => h.claims.flag w n (hsub n hn)) h.flag_lt

/-- Registered parts that were not in a merge and now are. -/
structure Claim (s : PtInner) (flags : ℕ → Bool) (pws : List PartWrapper) : Prop where
  nodup : (ptrs pws).Nodup
  mem : ∀ pw ∈ pws, pw ∈ s.parts
  clear : ∀ pw ∈ pws, s.isInMerge pw.ptr = false
  flags : ∀ n, flags n = true ↔ s.isInMerge n = true ∨ n ∈ ptrs pws

/-- A worker takes parts that are not in a merge. -/
theorem Inv.claim (h : s.Inv) {p : Phase} {flags : ℕ → Bool} (hwf : p.WF s.parts)
    (hc : s.Claim flags p.held) : ({ s.goto w p with isInMerge := flags } : PtInner).Inv := by
  refine h.take hwf hc.nodup ?_ (fun n hn => (hc.flags n).mpr (.inl hn))
    (fun n hn => (hc.flags n).mpr (.inr hn)) ?_
  · intro w' _ n hn hn'
    obtain ⟨pw, hpw, rfl⟩ := mem_map.mp hn'
    exact absurd (h.claims.flag w' _ hn) (by simp [hc.clear pw hpw])
  · intro n hn
    obtain hn | hn := (hc.flags n).mp hn
    · exact h.flag_lt n hn
    · obtain ⟨pw, hpw, rfl⟩ := mem_map.mp hn
      exact h.ptr_lt _ (mem_ptrs (hc.mem pw hpw))

/-- A worker gives its parts back. -/
theorem Inv.release (h : s.Inv) (hheld : (s.worker w).held = pws) :
    ∃ s', (s.goto w .idle).releasePartsToMerge pws = .ok s' ∧ s'.Inv := by
  obtain ⟨flags, heq, hflags⟩ := clearInMerge_eq_ok (hheld ▸ h.claims.nodup w)
    (fun pw hpw => h.claims.flag w _ (hheld ▸ mem_ptrs hpw))
  refine ⟨{ s.goto w .idle with isInMerge := flags }, ?_, ?_⟩
  · rw [releasePartsToMerge, show (s.goto w .idle).isInMerge = s.isInMerge from rfl, heq]
    rfl
  have hidle : (s.goto w .idle).Inv := h.goto trivial (by simp [Phase.held, ptrs])
    (by simp [Phase.held, ptrs])
  exact {
    hidle with
    claims := by
      change ClaimsOk (fun w' => ptrs ((s.goto w .idle).worker w').held) flags
      rw [held_goto]
      exact h.claims.release fun n hn hnot => (hflags n).mpr ⟨hn, hheld ▸ hnot⟩
    flag_lt := fun n hn => h.flag_lt n ((hflags n).mp hn).1 }

/-- A worker has swapped its registered parts for a new one and the rows it dropped. -/
theorem Inv.swap (h : s.Inv) (hheld : (s.worker w).held = pws)
    (hsub : ∀ pw ∈ pws, pw ∈ s.parts) {p : Phase}
    (hwf : ∀ parts, p.WF parts) (hp : p.held = [] ∨ p.held = pws) {pwNew : Option PartWrapper}
    (drops : List Dropped)
    (hrows : (pwNew.toList.flatMap PartWrapper.rows ++ drops.map Dropped.row).Perm
      (pws.flatMap PartWrapper.rows))
    (hdrops : ∀ d ∈ drops, d.Justified) {s' : PtInner}
    (hparts : s'.parts.Perm (without pws s.parts ++ pwNew.toList))
      (hflags : s'.isInMerge = s.isInMerge)
    (hworker : s'.worker = update s.worker w p) (hpanicked : s'.panicked = s.panicked)
    (hadded : s'.added = s.added) (hdropped : s'.dropped = s.dropped ++ drops)
      (hnext : s.nextPtr ≤ s'.nextPtr)
    (hnew : ∀ pw ∈ pwNew, pw.ptr = s.nextPtr ∧ s.nextPtr < s'.nextPtr) : s'.Inv := by
  have hnd : (ptrs pws).Nodup := hheld ▸ h.claims.nodup w
  have hheld_sub : ∀ n ∈ ptrs p.held, n ∈ ptrs (s.worker w).held := by
    intro n hn
    obtain hp | hp := hp
    · simp [hp, ptrs] at hn
    · rwa [hheld, ← hp]
  have hheld_nd : (ptrs p.held).Nodup := by
    obtain hp | hp := hp <;> rw [hp]
    · exact nodup_nil
    · exact hnd
  have hgoto : (s.goto w p).Inv := h.goto (hwf _) hheld_nd hheld_sub
  have hworker : s'.worker = (s.goto w p).worker := hworker
  have hptrs : (ptrs s'.parts).Perm (ptrs (without pws s.parts) ++ ptrs pwNew.toList) := by
    rw [ptrs, ptrs, ptrs, ← map_append]
    exact hparts.map _
  have hnew_ptr : ∀ n ∈ ptrs pwNew.toList, n = s.nextPtr ∧ s.nextPtr < s'.nextPtr := by
    intro n hn
    obtain ⟨pw, hpw, rfl⟩ := mem_map.mp hn
    exact hnew pw (Option.mem_toList.mp hpw)
  have hold_lt : ∀ n ∈ ptrs (without pws s.parts), n < s.nextPtr := fun n hn =>
    h.ptr_lt n (((without_sublist _ _).map _).subset hn)
  refine ⟨hpanicked ▸ h.not_panicked, ?_, ?_, ?_, ?_, ?_, ?_, hadded ▸ h.serials, ?_⟩
  · intro n hn
    obtain hn | hn := mem_append.mp (hptrs.subset hn)
    · exact (hold_lt n hn).trans_le hnext
    · obtain ⟨rfl, hlt⟩ := hnew_ptr n hn
      exact hlt
  · refine hptrs.nodup_iff.mpr (nodup_append'.mpr
      ⟨h.nodup.sublist ((without_sublist _ _).map _), ?_, ?_⟩)
    · cases pwNew with
      | none => exact nodup_nil
      | some pw => exact nodup_singleton _
    · intro n hn hn'
      exact absurd (hold_lt n hn) (by simp [(hnew_ptr n hn').1])
  · rw [hworker, hflags]
    exact hgoto.claims
  · intro n hn
    rw [hflags] at hn
    exact (h.flag_lt n hn).trans_le hnext
  · intro w'
    rw [hworker, worker_goto]
    split_ifs with hw
    · exact hwf _
    · refine (h.wf w').mono fun pw hpw hmem => hparts.mem_iff.mpr (mem_append_left _ ?_)
      refine mem_without.mpr ⟨hmem, fun hptr => hw ?_⟩
      exact h.claims.disjoint w' w pw.ptr (mem_ptrs hpw) (hheld ▸ hptr)
  · rw [hadded, hdropped]
    refine .trans ?_ h.rows
    have hold := (perm_without_append h.nodup hnd hsub).flatMap_right PartWrapper.rows
    calc (s'.parts.flatMap PartWrapper.rows ++ (s.dropped ++ drops).map Dropped.row)
        |>.Perm _ := (hparts.flatMap_right _).append_right _
      _ |>.Perm ((without pws s.parts).flatMap PartWrapper.rows ++
            (pwNew.toList.flatMap PartWrapper.rows ++ drops.map Dropped.row) ++
            s.dropped.map Dropped.row) := by
          rw [flatMap_append, map_append, append_assoc, append_assoc,
            append_assoc]
          exact .append_left _ (.append_left _ perm_append_comm)
      _ |>.Perm ((without pws s.parts).flatMap PartWrapper.rows ++ pws.flatMap PartWrapper.rows ++
            s.dropped.map Dropped.row) := (hrows.append_left _).append_right _
      _ |>.Perm _ := by
          rw [← flatMap_append]
          exact hold.symm.append_right _
  · intro d hd
    rw [hdropped] at hd
    obtain hd | hd := mem_append.mp hd
    · exact h.justified d hd
    · exact hdrops d hd

/-! ### New parts -/

theorem serial_label (n : ℕ) (samples : List (UInt64 × ℤ)) :
    (label n samples).map Row.serial = (List.range samples.length).map (n + ·) := by
  rw [label, map_map]
  refine ext_getElem (by simp) fun i hi hi' => ?_
  simp

theorem length_label (n : ℕ) (samples : List (UInt64 × ℤ)) :
    (label n samples).length = samples.length := by
  simp [label]

theorem Inv.addPart (h : s.Inv) (t : PartType) (samples : List (UInt64 × ℤ))
    (size deadline : ℕ) : (s.addPart t samples size deadline).Inv := by
  have hparts : (s.addPart t samples size deadline).parts.Perm
      (s.parts ++ [⟨s.nextPtr, label s.added.length samples, size, t == .inmemory, deadline⟩]) :=
    s.parts_push _ t
  have hptrs : (ptrs (s.addPart t samples size deadline).parts).Perm
      (ptrs s.parts ++ [s.nextPtr]) := by
    have := hparts.map PartWrapper.ptr
    rwa [map_append] at this
  have hworker : (s.addPart t samples size deadline).worker = s.worker := by cases t <;> rfl
  have hflags : (s.addPart t samples size deadline).isInMerge = s.isInMerge := by cases t <;> rfl
  have hpanicked : (s.addPart t samples size deadline).panicked = s.panicked := by cases t <;> rfl
  have hdropped : (s.addPart t samples size deadline).dropped = s.dropped := by cases t <;> rfl
  refine ⟨hpanicked ▸ h.not_panicked, ?_, ?_, ?_, ?_, ?_, ?_, ?_, hdropped ▸ h.justified⟩
  · intro n hn
    obtain hn | hn := mem_append.mp (hptrs.subset hn)
    · exact (h.ptr_lt n hn).trans (Nat.lt_succ_self _)
    · rw [mem_singleton.mp hn]
      exact Nat.lt_succ_self _
  · refine hptrs.nodup_iff.mpr (nodup_append'.mpr ⟨h.nodup, nodup_singleton _, ?_⟩)
    intro n hn hn'
    rw [mem_singleton.mp hn'] at hn
    exact absurd (h.ptr_lt _ hn) (lt_irrefl _)
  · rw [hworker, hflags]
    exact h.claims
  · intro n hn
    rw [hflags] at hn
    exact (h.flag_lt n hn).trans (Nat.lt_succ_self _)
  · intro w
    rw [hworker]
    exact (h.wf w).mono fun pw _ hmem => hparts.mem_iff.mpr (mem_append_left _ hmem)
  · rw [hdropped]
    refine ((hparts.flatMap_right _).append_right _).trans ?_
    rw [flatMap_append, flatMap_singleton, append_assoc]
    refine (perm_append_comm.append_left _).trans ?_
    rw [← append_assoc]
    exact h.rows.append_right _
  · change (s.added ++ label s.added.length samples).map Row.serial =
      List.range (s.added ++ label s.added.length samples).length
    rw [map_append, h.serials, serial_label, length_append, length_label]
    exact (range_add ..).symm

theorem inv_empty : empty.Inv where
  not_panicked := rfl
  ptr_lt := by simp [empty, parts, ptrs]
  nodup := nodup_nil
  claims := .nil _
  flag_lt := by simp [empty]
  wf _ := trivial
  rows := .refl _
  serials := rfl
  justified := by simp [empty]

theorem inv_mustOpen (smallParts bigParts : List (List (UInt64 × ℤ) × ℕ)) :
    (mustOpen smallParts bigParts).Inv := by
  have hfold : ∀ (t : PartType) (l : List (List (UInt64 × ℤ) × ℕ)) (s : PtInner), s.Inv →
      (l.foldl (fun s p => s.addPart t p.1 p.2 0) s).Inv := by
    intro t l
    induction l with
    | nil => exact fun _ h => h
    | cons p l ih => exact fun s h => ih _ (h.addPart t p.1 p.2 0)
  exact hfold .big bigParts _ (hfold .small smallParts _ inv_empty)

/-! ### Every step keeps the invariant -/

theorem ptrs_nodup_of_subperm {l : List PartWrapper} (h : pws.Subperm l) (hnd : (ptrs l).Nodup) :
    (ptrs pws).Nodup := by
  obtain ⟨l', hperm, hsub⟩ := h
  exact (hperm.map _).nodup_iff.mp (hnd.sublist (hsub.map _))

theorem list_sublist_parts (s : PtInner) (t : PartType) : (s.list t).Sublist s.parts := by
  cases t with
  | inmemory => exact (sublist_append_left _ _).trans (sublist_append_left _ _)
  | small => exact (sublist_append_right _ _).trans (sublist_append_left _ _)
  | big => exact sublist_append_right _ _

theorem getPartsToMerge_eq_ok (h : s.Inv) (t : PartType) (maxOutBytes : ℕ) :
    ∃ flags pws, s.getPartsToMerge (s.list t) maxOutBytes = .ok (flags, pws) ∧
      s.Claim flags pws := by
  have hremaining := filter_sublist (l := s.list t) (p := fun pw => !s.isInMerge pw.ptr)
  obtain ⟨pws, heq, hsub⟩ := appendPartsToMerge_eq_ok
    ((s.list t).filter fun pw => !s.isInMerge pw.ptr) (by decide : 2 ≤ defaultPartsToMerge)
    maxOutBytes
  have hnd : (ptrs pws).Nodup := ptrs_nodup_of_subperm
    (hsub.trans (hremaining.trans (s.list_sublist_parts t)).subperm) h.nodup
  have hclear : ∀ pw ∈ pws, s.isInMerge pw.ptr = false := by
    intro pw hpw
    have := (mem_filter.mp (hsub.subset hpw)).2
    simpa using this
  obtain ⟨flags, hset, hflags⟩ :=
    setInMerge_eq_ok "BUG: partWrapper.isInMerge cannot be set" hnd hclear
  refine ⟨flags, pws, ?_, hnd, ?_, hclear, hflags⟩
  · simp only [getPartsToMerge, heq, hset, ok_bind]
  · exact fun pw hpw => (s.list_sublist_parts t).subset (hremaining.subset (hsub.subset hpw))

theorem getAllPartsForMerge_eq_ok (h : s.Inv) :
    ∃ flags pws, s.getAllPartsForMerge = .ok (flags, pws) ∧ s.Claim flags pws := by
  rw [getAllPartsForMerge]
  split_ifs with hactive
  · exact ⟨_, _, rfl, nodup_nil, by simp, by simp, by simp [ptrs]⟩
  have hclear : ∀ pw ∈ s.parts, s.isInMerge pw.ptr = false := by
    simp only [hasActiveMerges, Bool.or_eq_true, any_eq_true, not_or, not_exists, not_and,
      Bool.not_eq_true] at hactive
    intro pw hpw
    simp only [parts, mem_append] at hpw
    obtain (hpw | hpw) | hpw := hpw
    · exact hactive.1.1 pw hpw
    · exact hactive.1.2 pw hpw
    · exact hactive.2 pw hpw
  have hnd := h.nodup
  simp only [parts, ptrs, map_append] at hnd
  obtain ⟨hnd₁₂, hnd₃, hdisj₃⟩ := nodup_append'.mp hnd
  obtain ⟨hnd₁, hnd₂, hdisj₂⟩ := nodup_append'.mp hnd₁₂
  -- the flags of the lists that were gone over do not touch the next list
  obtain ⟨flags₁, hset₁, hflags₁⟩ := setInMerge_eq_ok "BUG: part is already in merge" hnd₁
    fun pw hpw => hclear pw (by simp [parts, hpw])
  have hclear₂ : ∀ pw ∈ s.smallParts, flags₁ pw.ptr = false := by
    intro pw hpw
    rw [Bool.eq_false_iff, ne_eq, hflags₁, hclear pw (by simp [parts, hpw])]
    exact fun hor => hor.elim (by simp) fun hmem => hdisj₂ hmem (mem_ptrs hpw)
  obtain ⟨flags₂, hset₂, hflags₂⟩ :=
    setInMerge_eq_ok "BUG: part is already in merge" hnd₂ hclear₂
  have hclear₃ : ∀ pw ∈ s.bigParts, flags₂ pw.ptr = false := by
    intro pw hpw
    rw [Bool.eq_false_iff, ne_eq, hflags₂, hflags₁, hclear pw (by simp [parts, hpw])]
    refine fun hor => hdisj₃ (a := pw.ptr) (mem_append.mpr ?_) (mem_ptrs hpw)
    exact hor.imp_left fun hor => hor.resolve_left (by simp)
  obtain ⟨flags₃, hset₃, hflags₃⟩ :=
    setInMerge_eq_ok "BUG: part is already in merge" hnd₃ hclear₃
  refine ⟨flags₃, s.parts, ?_, h.nodup, fun _ hpw => hpw, hclear, ?_⟩
  · rw [hset₁, ok_bind, hset₂, ok_bind, hset₃, ok_bind]
  · intro n
    rw [hflags₃, hflags₂, hflags₁]
    simp only [parts, ptrs, map_append, mem_append]
    tauto

theorem Claim.of_collected (h : s.Inv) {cond : PartWrapper → Bool} {seen : List PartWrapper}
    (hseen : seen.Sublist s.parts) {acc : (ℕ → Bool) × List PartWrapper}
    (hc : Collected cond s.isInMerge seen acc) : s.Claim acc.1 acc.2 where
  nodup := h.nodup.sublist ((hc.sublist.trans hseen).map _)
  mem _ hpw := hseen.subset (hc.sublist.subset hpw)
  clear := hc.clear
  flags := hc.flags

/-- The parts of a merge to files are split between the next thread and the loop. -/
theorem getPartsForOptimalMerge_eq_ok (hne : pws ≠ []) :
    ∃ toMerge remaining, getPartsForOptimalMerge pws = .ok (toMerge, remaining) ∧ toMerge ≠ [] ∧
      toMerge.Subperm pws ∧ remaining.Sublist pws ∧
      List.Disjoint (ptrs toMerge) (ptrs remaining) := by
  obtain ⟨toMerge, heq, hsub⟩ := appendPartsToMerge_eq_ok pws
    (by decide : 2 ≤ defaultPartsToMerge) (2 ^ 64 - 1)
  simp only [getPartsForOptimalMerge, heq, ok_bind]
  split_ifs with hempty
  · exact ⟨pws, [], rfl, hne, Subperm.refl _, nil_sublist _, by simp [ptrs]⟩
  · refine ⟨toMerge, _, rfl, by simpa using hempty, hsub, filter_sublist, ?_⟩
    intro n hn hn'
    obtain ⟨pw, hpw, rfl⟩ := mem_map.mp hn'
    have := (mem_filter.mp hpw).2
    simp only [Bool.not_eq_true', contains_eq_mem, decide_eq_false_iff_not] at this
    exact this hn

theorem getDstPartType_final (env : MergeEnv) (pws : List PartWrapper) :
    getDstPartType env pws true ≠ .inmemory := by
  simp only [getDstPartType, Bool.true_or, if_true]
  split_ifs <;> decide

theorem maxTimestamp_lt {pw : PartWrapper} {deadline : ℤ} (h : pw.maxTimestamp < deadline) :
    ∀ row ∈ pw.rows, row.timestamp < deadline := by
  intro row hrow
  refine lt_of_le_of_lt ?_ h
  rw [PartWrapper.maxTimestamp]
  exact le_max_of_le' _ (mem_map_of_mem hrow) le_rfl

theorem rows_openCreatedPart (s : PtInner) (env : MergeEnv) (pws : List PartWrapper)
    (t : PartType) :
    (s.openCreatedPart env pws t).toList.flatMap PartWrapper.rows = env.kept := by
  rw [openCreatedPart]
  split_ifs with hempty
  · exact (List.isEmpty_iff.mp hempty).symm
  · simp

theorem ptr_openCreatedPart {env : MergeEnv} {t : PartType} {pw : PartWrapper}
    (hpw : pw ∈ s.openCreatedPart env pws t) : pw.ptr = s.nextPtr := by
  rw [openCreatedPart] at hpw
  split_ifs at hpw
  · cases hpw
  · cases hpw
    rfl

/-- The end of a merge. -/
theorem Inv.mergePartsInner (h : s.Inv) {retentionMsecs dedupInterval : ℤ} {isFinal : Bool}
    (hw : s.worker w = .merging pws isFinal) {env : MergeEnv} {o : Outcome PtInner}
    (ho : (s.goto w (.releasing pws)).mergePartsInner retentionMsecs dedupInterval pws isFinal
      env = some o) :
    ∃ s', o = .ok s' ∧ s'.Inv := by
  have hheld : (s.worker w).held = pws := by rw [hw]; rfl
  have hsub : ∀ pw ∈ pws, pw ∈ s.parts := by
    have := h.wf w
    rwa [hw] at this
  have hnd : (ptrs pws).Nodup := hheld ▸ h.claims.nodup w
  simp only [PtInner.mergePartsInner] at ho
  split_ifs at ho with hfast hkept hmerges
  · -- the part is stored as it is
    cases ho
    obtain ⟨s', heq, hs'⟩ := (s.goto w (.releasing pws)).swapSrcWithDstParts_eq_ok h.nodup hnd hsub
      (some ⟨s.nextPtr, pws.flatMap PartWrapper.rows, env.size, false, 0⟩)
      (getDstPartType env pws isFinal)
    have hdst : getDstPartType env pws isFinal ≠ .inmemory := by
      rw [hfast.2.1]
      exact getDstPartType_final env pws
    refine ⟨{ s' with nextPtr := s.nextPtr + 1 }, ?_, ?_⟩
    · rw [assert_of hdst, ok_bind]
      exact congrArg (· >>= _) heq
    · refine h.swap hheld hsub (p := .releasing pws) (fun _ => trivial) (.inr rfl) []
        ?_ (by simp) hs'.parts hs'.isInMerge hs'.worker hs'.panicked hs'.added ?_ (Nat.le_succ _) ?_
      · simp
      · rw [append_nil]
        exact hs'.dropped
      · intro pw hpw
        cases hpw
        exact ⟨rfl, Nat.lt_succ_self _⟩
  · cases ho
    obtain ⟨s', heq, hs'⟩ := (s.goto w (.releasing pws)).swapSrcWithDstParts_eq_ok h.nodup hnd hsub
      ((s.goto w (.releasing pws)).openCreatedPart env pws (getDstPartType env pws isFinal))
      (getDstPartType env pws isFinal)
    refine ⟨{ s' with nextPtr := s.nextPtr + 1, dropped := s.dropped ++ env.drops }, ?_, ?_⟩
    · exact congrArg (· >>= _) heq
    · refine h.swap hheld hsub (p := .releasing pws) (fun _ => trivial) (.inr rfl) _ ?_
        (fun d hd => (hmerges.2 d hd).1) hs'.parts hs'.isInMerge hs'.worker hs'.panicked hs'.added
        rfl (Nat.le_succ _) (fun pw hpw => ⟨ptr_openCreatedPart hpw, Nat.lt_succ_self _⟩)
      rw [rows_openCreatedPart]
      exact hmerges.1

/-- No step of a worker fails an assertion. -/
theorem Inv.act (h : s.Inv) {retentionMsecs dedupInterval : ℤ} {a : Action} {o : Outcome PtInner}
    (ho : s.act retentionMsecs dedupInterval a = some o) : ∃ s', o = .ok s' ∧ s'.Inv := by
  cases a with
  | addToInmemoryParts samples size deadline =>
    cases ho
    exact ⟨_, rfl, h.addPart .inmemory samples size deadline⟩
  | getPartsToMerge w t maxOutBytes =>
    simp only [PtInner.act] at ho
    split at ho <;> cases ho
    obtain ⟨flags, pws, heq, hc⟩ := getPartsToMerge_eq_ok h t maxOutBytes
    rw [heq]
    refine ⟨_, rfl, ?_⟩
    dsimp only
    split_ifs with hempty
    · rw [List.isEmpty_iff.mp hempty] at hc
      exact h.claim (p := .idle) trivial hc
    · exact h.claim (p := .claimed pws) ⟨by simpa using hempty, hc.mem⟩ hc
  | acquireOrStop w stopped =>
    simp only [PtInner.act] at ho
    split at ho
    · next pws hw =>
      have hheld : (s.worker w).held = pws := by rw [hw]; rfl
      have hwf := h.wf w
      split_ifs at ho
      · cases ho
        exact h.release hheld
      · cases ho
        refine ⟨_, rfl, h.goto ?_ (hheld ▸ h.claims.nodup w) (fun n hn => hheld ▸ hn)⟩
        rwa [hw] at hwf
    · cases ho
  | flushInmemoryPartsToFiles w isFinal currentTime =>
    simp only [PtInner.act] at ho
    split at ho <;> cases ho
    have hc := Claim.of_collected h (s.list_sublist_parts .inmemory)
      ((Collected.nil (fun pw => isFinal || decide (pw.flushToDiskDeadline < currentTime))
        s.isInMerge).collect)
    exact ⟨_, rfl, h.claim (p := .mergingToFiles _) hc.mem hc⟩
  | forceMergeAllParts w =>
    simp only [PtInner.act] at ho
    split at ho <;> cases ho
    obtain ⟨flags, pws, heq, hc⟩ := getAllPartsForMerge_eq_ok h
    rw [heq]
    refine ⟨_, rfl, ?_⟩
    dsimp only
    split_ifs with hempty
    · rw [List.isEmpty_iff.mp hempty] at hc
      exact h.claim (p := .idle) trivial hc
    · exact h.claim (p := .forceClaimed pws) hc.mem hc
  | checkFreeSpace w freeSpace =>
    simp only [PtInner.act] at ho
    split at ho
    · next pws hw =>
      have hheld : (s.worker w).held = pws := by rw [hw]; rfl
      have hwf := h.wf w
      split_ifs at ho
      · cases ho
        exact h.release hheld
      · cases ho
        refine ⟨_, rfl, h.goto ?_ (hheld ▸ h.claims.nodup w) (fun n hn => hheld ▸ hn)⟩
        rwa [hw] at hwf
    · cases ho
  | mergeGroup w thread =>
    simp only [PtInner.act] at ho
    split at ho
    · next pws hw =>
      have hheld : (s.worker w).held = pws := by rw [hw]; rfl
      have hwf := h.wf w
      rw [hw] at hwf
      split_ifs at ho with hempty hne
      · cases ho
        exact ⟨_, rfl, h.goto trivial (by simp [Phase.held, ptrs]) (by simp [Phase.held, ptrs])⟩
      split at ho <;> cases ho
      have hpws : pws ≠ [] := by simpa using hempty
      obtain ⟨toMerge, remaining, heq, hmerge, hsub, hsub', hdisj⟩ :=
        getPartsForOptimalMerge_eq_ok hpws
      rw [heq]
      refine ⟨_, rfl, ?_⟩
      have hnd : (ptrs pws).Nodup := hheld ▸ h.claims.nodup w
      have hloop : (s.goto w (.mergingToFiles remaining)).Inv := by
        refine h.goto (fun pw hpw => hwf pw (hsub'.subset hpw)) (hnd.sublist (hsub'.map _)) ?_
        intro n hn
        rw [hheld]
        exact (hsub'.map _).subset hn
      -- the parts of the new thread are those the loop no longer holds
      refine hloop.take (p := .starting toMerge true)
        ⟨hmerge, fun pw hpw => hwf pw (hsub.subset hpw)⟩ (ptrs_nodup_of_subperm hsub hnd) ?_
        (fun _ hn => hn) ?_ hloop.flag_lt
      · intro w' hw' n hn hn'
        rw [worker_goto] at hn
        split_ifs at hn with heqw
        · exact hdisj hn' hn
        · refine heqw (h.claims.disjoint w' w n hn ?_)
          rw [hheld]
          exact map_subset _ hsub.subset hn'
      · intro n hn
        refine h.claims.flag w n ?_
        rw [hheld]
        exact map_subset _ hsub.subset hn
    · cases ho
  | mergeParts w =>
    simp only [PtInner.act] at ho
    split at ho <;> cases ho
    next pws isFinal hw =>
    have hheld : (s.worker w).held = pws := by rw [hw]; rfl
    have hwf := h.wf w
    rw [hw] at hwf
    refine ⟨s.goto w (.merging pws isFinal), ?_,
      h.goto hwf.2 (hheld ▸ h.claims.nodup w) (fun n hn => hheld ▸ hn)⟩
    rw [assert_of hwf.1, ok_bind,
      assert_of fun pw hpw => h.claims.flag w _ (hheld ▸ mem_ptrs hpw), ok_bind]
  | finishMerge w env =>
    simp only [PtInner.act] at ho
    split at ho
    · next pws isFinal hw => exact h.mergePartsInner hw ho
    · cases ho
  | abortMerge w =>
    simp only [PtInner.act] at ho
    split at ho <;> cases ho
    next pws isFinal hw =>
    have hheld : (s.worker w).held = pws := by rw [hw]; rfl
    exact ⟨_, rfl, h.goto trivial (hheld ▸ h.claims.nodup w) (fun n hn => hheld ▸ hn)⟩
  | releasePartsToMerge w =>
    simp only [PtInner.act] at ho
    split at ho <;> cases ho
    next pws hw => exact h.release (by rw [hw]; rfl)
  | removeStaleParts w now =>
    simp only [PtInner.act] at ho
    split at ho <;> cases ho
    have hcol : Collected (isStale retentionMsecs now) s.isInMerge s.parts _ :=
      (((Collected.nil (isStale retentionMsecs now) s.isInMerge).collect).collect).collect
    have hc := Claim.of_collected h (.refl _) hcol
    refine ⟨_, rfl, h.claim (p := .removingStale _ _) ⟨hc.mem, ?_⟩ hc⟩
    intro pw hpw
    exact maxTimestamp_lt (of_decide_eq_true (hcol.cond pw hpw))
  | swapStaleParts w =>
    simp only [PtInner.act] at ho
    split at ho <;> cases ho
    next pws deadline hw =>
    have hheld : (s.worker w).held = pws := by rw [hw]; rfl
    have hwf := h.wf w
    rw [hw] at hwf
    obtain ⟨s', heq, hs'⟩ := (s.goto w .idle).swapSrcWithDstParts_eq_ok h.nodup
      (hheld ▸ h.claims.nodup w) hwf.1 none .small
    refine ⟨_, congrArg (· >>= _) heq, ?_⟩
    refine h.swap hheld hwf.1 (p := .idle) (fun _ => trivial) (.inl rfl) _ ?_ ?_ hs'.parts
      hs'.isInMerge hs'.worker hs'.panicked hs'.added rfl hs'.nextPtr.ge nofun
    · simp [map_map, comp_def]
    · intro d hd
      obtain ⟨row, hrow, rfl⟩ := mem_map.mp hd
      obtain ⟨pw, hpw, hrow⟩ := mem_flatMap.mp hrow
      exact hwf.2 pw hpw row hrow

/-! ### Runs -/

theorem Inv.step (h : s.Inv) {retentionMsecs dedupInterval : ℤ} {a : Action} {s' : PtInner}
    (hs' : s.step retentionMsecs dedupInterval a = some s') : s'.Inv := by
  rw [PtInner.step, h.not_panicked] at hs'
  simp only [Option.isSome_none, Bool.false_eq_true, if_false, Option.map_eq_some_iff] at hs'
  obtain ⟨o, ho, rfl⟩ := hs'
  obtain ⟨s', rfl, hinv⟩ := h.act ho
  exact hinv

/-- A row that was added and not dropped is in one registered part. -/
theorem Inv.existsUnique_part (h : s.Inv) {row : Row} (hrow : row ∈ s.added)
    (hdropped : row ∉ s.dropped.map Dropped.row) : ∃! pw, pw ∈ s.parts ∧ row ∈ pw.rows := by
  have hnd : s.added.Nodup := by
    refine Nodup.of_map Row.serial ?_
    rw [h.serials]
    exact nodup_range
  have hrows : (s.parts.flatMap PartWrapper.rows).Nodup :=
    (nodup_append'.mp (h.rows.nodup_iff.mpr hnd)).1
  obtain hmem | hmem := mem_append.mp (h.rows.mem_iff.mpr hrow)
  · obtain ⟨pw, hpw, hmem⟩ := mem_flatMap.mp hmem
    refine ⟨pw, ⟨hpw, hmem⟩, ?_⟩
    rintro pw' ⟨hpw', hmem'⟩
    by_contra hne
    have hsymm : Std.Symm (Function.onFun List.Disjoint PartWrapper.rows) :=
      ⟨fun _ _ hdisj => hdisj.symm⟩
    exact (nodup_flatMap.mp hrows).2.forall hpw' hpw hne hmem' hmem
  · exact absurd hmem hdropped

end PtInner

/-- **Parts are claimed once.** In every run of a partition that was opened with any file parts,
and in every state of the run: no part is held by two workers, or twice by one; no assertion has
failed; and every row that was added is in exactly one registered part, until it is dropped
because it is older than the retention allows, its series was deleted, or a newer sample of its
series in the same deduplication interval was kept. -/
theorem parts_claimed_once {retentionMsecs dedupInterval : ℤ}
    {smallParts bigParts : List (List (UInt64 × ℤ) × ℕ)}
    (r : Run (PtInner.step retentionMsecs dedupInterval) (PtInner.mustOpen smallParts bigParts))
    (n : ℕ) (hn : n ≤ r.length) :
    (∀ w, (ptrs ((r.state n).worker w).held).Nodup) ∧
    (∀ w w' pw pw', pw ∈ ((r.state n).worker w).held → pw' ∈ ((r.state n).worker w').held →
      pw.ptr = pw'.ptr → w = w') ∧
    (r.state n).panicked = none ∧
    (∀ row ∈ (r.state n).added, row ∉ (r.state n).dropped.map Dropped.row →
      ∃! pw, pw ∈ (r.state n).parts ∧ row ∈ pw.rows) ∧
    (∀ d ∈ (r.state n).dropped, d.Justified) := by
  have h : (r.state n).Inv := r.invariant (PtInner.inv_mustOpen smallParts bigParts)
    (fun _ _ _ hs hstep => hs.step hstep) n hn
  refine ⟨h.claims.nodup, ?_, h.not_panicked, fun row => h.existsUnique_part, h.justified⟩
  intro w w' pw pw' hpw hpw' heq
  exact h.claims.disjoint w w' pw.ptr (mem_ptrs hpw) (heq ▸ mem_ptrs hpw')

/-- Two rows are added, and flushed to a small part by a thread of worker 0. -/
def flushActions : List Action :=
  [.addToInmemoryParts [(7, 100), (7, 200)] 50 5, .flushInmemoryPartsToFiles 0 false 6,
    .mergeGroup 0 1, .mergeParts 1,
    .finishMerge 1 ⟨1000, 1000, 300, [], [⟨0, 7, 100⟩, ⟨1, 7, 200⟩], [], 50, 11⟩,
    .releasePartsToMerge 1]

/-- The run of these steps. -/
def flushRun : Run (PtInner.step 1000 0) (PtInner.mustOpen [] []) :=
  Run.ofActions flushActions (by decide +kernel)

theorem parts_claimed_once_flushRun :
    flushRun.length = 6 ∧ (((flushRun.state 6).smallParts.map PartWrapper.rows) =
      [[⟨0, 7, 100⟩, ⟨1, 7, 200⟩]]) ∧ ptrs ((flushRun.state 5).worker 1).held = [0] ∧
    ∃! pw, pw ∈ (flushRun.state 6).parts ∧ (⟨0, 7, 100⟩ : Row) ∈ pw.rows :=
  ⟨rfl, by decide +kernel, by decide +kernel,
    (parts_claimed_once flushRun 6 (by decide)).2.2.2.1 ⟨0, 7, 100⟩ (by decide +kernel)
      (by decide +kernel)⟩

end Esmetrics.Partition
