import Mathlib.Logic.Function.Basic
import Mathlib.Data.List.Nodup
import Mathlib.Algebra.BigOperators.Group.List.Basic
import Mathlib.Tactic.IntervalCases
import Esmetrics.Lib.Runs
import Esmetrics.Storage.TimeRange

/-!
# Dropping partitions by retention

Model of the partitions of a table (`esm-storage/src/table.rs`) under searches
(`esm-storage/src/table_search.rs`, `esm-storage/src/partition/search.rs`), updates that ask for
the partition of a timestamp, and the retention. The references are those of the source: the list
of the table, the partitions and parts of a search, the partition of an update, and those a
retention pass has taken out of the list. Releasing the last reference to a partition closes it
and, when it is marked, removes its three directories.

A search releases its partitions before its parts, because its fields are dropped in the order of
their declaration. When the retention has dropped the partition in the meantime, the search closes
it while it still has its parts (`close_with_parts`). And an update whose timestamp was validated
before the retention dropped its month creates the partition again while the old directories are
still there. When no retention pass drops a partition whose parts a search has or may take, or one
that an update is about to ask for, none of this happens (`retention_safe`).
-/

namespace Esmetrics.Table

open List
open Prod (fst snd)
open Function (update update_of_ne update_self)

/-- A partition: its month, and the parts in memory and in files, by pointer. -/
structure Partition where
  month : Calendar.Month
  inmemoryParts : List ℕ
  fileParts : List ℕ
  mustDrop : Bool

/-- The time range of a partition. -/
def Partition.timeRange (pt : Partition) : Calendar.TimeRange := .fromMonth pt.month

/-- What a thread is doing. Partitions are numbered in the order of their creation. -/
inductive Phase where
  | idle
  /-- A search, with the partitions whose parts it has not taken yet, its partitions, and its
  parts with their partitions. -/
  | search (tr : Calendar.TimeRange) (todo ptws : List ℕ) (parts : List (ℕ × ℕ))
  /-- A search that is being released: the partitions go first. -/
  | releasing (ptws : List ℕ) (parts : List (ℕ × ℕ))
  /-- An update with a timestamp that was inside the retention. -/
  | validated (timestamp : ℤ)
  /-- An update that creates a partition, and has made some of its three directories. -/
  | creating (timestamp : ℤ) (made : ℕ)
  | holding (ptw : ℕ)
  /-- A retention pass that has read the clock. -/
  | enforcing (now : ℤ)
  /-- A retention pass that has taken partitions out of the list. -/
  | dropping (ptws : List ℕ)
  deriving DecidableEq

namespace Phase

/-- The references to partitions. -/
def ptwRefs : Phase → List ℕ
  | .search _ _ ptws _ | .releasing ptws _ | .dropping ptws => ptws
  | .holding ptw => [ptw]
  | _ => []

/-- The references to parts. -/
def partRefs : Phase → List (ℕ × ℕ)
  | .search _ _ _ parts | .releasing _ parts => parts
  | _ => []

/-- The partitions whose search has not begun. -/
def todo : Phase → List ℕ
  | .search _ todo _ _ => todo
  | _ => []

/-- The timestamp for which an update will ask. -/
def pending : Phase → Option ℤ
  | .validated timestamp | .creating timestamp _ => some timestamp
  | _ => none

end Phase

/-- A thread. Releasing the last reference to a partition makes it close that partition first;
the second number counts the steps of that. -/
structure Thread where
  phase : Phase
  closing : Option (ℕ × ℕ)

/-- A table. -/
structure State where
  clock : ℤ
  pts : List Partition
  /-- The registered partitions. -/
  ptws : List ℕ
  /-- The thread that creates a partition under the lock of the table. -/
  lock : Option ℕ
  threadCount : ℕ
  thread : ℕ → Thread
  /-- The directories of the months: `small`, `big` and `indexdb`, in this order. -/
  dirs : Calendar.Month → ℕ → Bool
  nextPart : ℕ
  panicked : Option String

inductive Action where
  | tick (msecs : ℕ)
  | spawn
  | startSearch (i : ℕ) (tr : Calendar.TimeRange)
  /-- The search of the next partition begins; without series to search it takes no parts. -/
  | takeParts (i : ℕ) (noTsids : Bool)
  | endSearch (i : ℕ)
  | releasePtw (i : ℕ)
  | releaseParts (i : ℕ)
  | validate (i : ℕ) (timestamp : ℤ)
  | mustGetPartition (i : ℕ)
  | mkdir (i : ℕ)
  | addRows (i : ℕ)
  | releasePartition (i : ℕ)
  /-- A background worker of a partition merges some parts into one. -/
  | mergeParts (ptw : ℕ) (sel : List ℕ) (toFile : Bool)
  | readClock (i : ℕ)
  | enforceRetention (i : ℕ)
  | dropNext (i : ℕ)
  | endRetention (i : ℕ)
  | mustClose (i : ℕ)
  | removeDir (i : ℕ)
  deriving Inhabited

/-- The thread of an action. -/
def Action.thread? : Action → Option ℕ
  | .tick _ | .spawn | .mergeParts _ _ _ => none
  | .startSearch i _ | .takeParts i _ | .endSearch i | .releasePtw i | .releaseParts i
  | .validate i _ | .mustGetPartition i | .mkdir i | .addRows i | .releasePartition i
  | .readClock i | .enforceRetention i | .dropNext i | .endRetention i | .mustClose i
  | .removeDir i => some i

namespace State

/-- The partition with this number. -/
def pt? (s : State) (p : ℕ) : Option Partition := s.pts[p]?

/-- The registered partition of a timestamp. -/
def find? (s : State) (timestamp : ℤ) : Option ℕ :=
  s.ptws.find? fun p => (s.pt? p).any fun pt => pt.timeRange.contains timestamp

/-- The number of references to a partition. -/
def strongCount (s : State) (p : ℕ) : ℕ :=
  s.ptws.count p + ((List.range s.threadCount).map fun i => (s.thread i).phase.ptwRefs.count p).sum

/-- Some thread refers to the part of the partition. -/
def isPartReferenced (s : State) (p part : ℕ) : Bool :=
  (List.range s.threadCount).any fun i => (s.thread i).phase.partRefs.contains (p, part)

def setThread (s : State) (i : ℕ) (t : Thread) : State :=
  { s with thread := update s.thread i t }

def goto (s : State) (i : ℕ) (p : Phase) : State := s.setThread i ⟨p, none⟩

def modifyPt (s : State) (p : ℕ) (f : Partition → Partition) : State :=
  { s with pts := s.pts.modify p f }

/-- A thread that goes to `next` has released a reference to `p`; the last one closes it. -/
def dropRef (s : State) (i p : ℕ) (next : Phase) : State :=
  let s' := s.goto i next
  if s'.strongCount p = 0 then s'.setThread i ⟨next, some (p, 0)⟩ else s'

section Model

variable (retentionMsecs futureRetentionMsecs : ℤ)

/-- A retention pass that reads this clock drops the partition. -/
def isOutside (now : ℤ) (pt : Partition) : Bool :=
  decide (pt.timeRange.maxTimestamp < now - retentionMsecs) ||
    decide (pt.timeRange.minTimestamp > now + futureRetentionMsecs)

/-- The partitions that a retention pass drops. -/
def outside (s : State) (now : ℤ) : List ℕ :=
  s.ptws.filter fun p => (s.pt? p).any (isOutside retentionMsecs futureRetentionMsecs now)

/-- What a thread that is not closing a partition does next. -/
def stepPhase (s : State) (i : ℕ) (p : Phase) : Action → Option (Except String State)
  | .startSearch _ tr =>
    match p, s.lock with
    | .idle, none =>
      let tr := { tr with minTimestamp := max tr.minTimestamp (s.clock - retentionMsecs) }
      some (.ok (s.goto i (.search tr s.ptws s.ptws [])))
    | _, _ => none
  | .takeParts _ noTsids =>
    match p with
    | .search tr (p :: todo) ptws parts =>
      match s.pt? p with
      | some pt =>
        let new :=
          if noTsids || !pt.timeRange.overlapsWith tr then []
          else (pt.inmemoryParts ++ pt.fileParts).map fun part => (p, part)
        some (.ok (s.goto i (.search tr todo ptws (parts ++ new))))
      | none => none
    | _ => none
  | .endSearch _ =>
    match p with
    | .search _ [] ptws parts => some (.ok (s.goto i (.releasing ptws parts)))
    | _ => none
  | .releasePtw _ =>
    match p with
    | .releasing (p :: ptws) parts => some (.ok (s.dropRef i p (.releasing ptws parts)))
    | _ => none
  | .releaseParts _ =>
    match p with
    | .releasing [] _ => some (.ok (s.goto i .idle))
    | _ => none
  | .validate _ timestamp =>
    match p with
    | .idle =>
      let minTimestamp := max (s.clock - retentionMsecs) 0
      let maxTimestamp := min Calendar.maxUnixMilli (s.clock + futureRetentionMsecs)
      if timestamp < minTimestamp ∨ maxTimestamp < timestamp then none
      else some (.ok (s.goto i (.validated timestamp)))
    | _ => none
  | .mustGetPartition _ =>
    match p, s.lock with
    | .validated timestamp, none =>
      match s.find? timestamp with
      | some ptw => some (.ok (s.goto i (.holding ptw)))
      | none => some (.ok { s.goto i (.creating timestamp 0) with lock := some i })
    | _, _ => none
  | .mkdir _ =>
    match p with
    | .creating timestamp made =>
      let month := Calendar.timestampToMonth timestamp
      if s.dirs month made then some (.error "FATAL: the directory already exists")
      else
        let dirs := update s.dirs month (update (s.dirs month) made true)
        if made < 2 then some (.ok { s.goto i (.creating timestamp (made + 1)) with dirs := dirs })
        else
          some (.ok { s.goto i (.holding s.pts.length) with
            dirs := dirs
            pts := s.pts ++ [⟨month, [], [], false⟩]
            ptws := s.ptws ++ [s.pts.length]
            lock := none })
    | _ => none
  | .addRows _ =>
    match p with
    | .holding ptw =>
      some (.ok { s.modifyPt ptw (fun pt => { pt with
        inmemoryParts := pt.inmemoryParts ++ [s.nextPart] }) with nextPart := s.nextPart + 1 })
    | _ => none
  | .releasePartition _ =>
    match p with
    | .holding ptw => some (.ok (s.dropRef i ptw .idle))
    | _ => none
  | .readClock _ =>
    match p with
    | .idle => some (.ok (s.goto i (.enforcing s.clock)))
    | _ => none
  | .enforceRetention _ =>
    match p, s.lock with
    | .enforcing now, none =>
      let drop := s.outside retentionMsecs futureRetentionMsecs now
      some (.ok { s.goto i (.dropping drop) with ptws := s.ptws.filter fun p => !drop.contains p })
    | _, _ => none
  | .dropNext _ =>
    match p with
    | .dropping (p :: ptws) =>
      let s' := s.modifyPt p fun pt => { pt with mustDrop := true }
      some (.ok (s'.dropRef i p (.dropping ptws)))
    | _ => none
  | .endRetention _ =>
    match p with
    | .dropping [] => some (.ok (s.goto i .idle))
    | _ => none
  | _ => none

/-- The close of a partition: the parts in memory are flushed to a file, and no file part may be
referenced; then the directories of a dropped partition are removed one after the other. -/
def stepClosing (s : State) (i : ℕ) (t : Thread) (p k : ℕ) :
    Action → Option (Except String State)
  | .mustClose _ =>
    match k, s.pt? p with
    | 0, some pt =>
      let fileParts :=
        if pt.inmemoryParts.isEmpty then pt.fileParts else pt.fileParts ++ [s.nextPart]
      if fileParts.any (s.isPartReferenced p) then
        some (.error "BUG: unexpected extra references to a part when closing partition")
      else
        let s' := s.modifyPt p fun pt => { pt with inmemoryParts := [], fileParts := [] }
        some (.ok { s'.setThread i ⟨t.phase, if pt.mustDrop then some (p, 1) else none⟩ with
          nextPart := s.nextPart + 1 })
    | _, _ => none
  | .removeDir _ =>
    match k, s.pt? p with
    | k + 1, some pt =>
      some (.ok { s.setThread i ⟨t.phase, if k < 2 then some (p, k + 2) else none⟩ with
        dirs := update s.dirs pt.month (update (s.dirs pt.month) k false) })
    | _, _ => none
  | _ => none

/-- One step of a process that has not aborted; a failed assertion aborts it. -/
def step (s : State) (a : Action) : Option State :=
  if s.panicked.isSome then none
  else
    match a.thread? with
    | some i =>
      if i < s.threadCount then
        let t := s.thread i
        let res :=
          match t.closing with
          | none => s.stepPhase retentionMsecs futureRetentionMsecs i t.phase a
          | some (p, k) => s.stepClosing i t p k a
        res.map fun
          | .ok s' => s'
          | .error msg => { s with panicked := some msg }
      else none
    | none =>
      match a with
      | .tick msecs => some { s with clock := s.clock + msecs }
      | .spawn => some { s with threadCount := s.threadCount + 1 }
      | .mergeParts p sel toFile =>
        if s.strongCount p = 0 then none
        else
          let keep (l : List ℕ) := l.filter fun part => !sel.contains part
          some { s.modifyPt p (fun pt => { pt with
            inmemoryParts := keep pt.inmemoryParts ++ if toFile then [] else [s.nextPart]
            fileParts := keep pt.fileParts ++ if toFile then [s.nextPart] else [] }) with
            nextPart := s.nextPart + 1 }
      | _ => none

end Model

/-- A table that has just been opened, with the file parts of its partitions. -/
def mustOpenTable (clock : ℤ) (pts : List (Calendar.Month × List ℕ)) : State where
  clock := clock
  pts := pts.map fun x => ⟨x.1, [], x.2, false⟩
  ptws := List.range pts.length
  lock := none
  threadCount := 0
  thread := fun _ => ⟨.idle, none⟩
  dirs := fun month _ => (pts.map fst).contains month
  nextPart := (pts.flatMap snd).foldr (fun part n => max (part + 1) n) 0
  panicked := none

/-! ### The condition -/

/-- The month of a partition. -/
def month? (s : State) (p : ℕ) : Option Calendar.Month := (s.pt? p).map Partition.month

/-- The partitions of which a search has parts, or may still take parts. -/
def searched (s : State) : Phase → List ℕ
  | .search tr todo _ parts =>
    (todo.filter fun p => (s.month? p).any fun m =>
      (Calendar.TimeRange.fromMonth m).overlapsWith tr) ++ parts.map fst
  | .releasing _ parts => parts.map fst
  | _ => []

/-- A retention pass that drops partitions by this step drops only partitions behind the retention
whose parts no search has or may still take, and for which no update is about to ask. Other steps
are not restricted. -/
def RetentionSafe (retentionMsecs futureRetentionMsecs : ℤ) (s : State) : Action → Prop
  | .enforceRetention i => ∀ now, (s.thread i).phase = .enforcing now →
    ∀ p ∈ s.outside retentionMsecs futureRetentionMsecs now, ∀ m, s.month? p = some m →
      (Calendar.TimeRange.fromMonth m).maxTimestamp < now - retentionMsecs ∧
      ∀ j, p ∉ s.searched (s.thread j).phase ∧
        ∀ timestamp, (s.thread j).phase.pending = some timestamp →
          (Calendar.TimeRange.fromMonth m).contains timestamp = false
  | _ => True

/-! ### The invariant -/

/-- What the invariant says about a thread. -/
structure ThreadOk (s : State) (i : ℕ) (t : Thread) : Prop where
  refs_lt : ∀ p ∈ t.phase.ptwRefs, p < s.pts.length
  todo : ∀ p ∈ t.phase.todo, p ∈ t.phase.ptwRefs
  searched : ∀ p ∈ s.searched t.phase, p ∈ s.ptws
  pending : ∀ timestamp, t.phase.pending = some timestamp → ∀ p m, s.month? p = some m →
    p ∉ s.ptws → (Calendar.TimeRange.fromMonth m).contains timestamp = false
  creating : ∀ timestamp made, t.phase = .creating timestamp made →
    s.lock = some i ∧
    (∀ p ∈ s.ptws, ∀ m, s.month? p = some m →
      (Calendar.TimeRange.fromMonth m).contains timestamp = false) ∧
    ∀ k < made, s.dirs (Calendar.timestampToMonth timestamp) k = true
  closing : ∀ p k, t.closing = some (p, k) → p ∉ s.ptws ∧ p < s.pts.length
  enforcing : ∀ now, t.phase = .enforcing now → now ≤ s.clock

/-- The invariant of a run in which every retention pass is safe. Partitions keep their number when
the table drops them, so the months are those of all partitions there have been. -/
structure Inv (retentionMsecs : ℤ) (s : State) : Prop where
  not_panicked : s.panicked = none
  months : ∀ p q m, s.month? p = some m → s.month? q = some m → p = q
  ptws_nodup : s.ptws.Nodup
  ptws_lt : ∀ p ∈ s.ptws, p < s.pts.length
  expired : ∀ p m, s.month? p = some m → p ∉ s.ptws →
    (Calendar.TimeRange.fromMonth m).maxTimestamp < s.clock - retentionMsecs
  dirs : ∀ p ∈ s.ptws, ∀ m, s.month? p = some m → ∀ k < 3, s.dirs m k = true
  owned : ∀ m k, s.dirs m k = true → (∃ p, s.month? p = some m) ∨
    ∃ i timestamp made, (s.thread i).phase = .creating timestamp made ∧
      Calendar.timestampToMonth timestamp = m ∧ k < made
  thread : ∀ i, s.ThreadOk i (s.thread i)

variable {s : State} {retentionMsecs futureRetentionMsecs : ℤ} {i p : ℕ}

theorem month?_isSome_iff : (∃ m, s.month? p = some m) ↔ p < s.pts.length := by
  simp [month?, pt?, ← Option.isSome_iff_exists]

theorem month?_modifyPt (f : Partition → Partition) (hf : ∀ pt, (f pt).month = pt.month) (q : ℕ) :
    (s.modifyPt p f).month? q = s.month? q := by
  simp only [month?, pt?, modifyPt, getElem?_modify]
  split_ifs with hpq
  · cases s.pts[q]? <;> simp [hf]
  · simp

theorem length_modifyPt (f : Partition → Partition) :
    (s.modifyPt p f).pts.length = s.pts.length := length_modify ..

variable {s' : State} {made k : ℕ} {d : Calendar.Month → ℕ → Bool} {m : Calendar.Month}
  {timestamp : ℤ}

theorem searched_congr {q : Phase} (hmonth : ∀ p ∈ q.todo, s'.month? p = s.month? p) :
    s'.searched q = s.searched q := by
  cases q with
  | search tr todo ptws parts =>
    simp only [searched]
    congr 1
    refine filter_congr fun p hp => ?_
    rw [hmonth p hp]
  | _ => rfl

/-- The invariant speaks only about some fields, and about partitions only through their months. -/
theorem Inv.congr (h : s.Inv retentionMsecs) (hmonth : ∀ p, s'.month? p = s.month? p)
    (hlen : s'.pts.length = s.pts.length) (hclock : s'.clock = s.clock) (hptws : s'.ptws = s.ptws)
    (hlock : s'.lock = s.lock) (hthread : s'.thread = s.thread) (hdirs : s'.dirs = s.dirs)
    (hpanicked : s'.panicked = s.panicked) : s'.Inv retentionMsecs where
  not_panicked := by rw [hpanicked, h.not_panicked]
  months := by simpa only [hmonth] using h.months
  ptws_nodup := by rw [hptws]; exact h.ptws_nodup
  ptws_lt := by simpa only [hptws, hlen] using h.ptws_lt
  expired := by simpa only [hmonth, hptws, hclock] using h.expired
  dirs := by simpa only [hmonth, hptws, hdirs] using h.dirs
  owned := by simpa only [hmonth, hdirs, hthread] using h.owned
  thread i := by
    have hi := h.thread i
    rw [← hthread] at hi
    constructor
    · simpa only [hlen] using hi.refs_lt
    · exact hi.todo
    · rw [searched_congr fun p _ => hmonth p, hptws]
      exact hi.searched
    · simpa only [hmonth, hptws] using hi.pending
    · simpa only [hmonth, hptws, hlock, hdirs] using hi.creating
    · simpa only [hptws, hlen] using hi.closing
    · simpa only [hclock] using hi.enforcing

theorem Inv.modifyPt (h : s.Inv retentionMsecs) {f : Partition → Partition}
    (hf : ∀ pt, (f pt).month = pt.month) : (s.modifyPt p f).Inv retentionMsecs :=
  h.congr (month?_modifyPt f hf) (length_modifyPt f) rfl rfl rfl rfl rfl rfl

@[simp]
theorem thread_setThread_self (t : Thread) : (s.setThread i t).thread i = t :=
  update_self ..

theorem thread_setThread_of_ne {j : ℕ} (hji : j ≠ i) (t : Thread) :
    (s.setThread i t).thread j = s.thread j :=
  update_of_ne hji ..

/-- A thread moves on, and has made or removed directories. -/
theorem Inv.setThreadDirs (h : s.Inv retentionMsecs) {t : Thread}
    (ht : { s with dirs := d }.ThreadOk i t)
    (hdirs : ∀ p ∈ s.ptws, ∀ m, s.month? p = some m → ∀ k < 3, d m k = true)
    (hother : ∀ j timestamp made, j ≠ i → (s.thread j).phase = .creating timestamp made →
      ∀ k < made, d (Calendar.timestampToMonth timestamp) k = true)
    (howned : ∀ m k, d m k = true → (∃ p, s.month? p = some m) ∨ ∃ j timestamp made,
      ((s.setThread i t).thread j).phase = .creating timestamp made ∧
      Calendar.timestampToMonth timestamp = m ∧ k < made) :
    { s.setThread i t with dirs := d }.Inv retentionMsecs where
  not_panicked := h.not_panicked
  months := h.months
  ptws_nodup := h.ptws_nodup
  ptws_lt := h.ptws_lt
  expired := h.expired
  dirs := hdirs
  owned := howned
  thread j := by
    change ThreadOk _ j ((s.setThread i t).thread j)
    by_cases hji : j = i
    · subst hji
      rw [thread_setThread_self]
      exact ⟨ht.refs_lt, ht.todo, ht.searched, ht.pending, ht.creating, ht.closing, ht.enforcing⟩
    · rw [thread_setThread_of_ne hji]
      have hj := h.thread j
      refine ⟨hj.refs_lt, hj.todo, hj.searched, hj.pending, ?_, hj.closing, hj.enforcing⟩
      intro timestamp made hc
      obtain ⟨hlock, hreg, -⟩ := hj.creating timestamp made hc
      exact ⟨hlock, hreg, hother j timestamp made hji hc⟩

/-- A thread moves on, and has not made directories that it now forgets. -/
theorem Inv.setThread (h : s.Inv retentionMsecs) {t : Thread} (ht : s.ThreadOk i t)
    (hmade : ∀ timestamp made, (s.thread i).phase = .creating timestamp made →
      t.phase = .creating timestamp made) : (s.setThread i t).Inv retentionMsecs := by
  refine h.setThreadDirs (d := s.dirs) ht h.dirs ?_ ?_
  · intro j timestamp made _ hj
    exact ((h.thread j).creating timestamp made hj).2.2
  · intro m k hk
    refine (h.owned m k hk).imp_right ?_
    rintro ⟨j, timestamp, made, hj, hm, hlt⟩
    refine ⟨j, timestamp, made, ?_, hm, hlt⟩
    by_cases hji : j = i
    · subst hji
      rw [thread_setThread_self]
      exact hmade timestamp made hj
    · rw [thread_setThread_of_ne hji]
      exact hj

/-- A month whose partition is not registered is not the month of an update. -/
theorem Inv.month_ne_of_pending (h : s.Inv retentionMsecs) {j : ℕ} (hm : s.month? p = some m)
    (hp : p ∉ s.ptws)
    (hj : (s.thread j).phase.pending = some timestamp) :
    Calendar.timestampToMonth timestamp ≠ m := by
  rintro rfl
  have hout := (h.thread j).pending timestamp hj p _ hm hp
  have hin := Calendar.TimeRange.contains_fromPartitionTimestamp timestamp
  rw [Calendar.TimeRange.fromPartitionTimestamp, hout] at hin
  cases hin

/-- The thread refers to nothing new. -/
theorem ThreadOk.of_refs {q : Phase} (hlt : ∀ p ∈ q.ptwRefs, p < s.pts.length)
    (htodo : ∀ p ∈ q.todo, p ∈ q.ptwRefs) (hsearched : ∀ p ∈ s.searched q, p ∈ s.ptws)
    (hpending : q.pending = none)
    (henforcing : ∀ now, q = .enforcing now → now ≤ s.clock) : s.ThreadOk i ⟨q, none⟩ where
  refs_lt := hlt
  todo := htodo
  searched := hsearched
  pending timestamp h := by simp [hpending] at h
  creating timestamp made h := by
    simp only at h
    simp [h, Phase.pending] at hpending
  closing p k h := by simp at h
  enforcing := henforcing

/-- Releasing a reference. The last one makes the thread close a partition that is not registered,
since the list of the table is a reference too. -/
theorem Inv.dropRef (h : s.Inv retentionMsecs) {next : Phase} (hp : p < s.pts.length)
    (hnext : s.ThreadOk i ⟨next, none⟩)
    (hmade : ∀ timestamp made, (s.thread i).phase ≠ .creating timestamp made) :
    (s.dropRef i p next).Inv retentionMsecs := by
  have hgoto : (s.goto i next).Inv retentionMsecs :=
    h.setThread hnext fun timestamp made hc => absurd hc (hmade timestamp made)
  rw [State.dropRef]
  split_ifs with hcount
  · refine hgoto.setThread ?_ ?_
    · refine ⟨hnext.refs_lt, hnext.todo, hnext.searched, hnext.pending, hnext.creating, ?_,
        hnext.enforcing⟩
      intro q k hq
      obtain ⟨rfl, rfl⟩ := Prod.mk.inj (Option.some.inj hq)
      exact ⟨count_eq_zero.mp (Nat.add_eq_zero_iff.mp hcount).1, hp⟩
    · intro timestamp made hc
      rw [State.goto, thread_setThread_self] at hc
      exact hc
  · exact hgoto

/-- A directory of a partition that is not registered is removed. -/
theorem Inv.removeDir (h : s.Inv retentionMsecs) {t : Thread} (k : ℕ) (hm : s.month? p = some m)
    (hp : p ∉ s.ptws) (ht : s.ThreadOk i t) (hphase : t.phase = (s.thread i).phase) :
    { s.setThread i t with
      dirs := update s.dirs m (update (s.dirs m) k false) }.Inv
      retentionMsecs := by
  have hother : ∀ m', m' ≠ m →
      update s.dirs m (update (s.dirs m) k false) m' = s.dirs m' :=
    fun m' hne => update_of_ne hne ..
  have hle : ∀ m' k', update s.dirs m (update (s.dirs m) k false) m' k' = true →
      s.dirs m' k' = true := by
    intro m' k' hk'
    by_cases hne : m' = m
    · subst hne
      rw [update_self] at hk'
      by_cases hkk : k' = k
      · rw [hkk, update_self] at hk'
        cases hk'
      · rwa [update_of_ne hkk] at hk'
    · rwa [hother m' hne] at hk'
  have hcreating : ∀ j timestamp made, (s.thread j).phase = .creating timestamp made → ∀ k' < made,
      update s.dirs m (update (s.dirs m) k false)
        (Calendar.timestampToMonth timestamp) k' = true := by
    intro j timestamp made hj k' hk'
    rw [hother _ (h.month_ne_of_pending hm hp (by rw [hj]; rfl))]
    exact ((h.thread j).creating timestamp made hj).2.2 k' hk'
  refine h.setThreadDirs ?_ ?_ (fun j timestamp made _ => hcreating j timestamp made) ?_
  · refine ⟨ht.refs_lt, ht.todo, ht.searched, ht.pending, ?_, ht.closing, ht.enforcing⟩
    intro timestamp made hc
    obtain ⟨hlock, hreg, -⟩ := ht.creating timestamp made hc
    exact ⟨hlock, hreg, hcreating i timestamp made (hphase ▸ hc)⟩
  · intro q hq m' hm' k' hk'
    rw [hother m' fun heq => hp (h.months q p m (heq ▸ hm') hm ▸ hq)]
    exact h.dirs q hq m' hm' k' hk'
  · intro m' k' hk'
    exact (h.setThread ht fun _ _ hc => hphase.trans hc).owned m' k' (hle m' k' hk')

/-- No partition there has been is the one that an update is creating. -/
theorem Inv.month?_ne_of_creating (h : s.Inv retentionMsecs)
    (hi : (s.thread i).phase = .creating timestamp made) (q : ℕ) :
    s.month? q ≠ some (Calendar.timestampToMonth timestamp) := by
  intro hq
  by_cases hreg : q ∈ s.ptws
  · have hout := ((h.thread i).creating timestamp made hi).2.1 q hreg _ hq
    have hin := Calendar.TimeRange.contains_fromPartitionTimestamp timestamp
    rw [Calendar.TimeRange.fromPartitionTimestamp, hout] at hin
    cases hin
  · exact h.month_ne_of_pending hq hreg (by rw [hi]; rfl) rfl

/-- The directory that an update makes next is not there. -/
theorem Inv.dirs_eq_false (h : s.Inv retentionMsecs)
    (hi : (s.thread i).phase = .creating timestamp made) :
    s.dirs (Calendar.timestampToMonth timestamp) made = false := by
  by_contra hdir
  obtain ⟨q, hq⟩ | ⟨j, timestamp', made', hj, -, hlt⟩ := h.owned _ _ (by simpa using hdir)
  · exact h.month?_ne_of_creating hi q hq
  · have hij : i = j := by
      have hlock := ((h.thread i).creating _ _ hi).1
      rw [((h.thread j).creating _ _ hj).1] at hlock
      exact (Option.some.inj hlock).symm
    subst hij
    rw [hi] at hj
    obtain ⟨rfl, rfl⟩ := Phase.creating.inj hj
    exact Nat.lt_irrefl _ hlt

/-- The directories after one more has been made. -/
theorem update_dirs_of_true {m' : Calendar.Month} {k' : ℕ} (h : d m' k' = true) :
    update d m (update (d m) k true) m' k' = true := by
  by_cases hm : m' = m
  · subst hm
    rw [update_self]
    by_cases hk : k' = k
    · rw [hk, update_self]
    · rwa [update_of_ne hk]
  · rwa [update_of_ne hm]

/-- The last of three directories completes them. -/
theorem update_dirs_lt (h : ∀ k < made, d m k = true) (hk : k < made + 1) :
    update d m (update (d m) made true) m k = true := by
  by_cases hlast : k = made
  · rw [hlast, update_self, update_self]
  · exact update_dirs_of_true (h k (by omega))

/-- A directory is an old one or the new one. -/
theorem of_update_dirs {m' : Calendar.Month} {k' : ℕ}
    (h : update d m (update (d m) k true) m' k' = true) :
    d m' k' = true ∨ (m' = m ∧ k' = k) := by
  by_cases hm : m' = m
  · subst hm
    rw [update_self] at h
    by_cases hk : k' = k
    · exact .inr ⟨rfl, hk⟩
    · rw [update_of_ne hk] at h
      exact .inl h
  · rw [update_of_ne hm] at h
    exact .inl h

/-- An update makes a directory that is not the last one. -/
theorem Inv.mkdir (h : s.Inv retentionMsecs) (hi : (s.thread i).phase = .creating timestamp made) :
    { s.goto i (.creating timestamp (made + 1)) with
      dirs := update s.dirs (Calendar.timestampToMonth timestamp)
        (update (s.dirs (Calendar.timestampToMonth timestamp)) made true) }.Inv
      retentionMsecs := by
  have hti := h.thread i
  obtain ⟨hlock, hreg, hmade⟩ := hti.creating timestamp made hi
  refine h.setThreadDirs ?_ ?_ ?_ ?_
  · refine ⟨by simp [Phase.ptwRefs], by simp [Phase.todo], by simp [searched], ?_,
      ?_, by simp, by simp⟩
    · intro timestamp' hpending
      exact hti.pending timestamp' (by rw [hi]; exact hpending)
    · intro timestamp' made' hc
      obtain ⟨rfl, rfl⟩ := Phase.creating.inj hc
      exact ⟨hlock, hreg, fun k hk => update_dirs_lt hmade hk⟩
  · intro p hp m hm k hk
    exact update_dirs_of_true (h.dirs p hp m hm k hk)
  · intro j timestamp' made' _ hj k hk
    exact update_dirs_of_true (((h.thread j).creating timestamp' made' hj).2.2 k hk)
  · intro m k hk
    have hself : ((s.goto i (.creating timestamp (made + 1))).thread i).phase =
        .creating timestamp (made + 1) := by rw [goto, thread_setThread_self]
    obtain hk | ⟨hm, hkm⟩ := of_update_dirs hk
    · refine (h.owned m k hk).imp_right ?_
      rintro ⟨j, timestamp', made', hj, hm, hlt⟩
      by_cases hji : j = i
      · subst hji
        rw [hi] at hj
        obtain ⟨rfl, rfl⟩ := Phase.creating.inj hj
        exact ⟨j, timestamp, made + 1, hself, hm, by omega⟩
      · exact ⟨j, timestamp', made', by rwa [thread_setThread_of_ne hji], hm, hlt⟩
    · exact .inr ⟨i, timestamp, made + 1, hself, hm.symm, by omega⟩

theorem month?_lt (hp : p < s.pts.length) {pts : List Partition} (hpts : s'.pts = s.pts ++ pts) :
    s'.month? p = s.month? p := by
  rw [month?, month?, pt?, pt?, hpts, getElem?_append_left hp]

theorem lt_of_month? (hm : s.month? p = some m) : p < s.pts.length :=
  month?_isSome_iff.mp ⟨m, hm⟩

/-- An update has made the last directory, and registers the partition. -/
theorem Inv.register (h : s.Inv retentionMsecs) (hi : (s.thread i).phase = .creating timestamp made)
    (hlast : 2 ≤ made) :
    { s.goto i (.holding s.pts.length) with
      dirs := update s.dirs (Calendar.timestampToMonth timestamp)
        (update (s.dirs (Calendar.timestampToMonth timestamp)) made true)
      pts := s.pts ++ [(⟨Calendar.timestampToMonth timestamp, [], [], false⟩ : Partition)]
      ptws := s.ptws ++ [s.pts.length]
      lock := none }.Inv retentionMsecs := by
  obtain ⟨hlock, hreg, hmade⟩ := (h.thread i).creating timestamp made hi
  have hnone : ∀ j timestamp' made', j ≠ i → (s.thread j).phase ≠ .creating timestamp' made' := by
    intro j timestamp' made' hji hj
    have hlock' := ((h.thread j).creating timestamp' made' hj).1
    rw [hlock] at hlock'
    exact hji (Option.some.inj hlock').symm
  set s' : State := { s.goto i (.holding s.pts.length) with
    dirs := update s.dirs (Calendar.timestampToMonth timestamp)
      (update (s.dirs (Calendar.timestampToMonth timestamp)) made true)
    pts := s.pts ++ [⟨Calendar.timestampToMonth timestamp, [], [], false⟩]
    ptws := s.ptws ++ [s.pts.length]
    lock := none } with hs'
  have hlen : s'.pts.length = s.pts.length + 1 := length_append
  have hold : ∀ p < s.pts.length, s'.month? p = s.month? p := fun p hp => month?_lt hp rfl
  have hnew : s'.month? s.pts.length = some (Calendar.timestampToMonth timestamp) := by
    simp [hs', month?, pt?]
  have hcases : ∀ p m, s'.month? p = some m → s.month? p = some m ∨
      (p = s.pts.length ∧ m = Calendar.timestampToMonth timestamp) := by
    intro p m hm
    obtain hp | hp := Nat.lt_succ_iff_lt_or_eq.mp (hlen ▸ lt_of_month? hm)
    · exact .inl (hold p hp ▸ hm)
    · subst hp
      exact .inr ⟨rfl, Option.some.inj (hm.symm.trans hnew)⟩
  have hnot : ∀ p m, s'.month? p = some m → p ∉ s'.ptws → s.month? p = some m ∧ p ∉ s.ptws := by
    intro p m hm hp
    rw [mem_append, not_or] at hp
    refine ⟨(hcases p m hm).resolve_right fun heq => hp.2 ?_, hp.1⟩
    rw [heq.1]
    exact mem_singleton_self _
  have hptws : ∀ p ∈ s'.ptws, p ∈ s.ptws ∨ p = s.pts.length := by
    intro p hp
    exact (mem_append.mp hp).imp_right mem_singleton.mp
  refine ⟨h.not_panicked, ?_, ?_, ?_, ?_, ?_, ?_, ?_⟩
  · intro p q m hp hq
    obtain hp | ⟨rfl, rfl⟩ := hcases p m hp
    · obtain hq | ⟨rfl, rfl⟩ := hcases q m hq
      · exact h.months p q m hp hq
      · exact absurd hp (h.month?_ne_of_creating hi p)
    · obtain hq | ⟨rfl, -⟩ := hcases q _ hq
      · exact absurd hq (h.month?_ne_of_creating hi q)
      · rfl
  · refine nodup_append'.mpr ⟨h.ptws_nodup, nodup_singleton _, ?_⟩
    intro p hp hp'
    exact absurd (h.ptws_lt p hp) (by rw [mem_singleton.mp hp']; exact Nat.lt_irrefl _)
  · intro p hp
    rw [hlen]
    obtain hp | rfl := hptws p hp
    · exact Nat.lt_succ_of_lt (h.ptws_lt p hp)
    · exact Nat.lt_succ_self _
  · intro p m hm hp
    obtain ⟨hm, hp⟩ := hnot p m hm hp
    exact h.expired p m hm hp
  · intro p hp m hm k hk
    obtain hp | rfl := hptws p hp
    · rw [hold p (h.ptws_lt p hp)] at hm
      exact update_dirs_of_true (h.dirs p hp m hm k hk)
    · obtain rfl := Option.some.inj (hnew.symm.trans hm)
      exact update_dirs_lt hmade (by omega)
  · intro m k hk
    obtain hk | ⟨rfl, -⟩ := of_update_dirs hk
    · obtain ⟨p, hp⟩ | ⟨j, timestamp', made', hj, rfl, -⟩ := h.owned m k hk
      · exact .inl ⟨p, by rw [hold p (lt_of_month? hp), hp]⟩
      · by_cases hji : j = i
        · subst hji
          rw [hi] at hj
          obtain ⟨rfl, -⟩ := Phase.creating.inj hj
          exact .inl ⟨_, hnew⟩
        · exact absurd hj (hnone j timestamp' made' hji)
    · exact .inl ⟨_, hnew⟩
  · intro j
    change ThreadOk s' j ((s.goto i (.holding s.pts.length)).thread j)
    by_cases hji : j = i
    · subst hji
      rw [goto, thread_setThread_self]
      refine ThreadOk.of_refs ?_ (by simp [Phase.todo]) (by simp [searched]) rfl (by simp)
      intro p hp
      rw [hlen, mem_singleton.mp hp]
      exact Nat.lt_succ_self _
    · rw [goto, thread_setThread_of_ne hji]
      have hj := h.thread j
      refine ⟨?_, ?_, ?_, ?_, ?_, ?_, hj.enforcing⟩
      · intro p hp
        rw [hlen]
        exact Nat.lt_succ_of_lt (hj.refs_lt p hp)
      · exact hj.todo
      · intro p hp
        rw [searched_congr fun p hp => hold p (hj.refs_lt p (hj.todo p hp))] at hp
        exact mem_append_left _ (hj.searched p hp)
      · intro timestamp' hpending p m hm hp
        obtain ⟨hm, hp⟩ := hnot p m hm hp
        exact hj.pending timestamp' hpending p m hm hp
      · intro timestamp' made' hc
        exact absurd hc (hnone j timestamp' made' hji)
      · intro p k hk
        obtain ⟨hp, hlt⟩ := hj.closing p k hk
        refine ⟨fun hmem => ?_, by omega⟩
        obtain hmem | rfl := hptws p hmem
        · exact hp hmem
        · exact Nat.lt_irrefl _ hlt

/-- The update that finds no partition creates one. -/
theorem Inv.startCreate (h : s.Inv retentionMsecs) (hi : (s.thread i).phase = .validated timestamp)
    (hlock : s.lock = none) (hfind : s.find? timestamp = none) :
    { s.goto i (.creating timestamp 0) with lock := some i }.Inv retentionMsecs := by
  have hnone : ∀ j timestamp' made', (s.thread j).phase ≠ .creating timestamp' made' := by
    intro j timestamp' made' hj
    have hlock' := ((h.thread j).creating timestamp' made' hj).1
    rw [hlock] at hlock'
    cases hlock'
  have hreg : ∀ p ∈ s.ptws, ∀ m, s.month? p = some m →
      (Calendar.TimeRange.fromMonth m).contains timestamp = false := by
    intro p hp m hm
    obtain ⟨pt, hpt, rfl⟩ := Option.map_eq_some_iff.mp hm
    have hno := find?_eq_none.mp hfind p hp
    rw [hpt] at hno
    simpa [Partition.timeRange] using hno
  refine ⟨h.not_panicked, h.months, h.ptws_nodup, h.ptws_lt, h.expired, h.dirs, ?_, ?_⟩
  · intro m k hk
    refine .inl ((h.owned m k hk).resolve_right ?_)
    rintro ⟨j, timestamp', made', hj, -⟩
    exact hnone j timestamp' made' hj
  · intro j
    change ThreadOk _ j ((s.goto i (.creating timestamp 0)).thread j)
    by_cases hji : j = i
    · subst hji
      rw [goto, thread_setThread_self]
      refine ⟨by simp [Phase.ptwRefs], by simp [Phase.todo], by simp [searched], ?_,
        ?_, by simp, by simp⟩
      · intro timestamp' hpending
        exact (h.thread j).pending timestamp' (by rw [hi]; exact hpending)
      · intro timestamp' made' hc
        obtain ⟨rfl, rfl⟩ := Phase.creating.inj hc
        exact ⟨rfl, hreg, by simp⟩
    · rw [goto, thread_setThread_of_ne hji]
      have hj := h.thread j
      exact ⟨hj.refs_lt, hj.todo, hj.searched, hj.pending,
        fun timestamp' made' hc => absurd hc (hnone j timestamp' made'), hj.closing, hj.enforcing⟩

/-- A safe retention pass takes partitions out of the list. -/
theorem Inv.enforceRetention (h : s.Inv retentionMsecs) {now : ℤ}
    (hi : (s.thread i).phase = .enforcing now) (hlock : s.lock = none)
    (hsafe : s.RetentionSafe retentionMsecs futureRetentionMsecs (.enforceRetention i)) :
    { s.goto i (.dropping (s.outside retentionMsecs futureRetentionMsecs now)) with
      ptws := s.ptws.filter fun p =>
        !(s.outside retentionMsecs futureRetentionMsecs now).contains p }.Inv retentionMsecs := by
  have hmem : ∀ p, p ∈ (s.ptws.filter fun p =>
      !(s.outside retentionMsecs futureRetentionMsecs now).contains p) ↔
      p ∈ s.ptws ∧ p ∉ s.outside retentionMsecs futureRetentionMsecs now := by
    intro p
    simp
  have hdrop : ∀ p m, s.month? p = some m → p ∉ (s.ptws.filter fun p =>
      !(s.outside retentionMsecs futureRetentionMsecs now).contains p) →
      p ∉ s.ptws ∨ p ∈ s.outside retentionMsecs futureRetentionMsecs now := by
    intro p m _ hp
    rw [hmem] at hp
    tauto
  have hnone : ∀ j timestamp' made', (s.thread j).phase ≠ .creating timestamp' made' := by
    intro j timestamp' made' hj
    have hlock' := ((h.thread j).creating timestamp' made' hj).1
    rw [hlock] at hlock'
    cases hlock'
  refine ⟨h.not_panicked, h.months, h.ptws_nodup.filter _, ?_, ?_, ?_, ?_, ?_⟩
  · intro p hp
    exact h.ptws_lt p ((hmem p).mp hp).1
  · intro p m hm hp
    obtain hp | hp := hdrop p m hm hp
    · exact h.expired p m hm hp
    · have hlt := (hsafe now hi p hp m hm).1
      have hle := (h.thread i).enforcing now hi
      change _ < s.clock - retentionMsecs
      omega
  · intro p hp
    exact h.dirs p ((hmem p).mp hp).1
  · intro m k hk
    refine .inl ((h.owned m k hk).resolve_right ?_)
    rintro ⟨j, timestamp', made', hj, -⟩
    exact hnone j timestamp' made' hj
  · intro j
    change ThreadOk _ j ((s.goto i _).thread j)
    by_cases hji : j = i
    · subst hji
      rw [goto, thread_setThread_self]
      refine ThreadOk.of_refs ?_ (by simp [Phase.todo]) (by simp [searched]) rfl (by simp)
      intro p hp
      exact h.ptws_lt p (mem_of_mem_filter hp)
    · rw [goto, thread_setThread_of_ne hji]
      have hj := h.thread j
      refine ⟨hj.refs_lt, hj.todo, ?_, ?_, ?_, ?_, hj.enforcing⟩
      · intro p hp
        have hreg := hj.searched p hp
        obtain ⟨m, hm⟩ := month?_isSome_iff.mpr (h.ptws_lt p hreg)
        exact (hmem p).mpr ⟨hreg, fun hout => ((hsafe now hi p hout m hm).2 j).1 hp⟩
      · intro timestamp hpending p m hm hp
        obtain hp | hp := hdrop p m hm hp
        · exact hj.pending timestamp hpending p m hm hp
        · exact ((hsafe now hi p hp m hm).2 j).2 timestamp hpending
      · intro timestamp' made' hc
        exact absurd hc (hnone j timestamp' made')
      · intro p k hk
        obtain ⟨hp, hlt⟩ := hj.closing p k hk
        exact ⟨fun hmem' => hp ((hmem p).mp hmem').1, hlt⟩

theorem find?_mem (h : s.find? timestamp = some p) : p ∈ s.ptws :=
  mem_of_find?_eq_some h

/-- A step of a thread that is not closing a partition. -/
theorem Inv.stepPhase (h : s.Inv retentionMsecs) {a : Action} {res : Except String State}
    (ha : a.thread? = some i) (hsafe : s.RetentionSafe retentionMsecs futureRetentionMsecs a)
    (hres : s.stepPhase retentionMsecs futureRetentionMsecs i (s.thread i).phase a = some res) :
    ∃ s', res = .ok s' ∧ s'.Inv retentionMsecs := by
  have hrefs := (h.thread i).refs_lt
  have htodo := (h.thread i).todo
  have hsearched := (h.thread i).searched
  cases a with
  | startSearch j tr =>
    simp only [State.stepPhase] at hres
    split at hres <;> cases hres
    next hphase _ =>
    refine ⟨_, rfl, h.setThread (ThreadOk.of_refs h.ptws_lt ?_ ?_ rfl (by simp)) (by simp [hphase])⟩
    · exact fun p hp => hp
    · intro p hp
      rw [searched, map_nil, append_nil] at hp
      exact mem_of_mem_filter hp
  | takeParts j noTsids =>
    simp only [State.stepPhase] at hres
    split at hres
    next tr p todo ptws parts hphase =>
      split at hres <;> cases hres
      next pt hpt =>
      rw [hphase] at hrefs hsearched htodo
      refine ⟨_, rfl, h.setThread (ThreadOk.of_refs hrefs ?_ ?_ rfl (by simp)) (by simp [hphase])⟩
      · exact fun q hq => htodo q (mem_cons_of_mem _ hq)
      intro q hq
      refine hsearched q ?_
      simp only [searched, map_append, mem_append] at hq ⊢
      obtain hq | hq | hq := hq
      · exact .inl ((sublist_cons_self p todo).filter _ |>.mem hq)
      · exact .inr hq
      · split_ifs at hq with hno
        · cases hq
        -- The search takes the parts of a partition only when its range overlaps.
        · rw [← map_append] at hq
          obtain ⟨x, hx, rfl⟩ := mem_map.mp hq
          obtain ⟨part, -, rfl⟩ := mem_map.mp hx
          simp only [Bool.or_eq_true, Bool.not_eq_true', not_or, Bool.not_eq_false] at hno
          refine .inl (mem_filter.mpr ⟨mem_cons_self, ?_⟩)
          rw [month?, hpt]
          exact hno.2
    next => cases hres
  | endSearch j =>
    simp only [State.stepPhase] at hres
    split at hres <;> cases hres
    next tr ptws parts hphase =>
    rw [hphase] at hrefs hsearched
    exact ⟨_, rfl, h.setThread (ThreadOk.of_refs hrefs (by simp [Phase.todo]) hsearched rfl
      (by simp)) (by simp [hphase])⟩
  | releasePtw j =>
    simp only [State.stepPhase] at hres
    split at hres <;> cases hres
    next p ptws parts hphase =>
    rw [hphase] at hrefs hsearched
    exact ⟨_, rfl, h.dropRef (hrefs p mem_cons_self) (ThreadOk.of_refs
      (fun q hq => hrefs q (mem_cons_of_mem _ hq)) (by simp [Phase.todo]) hsearched rfl
      (by simp)) (by simp [hphase])⟩
  | releaseParts j =>
    simp only [State.stepPhase] at hres
    split at hres <;> cases hres
    next parts hphase =>
    exact ⟨_, rfl, h.setThread (ThreadOk.of_refs (by simp [Phase.ptwRefs])
      (by simp [Phase.todo]) (by simp [searched]) rfl (by simp)) (by simp [hphase])⟩
  | validate j timestamp =>
    simp only [State.stepPhase] at hres
    split at hres
    next hphase =>
      split_ifs at hres with hout
      cases hres
      refine ⟨_, rfl, h.setThread
        ⟨by simp [Phase.ptwRefs], by simp [Phase.todo], by simp [searched], ?_, by simp,
        by simp, by simp⟩ (by simp [hphase])⟩
      intro timestamp' hpending p m hm hp
      obtain rfl := Option.some.inj hpending
      have hlt := h.expired p m hm hp
      rw [Calendar.TimeRange.contains, decide_eq_false_iff_not]
      omega
    next => cases hres
  | mustGetPartition j =>
    simp only [State.stepPhase] at hres
    split at hres
    next timestamp hphase hlock =>
      split at hres <;> cases hres
      next ptw hfind =>
        refine ⟨_, rfl, h.setThread (ThreadOk.of_refs ?_ (by simp [Phase.todo])
          (by simp [searched]) rfl (by simp))
          (by simp [hphase])⟩
        intro q hq
        rw [mem_singleton.mp hq]
        exact h.ptws_lt ptw (find?_mem hfind)
      next hfind => exact ⟨_, rfl, h.startCreate hphase hlock hfind⟩
    next => cases hres
  | mkdir j =>
    simp only [State.stepPhase] at hres
    split at hres
    next timestamp made hphase =>
      rw [h.dirs_eq_false hphase, if_neg Bool.false_ne_true] at hres
      split_ifs at hres with hmade
      · cases hres
        exact ⟨_, rfl, h.mkdir hphase⟩
      · cases hres
        exact ⟨_, rfl, h.register hphase (by omega)⟩
    next => cases hres
  | addRows j =>
    simp only [State.stepPhase] at hres
    split at hres <;> cases hres
    next ptw hphase =>
    exact ⟨_, rfl, h.congr (month?_modifyPt _ fun _ => rfl) (length_modifyPt _) rfl rfl rfl rfl rfl
      rfl⟩
  | releasePartition j =>
    simp only [State.stepPhase] at hres
    split at hres <;> cases hres
    next ptw hphase =>
    rw [hphase] at hrefs
    exact ⟨_, rfl, h.dropRef (hrefs ptw mem_cons_self) (ThreadOk.of_refs
      (by simp [Phase.ptwRefs]) (by simp [Phase.todo]) (by simp [searched]) rfl (by simp))
      (by simp [hphase])⟩
  | readClock j =>
    simp only [State.stepPhase] at hres
    split at hres <;> cases hres
    next hphase =>
    refine ⟨_, rfl, h.setThread (ThreadOk.of_refs (by simp [Phase.ptwRefs])
      (by simp [Phase.todo]) (by simp [searched]) rfl ?_) (by simp [hphase])⟩
    intro now hnow
    exact Int.le_of_eq (Phase.enforcing.inj hnow).symm
  | enforceRetention j =>
    obtain rfl := Option.some.inj ha
    simp only [State.stepPhase] at hres
    split at hres <;> cases hres
    next now hphase hlock => exact ⟨_, rfl, h.enforceRetention hphase hlock hsafe⟩
  | dropNext j =>
    simp only [State.stepPhase] at hres
    split at hres <;> cases hres
    next p ptws hphase =>
    rw [hphase] at hrefs
    have hmark : (s.modifyPt p fun pt => { pt with mustDrop := true }).Inv retentionMsecs :=
      h.modifyPt fun _ => rfl
    refine ⟨_, rfl, hmark.dropRef ?_ (ThreadOk.of_refs ?_ (by simp [Phase.todo])
      (by simp [searched]) rfl (by simp)) ?_⟩
    · rw [length_modifyPt]
      exact hrefs p mem_cons_self
    · intro q hq
      rw [length_modifyPt]
      exact hrefs q (mem_cons_of_mem _ hq)
    · intro timestamp made hc
      change (s.thread i).phase = _ at hc
      simp [hphase] at hc
  | endRetention j =>
    simp only [State.stepPhase] at hres
    split at hres <;> cases hres
    next hphase =>
    exact ⟨_, rfl, h.setThread (ThreadOk.of_refs (by simp [Phase.ptwRefs])
      (by simp [Phase.todo]) (by simp [searched]) rfl (by simp)) (by simp [hphase])⟩
  | _ => cases hres

/-- A partition that is not registered has no parts in use. -/
theorem Inv.not_mem_partRefs (h : s.Inv retentionMsecs) (hp : p ∉ s.ptws) (j part : ℕ) :
    (p, part) ∉ (s.thread j).phase.partRefs := by
  intro hmem
  refine hp ((h.thread j).searched p ?_)
  cases hphase : (s.thread j).phase with
  | search tr todo ptws parts =>
    rw [hphase] at hmem
    exact mem_append_right _ (mem_map_of_mem (f := fst) hmem)
  | releasing ptws parts =>
    rw [hphase] at hmem
    exact mem_map_of_mem (f := fst) hmem
  | _ =>
    rw [hphase] at hmem
    cases hmem

/-- A step of a thread that is closing a partition. -/
theorem Inv.stepClosing (h : s.Inv retentionMsecs) {a : Action} {res : Except String State}
    (hclosing : (s.thread i).closing = some (p, k))
    (hres : s.stepClosing i (s.thread i) p k a = some res) :
    ∃ s', res = .ok s' ∧ s'.Inv retentionMsecs := by
  have hti := h.thread i
  obtain ⟨hp, hlt⟩ := hti.closing p k hclosing
  have hnext : ∀ c : Option (ℕ × ℕ), (∀ q k, c = some (q, k) → q = p) →
      s.ThreadOk i ⟨(s.thread i).phase, c⟩ := by
    intro c hc
    refine ⟨hti.refs_lt, hti.todo, hti.searched, hti.pending, hti.creating, ?_, hti.enforcing⟩
    intro q k hq
    rw [hc q k hq]
    exact ⟨hp, hlt⟩
  cases a with
  | mustClose j =>
    simp only [State.stepClosing] at hres
    split at hres
    next pt hpt =>
      have hfree : ∀ parts : List ℕ, parts.any (s.isPartReferenced p) = false := by
        intro parts
        simp only [isPartReferenced, any_eq_false, any_eq_true, contains_iff_mem]
        rintro part - ⟨j, -, hmem⟩
        exact h.not_mem_partRefs hp j part hmem
      rw [hfree, if_neg Bool.false_ne_true] at hres
      cases hres
      have hset := h.setThread (hnext (if pt.mustDrop then some (p, 1) else none) (by
        intro q k hq
        split_ifs at hq
        exact (Prod.mk.inj (Option.some.inj hq)).1.symm)) fun _ _ hc => hc
      exact ⟨_, rfl, hset.congr (month?_modifyPt _ fun _ => rfl) (length_modifyPt _) rfl rfl rfl rfl
        rfl rfl⟩
    next => cases hres
  | removeDir j =>
    simp only [State.stepClosing] at hres
    split at hres <;> cases hres
    next k pt hpt =>
    refine ⟨_, rfl, h.removeDir k (by rw [month?, hpt]; rfl) hp (hnext _ ?_) rfl⟩
    intro q k hq
    split_ifs at hq
    exact (Prod.mk.inj (Option.some.inj hq)).1.symm
  | _ => cases hres

theorem Inv.tick (h : s.Inv retentionMsecs) (msecs : ℕ) :
    { s with clock := s.clock + msecs }.Inv retentionMsecs where
  not_panicked := h.not_panicked
  months := h.months
  ptws_nodup := h.ptws_nodup
  ptws_lt := h.ptws_lt
  expired p m hm hp := by
    have := h.expired p m hm hp
    change _ < s.clock + msecs - retentionMsecs
    omega
  dirs := h.dirs
  owned := h.owned
  thread j := by
    have hj := h.thread j
    refine ⟨hj.refs_lt, hj.todo, hj.searched, hj.pending, hj.creating, hj.closing,
      fun now hnow => ?_⟩
    have := hj.enforcing now hnow
    change _ ≤ s.clock + msecs
    omega

/-- Every step of a table keeps the invariant, when the retention passes are safe. -/
theorem Inv.step (h : s.Inv retentionMsecs) {a : Action}
    (hsafe : s.RetentionSafe retentionMsecs futureRetentionMsecs a)
    (hs' : s.step retentionMsecs futureRetentionMsecs a = some s') : s'.Inv retentionMsecs := by
  unfold State.step at hs'
  rw [if_neg (by simp [h.not_panicked])] at hs'
  split at hs'
  next i ha =>
    split_ifs at hs' with hi
    obtain ⟨res, hres, rfl⟩ := Option.map_eq_some_iff.mp hs'
    have hok : ∃ s', res = .ok s' ∧ s'.Inv retentionMsecs := by
      split at hres
      next hclosing => exact h.stepPhase ha hsafe hres
      next p k hclosing => exact h.stepClosing hclosing hres
    obtain ⟨s', rfl, hinv⟩ := hok
    exact hinv
  next ha =>
    split at hs'
    next msecs =>
      cases hs'
      exact h.tick msecs
    next =>
      cases hs'
      exact h.congr (fun _ => rfl) rfl rfl rfl rfl rfl rfl rfl
    next p sel toFile =>
      split at hs' <;> cases hs'
      exact h.congr (month?_modifyPt _ fun _ => rfl) (length_modifyPt _) rfl rfl rfl rfl rfl rfl
    next => cases hs'

/-- A table that has just been opened. -/
theorem Inv.mustOpenTable (clock : ℤ) {pts : List (Calendar.Month × List ℕ)}
    (hpts : (pts.map fst).Nodup) : (mustOpenTable clock pts).Inv retentionMsecs := by
  have hmonth : ∀ p, (State.mustOpenTable clock pts).month? p = (pts.map fst)[p]? := by
    intro p
    simp only [State.mustOpenTable, month?, pt?, getElem?_map, Option.map_map]
    rfl
  have hmem : ∀ p, p < (State.mustOpenTable clock pts).pts.length →
      p ∈ (State.mustOpenTable clock pts).ptws := by
    intro p hp
    exact mem_range.mpr (by simpa [State.mustOpenTable] using hp)
  refine ⟨rfl, ?_, nodup_range, ?_, ?_, ?_, ?_, ?_⟩
  · intro p q m hp hq
    rw [hmonth] at hp hq
    obtain ⟨hlt, -⟩ := List.getElem?_eq_some_iff.mp hp
    exact (getElem?_inj hlt hpts).mp (hp.trans hq.symm)
  · intro p hp
    simpa [State.mustOpenTable] using hp
  · intro p m hm hp
    exact absurd (hmem p (lt_of_month? hm)) hp
  · intro p _ m hm k _
    rw [hmonth] at hm
    exact contains_iff_mem.mpr (mem_of_getElem? hm)
  · intro m k hk
    obtain ⟨p, hp⟩ := mem_iff_getElem?.mp (contains_iff_mem.mp hk)
    exact .inl ⟨p, by rw [hmonth, hp]⟩
  · intro i
    exact ThreadOk.of_refs (by simp [Phase.ptwRefs]) (by simp [Phase.todo])
      (by simp [searched]) rfl (by simp)

end State

/-- **Dropping partitions is safe when nobody needs them.** In every run of a table, opened with one
partition for each month, whose retention passes drop only partitions behind the retention whose
parts no search has or may still take and for which no update is about to ask: no assertion fails,
so no creation of a partition finds its directories and no close of a partition finds parts in use;
a partition that is being closed has no parts in use; no two registered partitions have the same
month; and the directories of the registered partitions are there. -/
theorem retention_safe {retentionMsecs futureRetentionMsecs clock : ℤ}
    {pts : List (Calendar.Month × List ℕ)} (hpts : (pts.map fst).Nodup)
    (r : Run (State.step retentionMsecs futureRetentionMsecs) (State.mustOpenTable clock pts))
    (hsafe : ∀ n < r.length,
      (r.state n).RetentionSafe retentionMsecs futureRetentionMsecs (r.action n))
    (n : ℕ) (hn : n ≤ r.length) :
    (r.state n).panicked = none ∧
    (∀ i p k, ((r.state n).thread i).closing = some (p, k) → ∀ j part,
      (p, part) ∉ ((r.state n).thread j).phase.partRefs) ∧
    ((r.state n).ptws.map (r.state n).month?).Nodup ∧
    ∀ p ∈ (r.state n).ptws, ∃ m, (r.state n).month? p = some m ∧
      ∀ k < 3, (r.state n).dirs m k = true := by
  have hinv : (r.state n).Inv retentionMsecs := by
    induction n with
    | zero =>
      rw [r.state_zero]
      exact State.Inv.mustOpenTable clock hpts
    | succ n ih => exact (ih (by omega)).step (hsafe n (by omega)) (r.step_eq n (by omega))
  refine ⟨hinv.not_panicked, ?_, ?_, ?_⟩
  · intro i p k hclosing j part
    exact hinv.not_mem_partRefs ((hinv.thread i).closing p k hclosing).1 j part
  · refine hinv.ptws_nodup.map_on ?_
    intro p hp q _ heq
    obtain ⟨m, hm⟩ := State.month?_isSome_iff.mpr (hinv.ptws_lt p hp)
    exact hinv.months p q m hm (heq ▸ hm)
  · intro p hp
    obtain ⟨m, hm⟩ := State.month?_isSome_iff.mpr (hinv.ptws_lt p hp)
    exact ⟨m, hm, hinv.dirs p hp m hm⟩

/-! ### Two runs that fail, and one that does not -/

/-- A table with the partition of January 2024, opened at the start of February. -/
def january : State := .mustOpenTable 1706745600000 [(⟨2024, 1⟩, [5])]

/-- A search takes the part of January and begins to release its partitions after the retention of
one day has dropped January: it has the last reference. -/
def lateSearch : List Action :=
  [.spawn, .spawn, .startSearch 0 ⟨0, 1706745600000⟩, .takeParts 0 false, .endSearch 0,
    .tick 864000000000, .readClock 1, .enforceRetention 1, .dropNext 1, .endRetention 1,
    .releasePtw 0]

/-- An update asks for January after the retention has dropped it, while a search still has it. -/
def lateUpdate : List Action :=
  [.spawn, .spawn, .spawn, .startSearch 0 ⟨0, 1706745600000⟩, .takeParts 0 true,
    .validate 2 1706745500000, .tick 864000000000, .readClock 1, .enforceRetention 1, .dropNext 1,
    .endRetention 1, .mustGetPartition 2]

/-- The search closes the partition while it still has its part, and the close fails; and the
creation of a partition finds its directory. -/
theorem close_with_parts :
    (∃ s, exec (State.step 86400000 86400000) january lateSearch = some s ∧ s.panicked = none ∧
      (s.thread 0).closing = some (0, 0) ∧ (0, 5) ∈ (s.thread 0).phase.partRefs ∧
      (s.step 86400000 86400000 (.mustClose 0)).bind State.panicked =
        some "BUG: unexpected extra references to a part when closing partition") ∧
    ∃ s, exec (State.step 86400000 86400000) january lateUpdate = some s ∧ s.panicked = none ∧
      (s.step 86400000 86400000 (.mkdir 2)).bind State.panicked =
        some "FATAL: the directory already exists" := by
  have hsearch : (exec (State.step 86400000 86400000) january lateSearch).isSome := by
    decide
  have hupdate : (exec (State.step 86400000 86400000) january lateUpdate).isSome := by
    decide
  refine ⟨⟨_, (Option.some_get hsearch).symm, ?_⟩, _, (Option.some_get hupdate).symm, ?_⟩
  · revert hsearch
    decide
  · revert hupdate
    decide

/-- The retention drops January when nobody needs it, and an update creates February. -/
def dropActions : List Action :=
  [.spawn, .spawn, .validate 1 1706745600001, .mustGetPartition 1, .mkdir 1, .mkdir 1, .mkdir 1,
    .tick 864000000, .readClock 0, .enforceRetention 0, .dropNext 0, .mustClose 0, .removeDir 0,
    .removeDir 0, .removeDir 0, .endRetention 0]

def dropRun : Run (State.step 86400000 86400000) january :=
  Run.ofActions dropActions (by decide)

/-- No thread needs January when the retention drops it. -/
theorem dropRun_safe (n : ℕ) (hn : n < dropRun.length) :
    (dropRun.state n).RetentionSafe 86400000 86400000 (dropRun.action n) := by
  have hlt : n < 16 := hn
  have hthread : ∀ j, ((dropRun.state 9).thread j).phase = .idle ∨
      ((dropRun.state 9).thread j).phase = .holding 1 ∨
      ((dropRun.state 9).thread j).phase = .enforcing 1707609600000 := by
    intro j
    match j with
    | 0 => exact .inr (.inr (by decide))
    | 1 => exact .inr (.inl (by decide))
    | j + 2 => exact .inl rfl
  have hphase : ((dropRun.state 9).thread 0).phase = .enforcing 1707609600000 := by decide
  have hout : (dropRun.state 9).outside 86400000 86400000 1707609600000 = [0] := by decide
  have hmonth : (dropRun.state 9).month? 0 = some ⟨2024, 1⟩ := by decide
  by_cases h9 : n = 9
  · subst h9
    intro now hnow p hp m hm
    obtain rfl := Phase.enforcing.inj (hphase.symm.trans hnow)
    rw [hout] at hp
    obtain rfl := mem_singleton.mp hp
    obtain rfl := Option.some.inj (hmonth.symm.trans hm)
    refine ⟨by decide, fun j => ?_⟩
    obtain hj | hj | hj := hthread j <;> rw [hj] <;> simp [State.searched, Phase.pending]
  · interval_cases n <;> first | exact trivial | contradiction

theorem retention_safe_dropRun : dropRun.length = 16 ∧ (dropRun.state 16).ptws = [1] ∧
    (dropRun.state 16).dirs ⟨2024, 1⟩ 0 = false ∧
    ∃ m, (dropRun.state 16).month? 1 = some m ∧ ∀ k < 3, (dropRun.state 16).dirs m k = true :=
  ⟨rfl, by decide, by decide,
    (retention_safe (by decide) dropRun dropRun_safe 16 (by decide)).2.2.2 1 (by decide)⟩

end Esmetrics.Table
