import Mathlib.Data.List.Basic
import Esmetrics.Lib.Claims
import Esmetrics.Lib.Runs
import Esmetrics.Storage.Dedup
import Esmetrics.Storage.Partition.Merge

/-!
# File parts and crashes

Model of the file parts of a partition (`esm-storage/src/partition/merge.rs` and `mod.rs`) and of a
mergeset table (`esm-mergeset/src/table_merge.rs` and `table_parts.rs`): the part directories, the
file `parts.json` that names the registered ones, the merges and removals that change them, and
crashes at any point. The two programs differ in the directories they use, in the choice of the
destination of a merge, and in what they drop: a partition drops samples past the retention, deleted
series, and samples that another one replaces in its deduplication bucket, and it drops whole parts;
a table drops only duplicates of index entries. A `Kind` says which it is.

A part directory is created, filled, and only then named in `parts.json`, which is replaced
atomically together with the list in memory; a directory is removed only after `parts.json` has
stopped naming it. Opening reads the names, or takes every directory when there is no such file,
checks that the named directories exist, removes the others and opens the named ones.

Opening never fails, and a row that was in a registered file part stays in exactly one registered
part through every later merge, crash and opening, unless it is past the retention, its series is
deleted, or a row that replaces it is there (`row_survives`).
-/

namespace Esmetrics.PartStore

open List
open Prod (fst)
open Function (update update_apply update_eq_self update_of_ne update_self)

/-! ### Parts and kinds of stores -/

/-- A part: in memory, or in a directory. The rows are identified by numbers. -/
structure Part (Place : Type) where
  ptr : ℕ
  key : Option (Place × String)
  rows : List ℕ
  size : ℕ
  deriving DecidableEq

/-- What distinguishes the two programs. -/
structure Kind where
  Place : Type
  [decEq : DecidableEq Place]
  /-- The limits that the choice of a destination depends on. -/
  Env : Type
  /-- The directory of the part of a merge, or none for a part in memory. -/
  dstPlace : Env → List (Part Place) → Bool → Option Place
  /-- Empty merge results and parts past the retention are dropped. -/
  dropsParts : Bool
  isSpecialDir : String → Bool
  /-- A merge that has a file part among its sources goes to a file. -/
  durable : ∀ env pws isFinal, (∃ pw ∈ pws, pw.key.isSome) → (dstPlace env pws isFinal).isSome
  /-- What a row says. -/
  Row : Type
  /-- The time that the retention looks at. -/
  timestamp : Row → Option Int64
  /-- The series whose deletion drops the row. -/
  metricId : Row → Option UInt64
  /-- A merge that keeps the first row may drop the second one as its duplicate. -/
  replaces : Row → Row → Bool
  replaces_trans : ∀ a b d, replaces a b = true → replaces b d = true → replaces a d = true
  replaces_metricId : ∀ a b, replaces a b = true → metricId a = metricId b
  replaces_timestamp : ∀ a b, replaces a b = true →
    ∀ t ∈ timestamp a, ∃ t' ∈ timestamp b, t' ≤ t

attribute [instance] Kind.decEq

/-- The directories of a partition. -/
inductive PartitionDir where
  | small
  | big
  deriving DecidableEq

/-- A part of a partition as the choice of the destination sees it. -/
def toPartWrapper (pw : Part PartitionDir) : Partition.PartWrapper :=
  ⟨pw.ptr, [], pw.size, pw.key.isNone, 0⟩

/-- The directory of a part type. -/
def partitionDir : Partition.PartType → Option PartitionDir
  | .inmemory => none
  | .small => some .small
  | .big => some .big

/-- A sample of a partition: its series and its time. -/
structure Sample where
  metricId : UInt64
  timestamp : Int64

/-- The sample `a` is in the deduplication bucket of `b`, and not older. -/
def Sample.replaces (dedupInterval : Int64) (a b : Sample) : Bool :=
  decide (0 < dedupInterval ∧ a.metricId = b.metricId ∧ b.timestamp ≤ a.timestamp ∧
    bucketEnd dedupInterval a.timestamp = bucketEnd dedupInterval b.timestamp)

theorem Sample.replaces_iff {dedupInterval : Int64} {a b : Sample} :
    a.replaces dedupInterval b = true ↔
      0 < dedupInterval ∧ a.metricId = b.metricId ∧ b.timestamp ≤ a.timestamp ∧
        bucketEnd dedupInterval a.timestamp = bucketEnd dedupInterval b.timestamp :=
  decide_eq_true_iff

/-- A partition. The limits are the sizes of the largest small and in-memory part. -/
def partition (dedupInterval : Int64) : Kind where
  Place := PartitionDir
  Env := ℕ × ℕ
  dstPlace env pws isFinal := partitionDir
    (Partition.getDstPartType ⟨env.1, env.2, 0, [], [], [], 0, 0⟩ (pws.map toPartWrapper) isFinal)
  dropsParts := true
  isSpecialDir name := name = "tmp" || name = "txn" || name = "snapshots"
  durable := by
    rintro env pws isFinal ⟨pw, hpw, hkey⟩
    have hfile : Partition.areAllInmemoryParts (pws.map toPartWrapper) = false := by
      rw [Partition.areAllInmemoryParts, all_map, all_eq_false]
      refine ⟨pw, hpw, ?_⟩
      simpa [toPartWrapper, Option.isSome_iff_ne_none] using hkey
    simp only [Partition.getDstPartType, hfile]
    split_ifs <;> simp_all [partitionDir]
  Row := Sample
  timestamp row := some row.timestamp
  metricId row := some row.metricId
  replaces := Sample.replaces dedupInterval
  replaces_trans a b d hab hbd := by
    rw [Sample.replaces_iff] at hab hbd ⊢
    exact ⟨hab.1, hab.2.1.trans hbd.2.1, Int64.le_trans hbd.2.2.1 hab.2.2.1,
      hab.2.2.2.trans hbd.2.2.2⟩
  replaces_metricId a b hab := congrArg some (Sample.replaces_iff.mp hab).2.1
  replaces_timestamp a b hab := by
    rintro t ⟨⟩
    exact ⟨b.timestamp, rfl, (Sample.replaces_iff.mp hab).2.2.1⟩

/-- The directory of the part of a table's merge: the function `get_dst_part_type` of the table. -/
def tableDir (maxInmemoryPartSize : ℕ) (pws : List (Part Unit)) (isFinal : Bool) : Option Unit :=
  if isFinal || (pws.map Part.size).sum > maxInmemoryPartSize then some ()
  else if !pws.all fun pw => pw.key.isNone then some ()
  else none

/-- A mergeset table. The limit is the size of the largest in-memory part. A row is an index entry;
an item for a tag and several metric ids counts as one entry for each of them, because the callback
of the table joins and splits such items. -/
def table : Kind where
  Place := Unit
  Env := ℕ
  dstPlace := tableDir
  dropsParts := false
  isSpecialDir name := name = "tmp" || name = "txn" || name = "snapshots" || name = "cache"
  durable := by
    rintro env pws isFinal ⟨pw, hpw, hkey⟩
    have hfile : (pws.all fun pw => pw.key.isNone) = false :=
      all_eq_false.mpr ⟨pw, hpw, by simpa [Option.isSome_iff_ne_none] using hkey⟩
    unfold tableDir
    rw [hfile]
    split_ifs with hsize hmem
    · rfl
    · rfl
    · exact absurd rfl hmem
  Row := Bytes
  timestamp _ := none
  metricId _ := none
  replaces a b := a == b
  replaces_trans a b d hab hbd := beq_iff_eq.mpr ((beq_iff_eq.mp hab).trans (beq_iff_eq.mp hbd))
  replaces_metricId _ _ _ := rfl
  replaces_timestamp _ _ _ := nofun

/-- The digit of a number below 16. -/
def hexDigit (n : ℕ) : Char := if n < 10 then Char.ofNat (48 + n) else Char.ofNat (55 + n)

/-- The name of a part directory: 16 hexadecimal digits. -/
def partName (mergeIdx : UInt64) : String :=
  String.ofList ((List.range 16).reverse.map fun i => hexDigit (mergeIdx.toNat / 16 ^ i % 16))

example : partName 0x17F3A = "0000000000017F3A" := by decide

/-! ### The disk -/

/-- A part directory. One that is being created or removed is incomplete. -/
inductive Dir where
  | incomplete
  | complete (rows : List ℕ) (size : ℕ)
  deriving DecidableEq

/-- The part directories and the names in `parts.json`. -/
structure Disk (Key : Type) where
  entries : List Key
  dir : Key → Dir
  partsFile : Option (List Key)

namespace Disk

variable {Key : Type} [DecidableEq Key]

/-- The directory is made, and has no files yet. -/
def create (d : Disk Key) (k : Key) : Disk Key :=
  { d with entries := d.entries ++ [k], dir := update d.dir k .incomplete }

/-- The files of the part are written and synced. -/
def fill (d : Disk Key) (k : Key) (rows : List ℕ) (size : ℕ) : Disk Key :=
  { d with dir := update d.dir k (.complete rows size) }

/-- The removal of the directory begins. -/
def beginRemove (d : Disk Key) (k : Key) : Disk Key :=
  { d with dir := update d.dir k .incomplete }

/-- The directory is gone. -/
def endRemove (d : Disk Key) (k : Key) : Disk Key := { d with entries := d.entries.erase k }

/-- The rows of a directory. -/
def rowsAt (d : Disk Key) (k : Key) : List ℕ :=
  match d.dir k with
  | .incomplete => []
  | .complete rows _ => rows

/-- The size of a directory. -/
def sizeAt (d : Disk Key) (k : Key) : ℕ :=
  match d.dir k with
  | .incomplete => 0
  | .complete _ size => size

/-- The removal of a directory that is not selected does not change the selected ones. -/
theorem filter_endRemove {d : Disk Key} (hnd : d.entries.Nodup) {p : Key → Bool} {k : Key}
    (hk : k ∉ d.entries.filter p) : (d.endRemove k).entries.filter p = d.entries.filter p := by
  rw [endRemove, hnd.erase_eq_filter, filter_filter]
  refine filter_congr fun k' hk' => ?_
  by_cases heq : k' = k
  · subst heq
    simp only [mem_filter, not_and] at hk
    simp [hk hk']
  · simp [heq]

theorem mem_endRemove {d : Disk Key} {k k' : Key} (h : k' ∈ d.entries) (hne : k' ≠ k) :
    k' ∈ (d.endRemove k).entries :=
  (mem_erase_of_ne hne).mpr h

theorem nodup_endRemove {d : Disk Key} (hnd : d.entries.Nodup) (k : Key) :
    (d.endRemove k).entries.Nodup :=
  hnd.erase k

end Disk

/-! ### The processes -/

/-- What a worker is doing, with its source parts. -/
inductive Phase (Place : Type) where
  | idle
  /-- The destination directory, if any, is being filled. -/
  | merging (pws : List (Part Place)) (dst : Option (Place × String))
  /-- The empty destination directory is being removed. -/
  | removingEmpty (pws : List (Part Place)) (dst : Place × String) (drops : List ℕ)
  /-- The sources can be swapped for the new part, if there is one. -/
  | swapping (pws : List (Part Place)) (pwNew : Option (Option (Place × String) × List ℕ × ℕ))
      (drops : List ℕ)

namespace Phase

variable {Place : Type}

/-- The source parts. -/
def held : Phase Place → List (Part Place)
  | .idle => []
  | .merging pws _ | .removingEmpty pws _ _ | .swapping pws _ _ => pws

/-- The destination directory. -/
def dst : Phase Place → Option (Place × String)
  | .idle | .swapping _ none _ => none
  | .merging _ dst => dst
  | .removingEmpty _ dst _ => some dst
  | .swapping _ (some (key, _, _)) _ => key

end Phase

/-- The pointers of the parts. -/
def ptrs {Place : Type} (pws : List (Part Place)) : List ℕ := pws.map Part.ptr

/-- The directories of the file parts. -/
def fileKeys {Place : Type} (pws : List (Part Place)) : List (Place × String) :=
  pws.filterMap Part.key

/-- A process that has the store open. -/
structure Running (Place : Type) where
  parts : List (Part Place)
  isInMerge : ℕ → Bool
  nextPtr : ℕ
  mergeIdx : UInt64
  worker : ℕ → Phase Place
  /-- The directories of the parts that will be removed with their last reference. -/
  mustDrop : List (Place × String)

/-- No process, one that is opening the named parts, or one that has the store open. -/
inductive Proc (Place : Type) where
  | down
  | opening (names : List (Place × String))
  | running (r : Running Place)

/-- A store. The rows that were added, dropped by a merge or a removal, and lost with the memory
of a process are recorded for the statements. -/
structure Store (c : Kind) where
  disk : Disk (c.Place × String)
  proc : Proc c.Place
  failed : Option String
  row : ℕ → c.Row
  /-- The latest retention deadline so far. -/
  deadline : Int64
  /-- The series that have been deleted. -/
  deleted : List UInt64
  added : List ℕ
  dropped : List ℕ
  lost : List ℕ

/-- The steps of a store. -/
inductive Action (c : Kind) where
  | addToInmemoryParts (rows : List ℕ) (size : ℕ)
  /-- A worker takes those of the named parts that are not in a merge, and makes the destination
  directory. -/
  | startMerge (w : ℕ) (sel : List ℕ) (isFinal : Bool) (env : c.Env)
  | finishMerge (w : ℕ) (kept drops : List ℕ) (size : ℕ)
  | removeEmptyPart (w : ℕ)
  | abortMerge (w : ℕ)
  /-- A worker takes the parts whose rows are all older than the deadline. -/
  | removeStaleParts (w : ℕ) (retentionDeadline : Int64)
  | swapSrcWithDstParts (w : ℕ)
  /-- The last reference to a dropped part is gone, and its directory is being removed. -/
  | beginRemoveDir (k : c.Place × String)
  | endRemoveDir (k : c.Place × String)
  | crash
  /-- Time passes. -/
  | tick (retentionDeadline : Int64)
  | deleteSeries (metricIds : List UInt64)
  | mustReadPartNames
  | beginRemoveUnlisted (k : c.Place × String)
  | endRemoveUnlisted (k : c.Place × String)
  | mustOpenParts (nowNanos : UInt64)

instance (c : Kind) : Inhabited (Action c) := ⟨.crash⟩

namespace Running

variable {Place : Type} (r : Running Place)

/-- A worker goes to its next phase. -/
def goto (w : ℕ) (p : Phase Place) : Running Place :=
  { r with worker := update r.worker w p }

/-- The named parts that are not in a merge. -/
def select (sel : List ℕ) : List (Part Place) :=
  r.parts.filter fun pw => sel.contains pw.ptr && !r.isInMerge pw.ptr

/-- Takes the parts. -/
def claim (w : ℕ) (p : Phase Place) : Running Place :=
  { r.goto w p with isInMerge := fun n => r.isInMerge n || (ptrs p.held).contains n }

/-- Gives the parts of a worker back. -/
def release (w : ℕ) : Running Place :=
  { r.goto w .idle with
    isInMerge := fun n => r.isInMerge n && !(ptrs (r.worker w).held).contains n }

/-- The directory of a dropped part is gone. -/
def forget [DecidableEq (Place × String)] (k : Place × String) : Running Place :=
  { r with mustDrop := r.mustDrop.erase k }

/-- The registered parts after a swap. -/
def swapped (pws : List (Part Place)) (pwNew : Option (Option (Place × String) × List ℕ × ℕ)) :
    List (Part Place) :=
  (r.parts.filter fun pw => !(ptrs pws).contains pw.ptr) ++
    (pwNew.map fun x => ⟨r.nextPtr, x.1, x.2.1, x.2.2⟩).toList

end Running

namespace Store

variable {c : Kind} (s : Store c)

/-- The named parts: those of `parts.json`, or every directory that is not a special one. -/
def listing (d : Disk (c.Place × String)) : List (c.Place × String) :=
  match d.partsFile with
  | some names => names
  | none => d.entries.filter fun k => !c.isSpecialDir k.2

/-- The row is past the retention. -/
def Expired (x : ℕ) : Prop := (c.timestamp (s.row x)).any (· < s.deadline) = true

/-- The series of the row has been deleted. -/
def Deleted (x : ℕ) : Prop := (c.metricId (s.row x)).any s.deleted.contains = true

/-- A merge that keeps the given rows may drop the row. The deadline and the deleted series that the
merge has read when it began are older than those of the store. -/
def MayDrop (kept : List ℕ) (x : ℕ) : Prop :=
  s.Expired x ∨ s.Deleted x ∨ ∃ y ∈ kept, c.replaces (s.row y) (s.row x) = true

instance (x : ℕ) : Decidable (s.Expired x) := inferInstanceAs (Decidable (_ = true))

instance (x : ℕ) : Decidable (s.Deleted x) := inferInstanceAs (Decidable (_ = true))

instance (kept : List ℕ) (x : ℕ) : Decidable (s.MayDrop kept x) :=
  inferInstanceAs (Decidable (_ ∨ _ ∨ _))

/-- The process is gone. -/
def crash : Store c :=
  match s.proc with
  | .running r =>
    { s with
      proc := .down
      lost := s.lost ++ (r.parts.filter fun pw => pw.key.isNone).flatMap Part.rows }
  | _ => { s with proc := .down }

/-- One step of a process that has the store open. -/
def stepRunning (r : Running c.Place) : Action c → Option (Store c)
  | .addToInmemoryParts rows size =>
    -- rows are told apart by their numbers
    if rows.Nodup ∧ ∀ x ∈ rows, x ∉ s.added then
      some { s with
        proc := .running { r with
          parts := r.parts ++ [⟨r.nextPtr, none, rows, size⟩], nextPtr := r.nextPtr + 1 }
        added := s.added ++ rows }
    else none
  | .startMerge w sel isFinal env =>
    match r.worker w with
    | .idle =>
      let pws := r.select sel
      let mergeIdx := r.mergeIdx + 1
      if pws.isEmpty then none
      else
        match c.dstPlace env pws isFinal with
        | none =>
          some { s with proc := .running { r.claim w (.merging pws none) with mergeIdx :=
            mergeIdx } }
        | some place =>
          let k := (place, partName mergeIdx)
          -- `must_mkdir_fail_if_exist` aborts the process
          if k ∈ s.disk.entries then some s.crash
          else
            some { s with
              disk := s.disk.create k
              proc := .running { r.claim w (.merging pws (some k)) with mergeIdx := mergeIdx } }
    | _ => none
  | .finishMerge w kept drops size =>
    match r.worker w with
    | .merging pws dst =>
      if (kept ++ drops).Perm (pws.flatMap Part.rows) ∧ ∀ x ∈ drops, s.MayDrop kept x then
        match dst with
        | none =>
          let pwNew := if kept.isEmpty && c.dropsParts then none else some (none, kept, size)
          some { s with proc := .running (r.goto w (.swapping pws pwNew drops)) }
        | some k =>
          if kept.isEmpty && c.dropsParts then
            some { s with proc := .running (r.goto w (.removingEmpty pws k drops)) }
          else
            some { s with
              disk := s.disk.fill k kept size
              proc := .running (r.goto w (.swapping pws (some (some k, kept, size)) drops)) }
      else none
    | _ => none
  | .removeEmptyPart w =>
    match r.worker w with
    | .removingEmpty pws k drops =>
      some { s with
        disk := s.disk.endRemove k
        proc := .running (r.goto w (.swapping pws none drops)) }
    | _ => none
  | .abortMerge w =>
    match r.worker w with
    | .merging _ _ => some { s with proc := .running (r.release w) }
    | _ => none
  | .removeStaleParts w retentionDeadline =>
    match r.worker w with
    | .idle =>
      if c.dropsParts ∧ retentionDeadline ≤ s.deadline then
        let pws := r.select (ptrs (r.parts.filter fun pw =>
          pw.rows.all fun x => (c.timestamp (s.row x)).any (· < retentionDeadline)))
        some { s with
          proc := .running (r.claim w (.swapping pws none (pws.flatMap Part.rows))) }
      else none
    | _ => none
  | .swapSrcWithDstParts w =>
    match r.worker w with
    | .swapping pws pwNew drops =>
      let parts := r.swapped pws pwNew
      let isFileNew := (pwNew.bind fst).isSome
      let partsFile :=
        if !(fileKeys pws).isEmpty || isFileNew then some (fileKeys parts) else s.disk.partsFile
      some { s with
        disk := { s.disk with partsFile := partsFile }
        proc := .running { r.release w with
          parts := parts, nextPtr := r.nextPtr + 1, mustDrop := r.mustDrop ++ fileKeys pws }
        dropped := s.dropped ++ drops }
    | _ => none
  | .beginRemoveDir k =>
    if k ∈ r.mustDrop then some { s with disk := s.disk.beginRemove k } else none
  | .endRemoveDir k =>
    if k ∈ r.mustDrop then
      some { s with
        disk := s.disk.endRemove k
        proc := .running (r.forget k) }
    else none
  | _ => none

/-- One step; a failed assertion or a part that cannot be opened stops the store for good. -/
def step (s : Store c) (a : Action c) : Option (Store c) :=
  if s.failed.isSome then none
  else
    match a with
    | .crash => some s.crash
    | .tick retentionDeadline =>
      if s.deadline ≤ retentionDeadline then some { s with deadline := retentionDeadline } else none
    | .deleteSeries metricIds => some { s with deleted := s.deleted ++ metricIds }
    | .mustReadPartNames =>
      match s.proc with
      | .down =>
        let names := listing s.disk
        if ∀ k ∈ names, k ∈ s.disk.entries then some { s with proc := .opening names }
        else some { s with failed := some "FATAL: part is listed, but is missing on disk" }
      | _ => none
    | .beginRemoveUnlisted k =>
      match s.proc with
      | .opening names =>
        if k ∈ s.disk.entries ∧ k ∉ names then some { s with disk := s.disk.beginRemove k }
        else none
      | _ => none
    | .endRemoveUnlisted k =>
      match s.proc with
      | .opening names =>
        if k ∈ s.disk.entries ∧ k ∉ names then some { s with disk := s.disk.endRemove k } else none
      | _ => none
    | .mustOpenParts nowNanos =>
      match s.proc with
      | .opening names =>
        if ∀ k ∈ s.disk.entries, k ∈ names then
          if ∀ k ∈ names, s.disk.dir k ≠ .incomplete then
            let parts := names.zipIdx.map fun x =>
              ⟨x.2, some x.1, s.disk.rowsAt x.1, s.disk.sizeAt x.1⟩
            some { s with
              disk := { s.disk with partsFile := some (s.disk.partsFile.getD names) }
              proc := .running ⟨parts, fun _ => false, names.length, nowNanos, fun _ => .idle, []⟩ }
          else some { s with failed := some "FATAL: cannot open the part" }
        else none
      | _ => none
    | a =>
      match s.proc with
      | .running r => s.stepRunning r a
      | _ => none

/-- A store no process has opened yet: directories without `parts.json`, as an older version
leaves them; none for a new store. -/
def init (dirs : List (c.Place × String)) (content : c.Place × String → List ℕ × ℕ)
    (row : ℕ → c.Row) : Store c where
  disk := ⟨dirs, fun k => .complete (content k).1 (content k).2, none⟩
  proc := .down
  failed := none
  row := row
  deadline := Int64.minValue
  deleted := []
  added := (dirs.filter fun k => !c.isSpecialDir k.2).flatMap fun k => (content k).1
  dropped := []
  lost := []

end Store

/-! ### The invariant -/

section Lists

variable {Place : Type} {pws l : List (Part Place)} {pw : Part Place}

theorem mem_ptrs (h : pw ∈ pws) : pw.ptr ∈ ptrs pws := mem_map_of_mem h

theorem mem_fileKeys {k : Place × String} : k ∈ fileKeys pws ↔ ∃ pw ∈ pws, pw.key = some k :=
  mem_filterMap

/-- The parts of a list that are not among the given ones. -/
def without (pws l : List (Part Place)) : List (Part Place) :=
  l.filter fun pw => !(ptrs pws).contains pw.ptr

theorem mem_without : pw ∈ without pws l ↔ pw ∈ l ∧ pw.ptr ∉ ptrs pws := by
  simp [without]

/-- A list of parts is made of some of its parts and of the others. -/
theorem perm_without_append (hnd : (ptrs l).Nodup) (hnd' : (ptrs pws).Nodup)
    (hsub : ∀ pw ∈ pws, pw ∈ l) : l.Perm (without pws l ++ pws) :=
  perm_filter_append hnd hnd' hsub

theorem fileKeys_append (pws l : List (Part Place)) :
    fileKeys (pws ++ l) = fileKeys pws ++ fileKeys l :=
  filterMap_append

/-- Without in-memory parts, the directories are the same. -/
theorem fileKeys_filter {q : Part Place → Bool} :
    ∀ {l : List (Part Place)}, (∀ pw ∈ l, q pw = false → pw.key = none) →
      fileKeys (l.filter q) = fileKeys l
  | [], _ => rfl
  | pw :: l, h => by
    have ih : fileKeys (l.filter q) = fileKeys l :=
      fileKeys_filter fun pw' hpw' => h pw' (mem_cons_of_mem _ hpw')
    rw [filter_cons]
    split_ifs with hq
    · simp only [fileKeys, filterMap_cons] at ih ⊢
      rw [ih]
    · have hkey := h pw mem_cons_self (by simpa using hq)
      simp only [fileKeys, filterMap_cons, hkey] at ih ⊢
      exact ih

end Lists

/-- What a phase says: the sources are registered, the new part is on disk, and the rows of the
sources are kept, or dropped as `MayDrop` allows. A merge with a file part among its sources goes to
a file. -/
def Phase.WF {Place : Type} (MayDrop : List ℕ → ℕ → Prop) (d : Disk (Place × String))
    (parts : List (Part Place)) : Phase Place → Prop
  | .idle => True
  | .merging pws dst => (∀ pw ∈ pws, pw ∈ parts) ∧ (fileKeys pws ≠ [] → dst.isSome)
  | .removingEmpty pws _ drops | .swapping pws none drops =>
    (∀ pw ∈ pws, pw ∈ parts) ∧ drops.Perm (pws.flatMap Part.rows) ∧ ∀ x ∈ drops, MayDrop [] x
  | .swapping pws (some (key, rows, size)) drops =>
    (∀ pw ∈ pws, pw ∈ parts) ∧ (fileKeys pws ≠ [] → key.isSome) ∧
      (∀ k, key = some k → d.dir k = .complete rows size) ∧
      (rows ++ drops).Perm (pws.flatMap Part.rows) ∧ ∀ x ∈ drops, MayDrop rows x

theorem Phase.WF.mono {Place : Type} {MayDrop : List ℕ → ℕ → Prop} {d d' : Disk (Place × String)}
    {parts parts' : List (Part Place)} {p : Phase Place} (h : p.WF MayDrop d parts)
    (hmem : ∀ pw ∈ p.held, pw ∈ parts → pw ∈ parts')
    (hdir : ∀ k, p.dst = some k → d'.dir k = d.dir k) : p.WF MayDrop d' parts' := by
  match p, h with
  | .idle, _ => trivial
  | .merging pws dst, h => exact ⟨fun pw hpw => hmem pw hpw (h.1 pw hpw), h.2⟩
  | .removingEmpty pws k drops, h => exact ⟨fun pw hpw => hmem pw hpw (h.1 pw hpw), h.2⟩
  | .swapping pws none drops, h => exact ⟨fun pw hpw => hmem pw hpw (h.1 pw hpw), h.2⟩
  | .swapping pws (some (key, rows, size)) drops, ⟨hreg, hdur, hdisk, hrows⟩ =>
    exact ⟨fun pw hpw => hmem pw hpw (hreg pw hpw), hdur,
      fun k hk => (hdir k hk).trans (hdisk k hk), hrows⟩

theorem Phase.WF.imp {Place : Type} {MayDrop MayDrop' : List ℕ → ℕ → Prop}
    {d : Disk (Place × String)} {parts : List (Part Place)} {p : Phase Place}
    (h : p.WF MayDrop d parts) (himp : ∀ kept x, MayDrop kept x → MayDrop' kept x) :
    p.WF MayDrop' d parts := by
  match p, h with
  | .idle, _ => trivial
  | .merging pws dst, h => exact h
  | .removingEmpty pws k drops, ⟨hreg, hrows, hdrops⟩ =>
    exact ⟨hreg, hrows, fun x hx => himp _ x (hdrops x hx)⟩
  | .swapping pws none drops, ⟨hreg, hrows, hdrops⟩ =>
    exact ⟨hreg, hrows, fun x hx => himp _ x (hdrops x hx)⟩
  | .swapping pws (some (key, rows, size)) drops, ⟨hreg, hdur, hdisk, hrows, hdrops⟩ =>
    exact ⟨hreg, hdur, hdisk, hrows, fun x hx => himp _ x (hdrops x hx)⟩

/-- What holds of a process that has the store open. -/
structure Running.Inv {Place : Type} (MayDrop : List ℕ → ℕ → Prop) (d : Disk (Place × String))
    (r : Running Place) : Prop where
  partsFile : d.partsFile = some (fileKeys r.parts)
  content : ∀ pw ∈ r.parts, ∀ k, pw.key = some k → d.dir k = .complete pw.rows pw.size
  ptr_lt : ∀ n ∈ ptrs r.parts, n < r.nextPtr
  nodup : (ptrs r.parts).Nodup
  claims : ClaimsOk (fun w => ptrs (r.worker w).held) r.isInMerge
  wf : ∀ w, (r.worker w).WF MayDrop d r.parts
  dst : ∀ w k, (r.worker w).dst = some k →
    k ∈ d.entries ∧ k ∉ fileKeys r.parts ∧ k ∉ r.mustDrop
  dst_inj : ∀ w w' k, (r.worker w).dst = some k → (r.worker w').dst = some k → w = w'
  mustDrop_nodup : r.mustDrop.Nodup
  mustDrop : ∀ k ∈ r.mustDrop, k ∈ d.entries ∧ k ∉ fileKeys r.parts

namespace Store

variable {c : Kind} {s : Store c}

/-- What holds of the disk: the named parts are there, complete, and named once. -/
structure DiskOk (d : Disk (c.Place × String)) : Prop where
  nodup : d.entries.Nodup
  listing_nodup : (listing d).Nodup
  mem : ∀ k ∈ listing d, k ∈ d.entries
  complete : ∀ k ∈ listing d, d.dir k ≠ .incomplete

/-- The rows of the registered parts, or of the named directories while there are none. -/
def live (s : Store c) : List ℕ :=
  match s.proc with
  | .running r => r.parts.flatMap Part.rows
  | _ => (listing s.disk).flatMap s.disk.rowsAt

/-- What a process knows of the disk. -/
def ProcOk (MayDrop : List ℕ → ℕ → Prop) (d : Disk (c.Place × String)) : Proc c.Place → Prop
  | .down => True
  | .opening names => names = listing d
  | .running r => r.Inv MayDrop d

theorem ProcOk.imp {MayDrop MayDrop' : List ℕ → ℕ → Prop} {d : Disk (c.Place × String)}
    {proc : Proc c.Place} (h : ProcOk MayDrop d proc)
    (himp : ∀ kept x, MayDrop kept x → MayDrop' kept x) : ProcOk MayDrop' d proc := by
  cases proc with
  | down => trivial
  | opening names => exact h
  | running r =>
    have hr : r.Inv MayDrop d := h
    exact { hr with wf := fun w => (hr.wf w).imp himp }

/-- What holds between any two steps of a store. -/
structure Inv (s : Store c) : Prop where
  not_failed : s.failed = none
  disk : DiskOk s.disk
  proc : ProcOk s.MayDrop s.disk s.proc
  added_nodup : s.added.Nodup
  rows : (s.live ++ s.dropped ++ s.lost).Perm s.added

/-! ### The disk under the steps -/

/-- The disks name the same parts, with the same contents. -/
structure SameParts (d d' : Disk (c.Place × String)) : Prop where
  listing_eq : listing d' = listing d
  dir_eq : ∀ k ∈ listing d, d'.dir k = d.dir k

/-- The rows of the named directories. -/
def durableRows (d : Disk (c.Place × String)) : List ℕ := (listing d).flatMap d.rowsAt

variable {d d' : Disk (c.Place × String)} {k : c.Place × String}

theorem SameParts.durableRows_eq (h : SameParts d d') : durableRows d' = durableRows d := by
  rw [durableRows, durableRows, h.listing_eq]
  refine flatMap_congr fun k hk => ?_
  rw [Disk.rowsAt, Disk.rowsAt, h.dir_eq k hk]

theorem SameParts.diskOk (h : SameParts d d') (hd : DiskOk d) (hnd : d'.entries.Nodup)
    (hmem : ∀ k ∈ listing d, k ∈ d'.entries) : DiskOk d' where
  nodup := hnd
  listing_nodup := h.listing_eq ▸ hd.listing_nodup
  mem k hk := hmem k (h.listing_eq ▸ hk)
  complete k hk := by
    rw [h.listing_eq] at hk
    rw [h.dir_eq k hk]
    exact hd.complete k hk

theorem sameParts_beginRemove (hk : k ∉ listing d) : SameParts d (d.beginRemove k) where
  listing_eq := rfl
  dir_eq k' hk' := update_of_ne (fun heq : k' = k => hk (heq ▸ hk')) _ _

theorem sameParts_endRemove (hnd : d.entries.Nodup) (hk : k ∉ listing d) :
    SameParts d (d.endRemove k) where
  listing_eq := by
    unfold listing at hk ⊢
    cases hfile : d.partsFile with
    | some names => simp only [Disk.endRemove, hfile]
    | none =>
      have hfile' : (d.endRemove k).partsFile = none := hfile
      simp only [hfile, hfile'] at hk ⊢
      exact Disk.filter_endRemove hnd hk
  dir_eq _ _ := rfl

theorem sameParts_create {names : List (c.Place × String)} (hfile : d.partsFile = some names)
    (hk : k ∉ names) : SameParts d (d.create k) where
  listing_eq := by simp only [listing, Disk.create, hfile]
  dir_eq k' hk' := by
    simp only [listing, hfile] at hk'
    exact update_of_ne (fun heq : k' = k => hk (heq ▸ hk')) _ _

theorem sameParts_fill {names : List (c.Place × String)} (hfile : d.partsFile = some names)
    (hk : k ∉ names) (rows : List ℕ) (size : ℕ) : SameParts d (d.fill k rows size) where
  listing_eq := rfl
  dir_eq k' hk' := by
    simp only [listing, hfile] at hk'
    exact update_of_ne (fun heq : k' = k => hk (heq ▸ hk')) _ _

end Store

/-! ### A process under the steps -/

namespace Running

variable {Place : Type} {MayDrop : List ℕ → ℕ → Prop} {d d' : Disk (Place × String)}
  {r : Running Place} {w : ℕ} {p : Phase Place}

theorem worker_goto (r : Running Place) (w : ℕ) (p : Phase Place) (w' : ℕ) :
    (r.goto w p).worker w' = if w' = w then p else r.worker w' :=
  update_apply ..

theorem held_goto (r : Running Place) (w : ℕ) (p : Phase Place) :
    (fun w' => ptrs ((r.goto w p).worker w').held) =
      update (fun w' => ptrs (r.worker w').held) w (ptrs p.held) := by
  funext w'
  rw [worker_goto, update_apply]
  split_ifs <;> rfl

/-- A worker goes on, and the disk changes only where no other part is. -/
theorem Inv.move (h : r.Inv MayDrop d) {flags : ℕ → Bool} {mergeIdx : UInt64}
    (hfile : d'.partsFile = d.partsFile)
    (hdir : ∀ k ∈ fileKeys r.parts, d'.dir k = d.dir k)
    (hdir' : ∀ w' k, w' ≠ w → (r.worker w').dst = some k → d'.dir k = d.dir k)
    (hentries : ∀ k ∈ d.entries, (r.worker w).dst ≠ some k → k ∈ d'.entries)
    (hclaims : ClaimsOk (update (fun w' => ptrs (r.worker w').held) w (ptrs p.held)) flags)
    (hwf : p.WF MayDrop d' r.parts)
    (hdst : ∀ k, p.dst = some k → k ∈ d'.entries ∧ k ∉ fileKeys r.parts ∧ k ∉ r.mustDrop)
    (hdst' : ∀ w' k, w' ≠ w → p.dst = some k → (r.worker w').dst ≠ some k) :
    ({ r.goto w p with isInMerge := flags, mergeIdx := mergeIdx } : Running Place).Inv
    MayDrop d' where
  partsFile := hfile.trans h.partsFile
  content pw hpw k hk := (hdir k (mem_fileKeys.mpr ⟨pw, hpw, hk⟩)).trans (h.content pw hpw k hk)
  ptr_lt := h.ptr_lt
  nodup := h.nodup
  claims := by
    change ClaimsOk (fun w' => ptrs ((r.goto w p).worker w').held) flags
    rwa [held_goto]
  wf w' := by
    change ((r.goto w p).worker w').WF MayDrop d' r.parts
    rw [worker_goto]
    split_ifs with hw
    · exact hwf
    · exact (h.wf w').mono (fun _ _ hmem => hmem) fun k hk => hdir' w' k hw hk
  dst w' k hk := by
    change ((r.goto w p).worker w').dst = some k at hk
    rw [worker_goto] at hk
    split_ifs at hk with hw
    · exact hdst k hk
    · obtain ⟨hmem, hrest⟩ := h.dst w' k hk
      exact ⟨hentries k hmem fun hk' => hw (h.dst_inj w' w k hk hk'), hrest⟩
  dst_inj w₁ w₂ k h₁ h₂ := by
    change ((r.goto w p).worker w₁).dst = some k at h₁
    change ((r.goto w p).worker w₂).dst = some k at h₂
    rw [worker_goto] at h₁ h₂
    split_ifs at h₁ h₂ with e₁ e₂ e₂
    · exact e₁.trans e₂.symm
    · exact absurd h₂ (hdst' w₂ k e₂ h₁)
    · exact absurd h₁ (hdst' w₁ k e₁ h₂)
    · exact h.dst_inj w₁ w₂ k h₁ h₂
  mustDrop_nodup := h.mustDrop_nodup
  mustDrop k hk := by
    obtain ⟨hmem, hnot⟩ := h.mustDrop k hk
    exact ⟨hentries k hmem fun hk' => (h.dst w k hk').2.2 hk, hnot⟩

/-- A worker keeps its sources. -/
theorem Inv.claims_held (h : r.Inv MayDrop d) (hheld : p.held = (r.worker w).held) :
    ClaimsOk (update (fun w' => ptrs (r.worker w').held) w (ptrs p.held)) r.isInMerge := by
  rw [hheld, update_eq_self]
  exact h.claims

/-- A worker goes on with its sources and its destination while the disk stays. -/
theorem Inv.goto (h : r.Inv MayDrop d) (hheld : p.held = (r.worker w).held)
    (hdst : p.dst = (r.worker w).dst) (hwf : p.WF MayDrop d r.parts) :
    (r.goto w p).Inv MayDrop d := by
  refine h.move rfl (fun _ _ => rfl) (fun _ _ _ _ => rfl) (fun _ hk _ => hk)
    (h.claims_held hheld) hwf ?_ ?_
  · exact fun k hk => h.dst w k (hdst ▸ hk)
  · exact fun w' k hne hk hk' => hne (h.dst_inj w' w k hk' (hdst ▸ hk))

theorem mem_select {sel : List ℕ} {pw : Part Place} (hpw : pw ∈ r.select sel) :
    pw ∈ r.parts ∧ r.isInMerge pw.ptr = false := by
  simp only [select, mem_filter, Bool.and_eq_true, Bool.not_eq_true'] at hpw
  exact ⟨hpw.1, hpw.2.2⟩

/-- The parts that are selected by a property of their rows have it. -/
theorem Inv.stale_of_select (h : r.Inv MayDrop d) {stale : ℕ → Bool} {pw : Part Place}
    (hpw : pw ∈ r.select (ptrs (r.parts.filter fun pw => pw.rows.all stale))) :
    ∀ x ∈ pw.rows, stale x = true := by
  simp only [select, mem_filter, Bool.and_eq_true, contains_iff_mem] at hpw
  obtain ⟨pw', hpw', hptr⟩ := mem_map.mp hpw.2.1
  obtain ⟨hreg, hstale⟩ := mem_filter.mp hpw'
  rw [← inj_on_of_nodup_map h.nodup hreg hpw.1 hptr]
  exact all_eq_true.mp hstale

/-- The selected parts can be taken. -/
theorem Inv.claims_select (h : r.Inv MayDrop d) {sel : List ℕ} (hheld : p.held = r.select sel) :
    ClaimsOk (update (fun w' => ptrs (r.worker w').held) w (ptrs p.held))
      (r.claim w p).isInMerge := by
  rw [claim, hheld]
  refine h.claims.take (h.nodup.sublist (filter_sublist.map _)) ?_ ?_ ?_
  · intro n hn
    obtain ⟨pw, hpw, rfl⟩ := mem_map.mp hn
    exact (mem_select hpw).2
  · intro n hn
    simp [hn]
  · intro n hn
    simp [hn]

/-- A worker gives its parts back. -/
theorem Inv.release (h : r.Inv MayDrop d) : (r.release w).Inv MayDrop d := by
  refine h.move (p := .idle) rfl (fun _ _ => rfl) (fun _ _ _ _ => rfl) (fun _ hk _ => hk) ?_
    trivial nofun nofun
  refine h.claims.release fun n hn hnot => ?_
  simp [hn, hnot]

/-- The directories that are removed are not those of registered parts or of destinations. -/
theorem Inv.beginRemove (h : r.Inv MayDrop d) {k : Place × String} [DecidableEq (Place × String)]
    (hk : k ∈ r.mustDrop) : r.Inv MayDrop (d.beginRemove k) where
  partsFile := h.partsFile
  content pw hpw k' hk' := by
    have hne : k' ≠ k := fun heq => (h.mustDrop k hk).2 (heq ▸ mem_fileKeys.mpr ⟨pw, hpw, hk'⟩)
    exact (update_of_ne hne _ _).trans (h.content pw hpw k' hk')
  ptr_lt := h.ptr_lt
  nodup := h.nodup
  claims := h.claims
  wf w := by
    refine (h.wf w).mono (fun _ _ hmem => hmem) fun k' hk' => ?_
    have hne : k' ≠ k := fun heq => (h.dst w k' hk').2.2 (heq ▸ hk)
    exact update_of_ne hne _ _
  dst := h.dst
  dst_inj := h.dst_inj
  mustDrop_nodup := h.mustDrop_nodup
  mustDrop := h.mustDrop

theorem Inv.endRemove (h : r.Inv MayDrop d) {k : Place × String} [DecidableEq (Place × String)]
    (hk : k ∈ r.mustDrop) :
    (r.forget k).Inv MayDrop (d.endRemove k) where
  partsFile := h.partsFile
  content := h.content
  ptr_lt := h.ptr_lt
  nodup := h.nodup
  claims := h.claims
  wf w := (h.wf w).mono (fun _ _ hmem => hmem) fun _ _ => rfl
  dst w k' hk' := by
    obtain ⟨hmem, hnot, hdrop⟩ := h.dst w k' hk'
    have hne : k' ≠ k := fun heq => hdrop (heq ▸ hk)
    exact ⟨(mem_erase_of_ne hne).mpr hmem, hnot, fun hmem => hdrop (mem_of_mem_erase hmem)⟩
  dst_inj := h.dst_inj
  mustDrop_nodup := h.mustDrop_nodup.erase k
  mustDrop k' hk' := by
    obtain ⟨hne, hmem⟩ := (h.mustDrop_nodup.mem_erase_iff).mp hk'
    obtain ⟨hmem, hnot⟩ := h.mustDrop k' hmem
    exact ⟨(mem_erase_of_ne hne).mpr hmem, hnot⟩

/-- A new part in memory is registered. -/
theorem Inv.add (h : r.Inv MayDrop d) (rows : List ℕ) (size : ℕ) :
    ({ r with parts := r.parts ++ [⟨r.nextPtr, none, rows, size⟩],
              nextPtr := r.nextPtr + 1 } : Running Place).Inv MayDrop d := by
  have hkeys : fileKeys (r.parts ++ [⟨r.nextPtr, none, rows, size⟩]) = fileKeys r.parts := by
    rw [fileKeys_append]
    exact append_nil _
  have hptrs : ptrs (r.parts ++ [⟨r.nextPtr, none, rows, size⟩]) = ptrs r.parts ++ [r.nextPtr] :=
    map_append
  refine ⟨hkeys ▸ h.partsFile, ?_, ?_, ?_, h.claims, ?_, hkeys ▸ h.dst, h.dst_inj,
    h.mustDrop_nodup, hkeys ▸ h.mustDrop⟩
  · intro pw hpw k hk
    obtain hpw | hpw := mem_append.mp hpw
    · exact h.content pw hpw k hk
    · rw [mem_singleton.mp hpw] at hk
      cases hk
  · intro n hn
    change n ∈ ptrs (r.parts ++ [⟨r.nextPtr, none, rows, size⟩]) at hn
    rw [hptrs] at hn
    obtain hn | hn := mem_append.mp hn
    · exact (h.ptr_lt n hn).trans (Nat.lt_succ_self _)
    · rw [mem_singleton.mp hn]
      exact Nat.lt_succ_self _
  · change (ptrs (r.parts ++ [⟨r.nextPtr, none, rows, size⟩])).Nodup
    rw [hptrs]
    refine nodup_append'.mpr ⟨h.nodup, nodup_singleton _, fun n hn hn' => ?_⟩
    rw [mem_singleton.mp hn'] at hn
    exact absurd (h.ptr_lt _ hn) (lt_irrefl _)
  · exact fun w => (h.wf w).mono (fun _ _ hmem => mem_append_left _ hmem) fun _ _ => rfl

/-- The parts of a swap. -/
theorem Inv.swap_sources (h : r.Inv MayDrop d) {pws : List (Part Place)}
    {pwNew : Option (Option (Place × String) × List ℕ × ℕ)} {drops : List ℕ}
    (hw : r.worker w = .swapping pws pwNew drops) :
    (∀ pw ∈ pws, pw ∈ r.parts) ∧ r.parts.Perm (without pws r.parts ++ pws) := by
  have hnd := h.claims.nodup w
  have hwf := h.wf w
  rw [hw] at hnd hwf
  have hreg : ∀ pw ∈ pws, pw ∈ r.parts := by
    match pwNew, hwf with
    | none, hwf => exact hwf.1
    | some _, hwf => exact hwf.1
  exact ⟨hreg, perm_without_append h.nodup hnd hreg⟩

section Swap

variable {pws : List (Part Place)} {pwNew : Option (Option (Place × String) × List ℕ × ℕ)}
  {drops : List ℕ}

theorem dst_swapping (pws : List (Part Place))
    (pwNew : Option (Option (Place × String) × List ℕ × ℕ)) (drops : List ℕ) :
    (Phase.swapping pws pwNew drops).dst = pwNew.bind fst := by
  match pwNew with
  | none => rfl
  | some (key, rows, size) => rfl

theorem fileKeys_swapped (r : Running Place) (pws : List (Part Place))
    (pwNew : Option (Option (Place × String) × List ℕ × ℕ)) :
    fileKeys (r.swapped pws pwNew) =
      fileKeys (without pws r.parts) ++ (pwNew.bind fst).toList := by
  rw [swapped, fileKeys_append]
  match pwNew with
  | none => rfl
  | some (none, rows, size) => rfl
  | some (some k, rows, size) => rfl

theorem ptrs_swapped_subset {n : ℕ} (hn : n ∈ ptrs (r.swapped pws pwNew)) :
    n ∈ ptrs (without pws r.parts) ∨ n = r.nextPtr := by
  rw [swapped, ptrs, map_append] at hn
  obtain hn | hn := mem_append.mp hn
  · exact .inl hn
  · match pwNew with
    | none => simp at hn
    | some (key, rows, size) => exact .inr (by simpa using hn)

/-- The registered directories are those of the sources and of the other parts. -/
theorem Inv.fileKeys_perm (h : r.Inv MayDrop d) (hw : r.worker w = .swapping pws pwNew drops) :
    (fileKeys r.parts).Perm (fileKeys (without pws r.parts) ++ fileKeys pws) := by
  rw [← fileKeys_append]
  exact (h.swap_sources hw).2.filterMap _

/-- A part that stays is not one of the sources. -/
theorem Inv.disjoint_fileKeys (h : r.Inv MayDrop d) (hw : r.worker w = .swapping pws pwNew drops)
    (hkeys : (fileKeys r.parts).Nodup) :
    List.Disjoint (fileKeys (without pws r.parts)) (fileKeys pws) :=
  (nodup_append'.mp ((h.fileKeys_perm hw).nodup_iff.mp hkeys)).2.2

/-- What the swap registers: the other parts, and the new one. -/
theorem Inv.nodup_fileKeys_swapped (h : r.Inv MayDrop d)
    (hw : r.worker w = .swapping pws pwNew drops)
    (hkeys : (fileKeys r.parts).Nodup) : (fileKeys (r.swapped pws pwNew)).Nodup := by
  rw [fileKeys_swapped]
  refine nodup_append'.mpr
    ⟨(nodup_append'.mp ((h.fileKeys_perm hw).nodup_iff.mp hkeys)).1, ?_, ?_⟩
  · cases pwNew.bind fst with
    | none => exact nodup_nil
    | some k => exact nodup_singleton k
  · intro k hk hk'
    have hdst : (r.worker w).dst = some k := by
      rw [hw, dst_swapping]
      exact Option.mem_toList.mp hk'
    exact (h.dst w k hdst).2.1 ((h.fileKeys_perm hw).symm.subset (mem_append_left _ hk))

/-- The swap writes the names of the registered file parts. -/
theorem Inv.partsFile_swapped (h : r.Inv MayDrop d) (hw : r.worker w = .swapping pws pwNew drops) :
    (if !(fileKeys pws).isEmpty || (pwNew.bind fst).isSome then
      some (fileKeys (r.swapped pws pwNew)) else d.partsFile) =
        some (fileKeys (r.swapped pws pwNew)) := by
  split_ifs with hcond
  · rfl
  · obtain ⟨hpws, hnew⟩ : fileKeys pws = [] ∧ pwNew.bind fst = none := by simpa using hcond
    rw [h.partsFile, fileKeys_swapped, hnew, Option.toList_none, append_nil, without,
      fileKeys_filter]
    intro pw hpw hq
    obtain ⟨pw', hpw', heq⟩ : ∃ pw' ∈ pws, pw'.ptr = pw.ptr := by simpa [ptrs] using hq
    have hsame : pw' = pw :=
      inj_on_of_nodup_map h.nodup ((h.swap_sources hw).1 pw' hpw') hpw heq
    by_contra hkey
    obtain ⟨k, hk⟩ := Option.ne_none_iff_exists'.mp hkey
    have : k ∈ fileKeys pws := mem_fileKeys.mpr ⟨pw', hpw', hsame ▸ hk⟩
    rw [hpws] at this
    exact absurd this not_mem_nil

/-- The new part is on disk. -/
theorem Inv.content_swapped (h : r.Inv MayDrop d) (hw : r.worker w = .swapping pws pwNew drops)
    {pw : Part Place} (hpw : pw ∈ r.swapped pws pwNew) {k : Place × String} (hk : pw.key = some k) :
    d.dir k = .complete pw.rows pw.size := by
  obtain hpw | hpw := mem_append.mp hpw
  · exact h.content pw (mem_without.mp hpw).1 k hk
  · have hwf := h.wf w
    rw [hw] at hwf
    match pwNew, hwf with
    | none, _ => simp at hpw
    | some (key, rows, size), ⟨_, _, hdisk, _, _⟩ =>
      obtain rfl : pw = ⟨r.nextPtr, key, rows, size⟩ := by simpa using hpw
      exact hdisk k hk

/-- The state after a swap. -/
theorem Inv.swap (h : r.Inv MayDrop d) (hw : r.worker w = .swapping pws pwNew drops)
    (hkeys : (fileKeys r.parts).Nodup) (hmem : ∀ k ∈ fileKeys r.parts, k ∈ d.entries) :
    ({ r.release w with
      parts := r.swapped pws pwNew, nextPtr := r.nextPtr + 1,
      mustDrop := r.mustDrop ++ fileKeys pws } : Running Place).Inv MayDrop
      { d with partsFile := some (fileKeys (r.swapped pws pwNew)) } := by
  have hrel : (r.release w).Inv MayDrop d := h.release
  have hsub : ∀ k ∈ fileKeys pws, k ∈ fileKeys r.parts := fun k hk =>
    (h.fileKeys_perm hw).symm.subset (mem_append_right _ hk)
  have hdst_w : (r.worker w).dst = pwNew.bind fst := by rw [hw, dst_swapping]
  -- what is registered afterwards was registered before or is the destination of this worker
  have hcases : ∀ k ∈ fileKeys (r.swapped pws pwNew),
      k ∈ fileKeys (without pws r.parts) ∨ (r.worker w).dst = some k := by
    intro k hk
    rw [fileKeys_swapped] at hk
    obtain hk | hk := mem_append.mp hk
    · exact .inl hk
    · exact .inr (hdst_w.trans (Option.mem_toList.mp hk))
  have hold : ∀ k ∈ fileKeys (without pws r.parts), k ∈ fileKeys r.parts := fun k hk =>
    (h.fileKeys_perm hw).symm.subset (mem_append_left _ hk)
  have hlt : ∀ n ∈ ptrs (without pws r.parts), n < r.nextPtr := fun n hn =>
    h.ptr_lt n ((filter_sublist.map _).subset hn)
  have hdst_ne : ∀ w' k, ((r.release w).worker w').dst = some k → (r.worker w').dst = some k ∧
      w' ≠ w := by
    intro w' k hk
    change ((r.goto w .idle).worker w').dst = some k at hk
    rw [worker_goto] at hk
    split_ifs at hk with heq
    · cases hk
    · exact ⟨hk, heq⟩
  refine ⟨rfl, fun pw hpw k hk => h.content_swapped hw hpw hk, ?_, ?_, hrel.claims, ?_, ?_,
    hrel.dst_inj, ?_, ?_⟩
  · intro n hn
    obtain hn | rfl := ptrs_swapped_subset hn
    · exact (hlt n hn).trans (Nat.lt_succ_self _)
    · exact Nat.lt_succ_self _
  · change (ptrs (r.swapped pws pwNew)).Nodup
    rw [swapped, ptrs, map_append]
    refine nodup_append'.mpr ⟨h.nodup.sublist (filter_sublist.map _), ?_, ?_⟩
    · cases pwNew with
      | none => exact nodup_nil
      | some x => exact nodup_singleton _
    · intro n hn hn'
      refine absurd (hlt n hn) ?_
      cases pwNew with
      | none => simp at hn'
      | some x =>
        obtain rfl : n = r.nextPtr := by simpa using hn'
        exact lt_irrefl _
  · intro w'
    change ((r.goto w .idle).worker w').WF _ _ _
    rw [worker_goto]
    split_ifs with heq
    · trivial
    · refine (h.wf w').mono (fun pw hpw hmem => ?_) fun _ _ => rfl
      refine mem_append_left _ (mem_without.mpr ⟨hmem, fun hptr => heq ?_⟩)
      refine h.claims.disjoint w' w pw.ptr (mem_ptrs hpw) ?_
      rw [hw]
      exact hptr
  · intro w' k hk
    obtain ⟨hk, hne⟩ := hdst_ne w' k hk
    obtain ⟨hent, hnot, hdrop⟩ := h.dst w' k hk
    refine ⟨hent, fun hmem => ?_, fun hmem => ?_⟩
    · obtain hmem | hmem := hcases k hmem
      · exact hnot (hold k hmem)
      · exact hne (h.dst_inj w' w k hk hmem)
    · obtain hmem | hmem := mem_append.mp hmem
      · exact hdrop hmem
      · exact hnot (hsub k hmem)
  · refine nodup_append'.mpr ⟨h.mustDrop_nodup,
      (nodup_append'.mp ((h.fileKeys_perm hw).nodup_iff.mp hkeys)).2.1, fun k hk hk' => ?_⟩
    exact (h.mustDrop k hk).2 (hsub k hk')
  · intro k hk
    obtain hk | hk := mem_append.mp hk
    · obtain ⟨hent, hnot⟩ := h.mustDrop k hk
      refine ⟨hent, fun hmem => ?_⟩
      obtain hmem | hmem := hcases k hmem
      · exact hnot (hold k hmem)
      · exact (h.dst w k hmem).2.2 hk
    · refine ⟨hmem k (hsub k hk), fun hmem => ?_⟩
      obtain hmem | hmem := hcases k hmem
      · exact h.disjoint_fileKeys hw hkeys hmem hk
      · exact (h.dst w k hmem).2.1 (hsub k hk)

/-- The rows of the sources are in the new part or dropped. -/
theorem Inv.rows_swapped (h : r.Inv MayDrop d) (hw : r.worker w = .swapping pws pwNew drops) :
    ((r.swapped pws pwNew).flatMap Part.rows ++ drops).Perm (r.parts.flatMap Part.rows) := by
  have hperm := ((h.swap_sources hw).2.flatMap_right Part.rows).symm
  rw [flatMap_append] at hperm
  refine .trans ?_ hperm
  rw [swapped, flatMap_append, append_assoc]
  refine .append_left _ ?_
  have hwf := h.wf w
  rw [hw] at hwf
  match pwNew, hwf with
  | none, hwf => simpa using hwf.2.1
  | some (key, rows, size), hwf => simpa using hwf.2.2.2.1

/-- A row of a file part stays in a file part, or is dropped in favour of rows of file parts. -/
theorem Inv.durable_swapped (h : r.Inv MayDrop d) (hw : r.worker w = .swapping pws pwNew drops)
    {x : ℕ} {pw : Part Place} (hpw : pw ∈ r.parts) (hkey : pw.key.isSome) (hx : x ∈ pw.rows) :
    (∃ pw ∈ r.swapped pws pwNew, pw.key.isSome ∧ x ∈ pw.rows) ∨
      x ∈ drops ∧ ∃ kept, MayDrop kept x ∧
        ∀ y ∈ kept, ∃ pw ∈ r.swapped pws pwNew, pw.key.isSome ∧ y ∈ pw.rows := by
  obtain hmem | hmem := mem_append.mp ((h.swap_sources hw).2.subset hpw)
  · exact .inl ⟨pw, mem_append_left _ hmem, hkey, hx⟩
  have hfile : fileKeys pws ≠ [] := by
    obtain ⟨k, hk⟩ := Option.isSome_iff_exists.mp hkey
    exact ne_nil_of_mem (mem_fileKeys.mpr ⟨pw, hmem, hk⟩)
  have hrow : x ∈ pws.flatMap Part.rows := mem_flatMap.mpr ⟨pw, hmem, hx⟩
  have hwf := h.wf w
  rw [hw] at hwf
  match pwNew, hwf with
  | none, ⟨_, hrows, hdrops⟩ =>
    have hdrop := hrows.symm.subset hrow
    exact .inr ⟨hdrop, [], hdrops x hdrop, nofun⟩
  | some (key, rows, size), ⟨_, hdur, _, hrows, hdrops⟩ =>
    have hnew : ∀ y ∈ rows, ∃ pw ∈ r.swapped pws (some (key, rows, size)),
        pw.key.isSome ∧ y ∈ pw.rows := fun y hy =>
      ⟨⟨r.nextPtr, key, rows, size⟩, mem_append_right _ (by simp), hdur hfile, hy⟩
    obtain hrow | hdrop := mem_append.mp (hrows.symm.subset hrow)
    · exact .inl (hnew x hrow)
    · exact .inr ⟨hdrop, rows, hdrops x hdrop, hnew⟩

end Swap

end Running

/-! ### Every step keeps the invariant -/

namespace Store

variable {c : Kind} {s s' : Store c} {r r' : Running c.Place} {d : Disk (c.Place × String)}
  {MayDrop : List ℕ → ℕ → Prop}

theorem listing_running (hr : r.Inv MayDrop d) : listing d = fileKeys r.parts := by
  rw [listing, hr.partsFile]

/-- The rows on disk are those of the registered file parts. -/
theorem durableRows_running (hr : r.Inv MayDrop d) :
    durableRows d = (r.parts.filter fun pw => pw.key.isSome).flatMap Part.rows := by
  rw [durableRows, listing_running hr]
  have hcontent := hr.content
  generalize r.parts = parts at hcontent ⊢
  induction parts with
  | nil => rfl
  | cons pw parts ih =>
    have ih := ih fun pw' hpw' => hcontent pw' (mem_cons_of_mem _ hpw')
    cases hkey : pw.key with
    | none =>
      rw [filter_cons, hkey]
      simpa only [fileKeys, filterMap_cons, hkey, Option.isSome_none, Bool.false_eq_true,
        if_false] using ih
    | some k =>
      have hrows : d.rowsAt k = pw.rows := by
        rw [Disk.rowsAt, hcontent pw mem_cons_self k hkey]
      rw [filter_cons, hkey]
      simp only [fileKeys, filterMap_cons, hkey, flatMap_cons, Option.isSome_some, if_true,
        hrows] at ih ⊢
      rw [ih]

theorem mem_durableRows_running (hr : r.Inv MayDrop d) {x : ℕ} :
    x ∈ durableRows d ↔ ∃ pw ∈ r.parts, pw.key.isSome ∧ x ∈ pw.rows := by
  simp only [durableRows_running hr, mem_flatMap, mem_filter, and_assoc]

/-- The row is past the retention, deleted, or replaced by a row on disk. -/
def Superseded (s : Store c) (x : ℕ) : Prop :=
  s.Expired x ∨ s.Deleted x ∨ ∃ y ∈ durableRows s.disk, c.replaces (s.row y) (s.row x) = true

/-- What is known of the rows only grows. -/
structure Grows (s s' : Store c) : Prop where
  row : s'.row = s.row
  deadline : s.deadline ≤ s'.deadline
  deleted : s.deleted ⊆ s'.deleted

theorem expired_iff {x : ℕ} : s.Expired x ↔ ∃ t ∈ c.timestamp (s.row x), t < s.deadline := by
  simp [Expired, Option.any_eq_true]

theorem deleted_iff {x : ℕ} : s.Deleted x ↔ ∃ id ∈ c.metricId (s.row x), id ∈ s.deleted := by
  simp [Deleted, Option.any_eq_true]

theorem Grows.expired (h : s.Grows s') {x : ℕ} (hx : s.Expired x) : s'.Expired x := by
  rw [expired_iff] at hx ⊢
  obtain ⟨t, ht, hlt⟩ := hx
  exact ⟨t, h.row ▸ ht, Int64.lt_of_lt_of_le hlt h.deadline⟩

theorem Grows.isDeleted (h : s.Grows s') {x : ℕ} (hx : s.Deleted x) : s'.Deleted x := by
  rw [deleted_iff] at hx ⊢
  obtain ⟨id, hid, hmem⟩ := hx
  exact ⟨id, h.row ▸ hid, h.deleted hmem⟩

/-- A row is dropped with the rows that it replaces. -/
theorem Superseded.of_replaces {x y : ℕ} (hy : s.Superseded y)
    (hrep : c.replaces (s.row y) (s.row x) = true) : s.Superseded x := by
  obtain hy | hy | ⟨z, hz, hzy⟩ := hy
  · left
    rw [expired_iff] at hy ⊢
    obtain ⟨t, ht, hlt⟩ := hy
    obtain ⟨t', ht', hle⟩ := c.replaces_timestamp _ _ hrep t ht
    exact ⟨t', ht', Int64.lt_of_le_of_lt hle hlt⟩
  · right
    left
    rw [Deleted, ← c.replaces_metricId _ _ hrep]
    exact hy
  · exact .inr (.inr ⟨z, hz, c.replaces_trans _ _ _ hzy hrep⟩)

theorem Grows.mayDrop (h : s.Grows s') {kept : List ℕ} {x : ℕ} (hx : s.MayDrop kept x) :
    s'.MayDrop kept x := by
  unfold MayDrop at hx ⊢
  rw [h.row]
  exact hx.imp h.expired (Or.imp_left h.isDeleted)

/-- What a step does: the invariant is kept, and a row on disk stays there or is dropped for a
reason. -/
structure StepOk (s s' : Store c) : Prop where
  inv : s'.Inv
  durable : ∀ x ∈ durableRows s.disk,
    x ∈ durableRows s'.disk ∨ x ∈ s'.dropped ∧ s'.Superseded x
  dropped : ∀ x ∈ s.dropped, x ∈ s'.dropped
  grows : s.Grows s'

theorem Inv.running (h : s.Inv) (hproc : s.proc = .running r) : r.Inv s.MayDrop s.disk := by
  have hr := h.proc
  rwa [hproc] at hr

/-- A step that changes no registered part. -/
theorem Inv.stepOk_same (h : s.Inv) (hproc : s.proc = .running r) {d' : Disk (c.Place × String)}
    (hr' : r'.Inv s.MayDrop d') (hparts : r'.parts = r.parts) (hsame : SameParts s.disk d')
    (hok : DiskOk d') : StepOk s { s with disk := d', proc := .running r' } where
  inv :=
    { not_failed := h.not_failed
      disk := hok
      proc := hr'
      added_nodup := h.added_nodup
      rows := by
        have hrows := h.rows
        rw [live, hproc] at hrows
        change (r'.parts.flatMap Part.rows ++ s.dropped ++ s.lost).Perm s.added
        rwa [hparts] }
  durable x hx := .inl (hsame.durableRows_eq ▸ hx)
  dropped _ hx := hx
  grows := ⟨rfl, Int64.le_refl _, Subset.refl _⟩

theorem SameParts.refl (d : Disk (c.Place × String)) : SameParts d d := ⟨rfl, fun _ _ => rfl⟩

/-- A step that only adds to what is known of the rows. -/
theorem Inv.stepOk_grows (h : s.Inv) {deadline : Int64} {deleted : List UInt64}
    (hgrows : s.Grows { s with deadline := deadline, deleted := deleted }) :
    StepOk s { s with deadline := deadline, deleted := deleted } where
  inv :=
    { not_failed := h.not_failed
      disk := h.disk
      proc := h.proc.imp fun _ _ => hgrows.mayDrop
      added_nodup := h.added_nodup
      rows := h.rows }
  durable _ hx := .inl hx
  dropped _ hx := hx
  grows := hgrows

/-- The crash of a process loses the rows of its parts in memory. -/
theorem Inv.crash (h : s.Inv) : StepOk s s.crash := by
  rw [Store.crash]
  split
  · next r hproc =>
    have hr := h.running hproc
    refine ⟨⟨h.not_failed, h.disk, trivial, h.added_nodup, ?_⟩, fun x hx => .inl hx, fun _ hx => hx,
      rfl, Int64.le_refl _, Subset.refl _⟩
    refine .trans ?_ h.rows
    change (durableRows s.disk ++ s.dropped ++ (s.lost ++ _)).Perm _
    rw [durableRows_running hr, live, hproc, ← append_assoc]
    have hsplit := filter_append_perm (fun pw : Part c.Place => pw.key.isSome) r.parts
    have hrows := (hsplit.flatMap_right Part.rows).symm
    rw [flatMap_append] at hrows
    have hnone : (r.parts.filter fun pw => pw.key.isNone) =
        r.parts.filter fun pw => !pw.key.isSome := by
      simp only [Option.not_isSome]
    rw [hnone]
    refine .trans ?_ ((hrows.symm.append_right _).append_right _)
    simp only [append_assoc]
    refine .append_left _ ?_
    rw [← append_assoc, ← append_assoc]
    exact perm_append_comm.trans (by rw [append_assoc])
  · next hproc =>
    refine ⟨⟨h.not_failed, h.disk, trivial, h.added_nodup, ?_⟩, fun x hx => .inl hx, fun _ hx => hx,
      rfl, Int64.le_refl _, Subset.refl _⟩
    have hrows := h.rows
    rw [live] at hrows
    split at hrows
    · next r hr => exact absurd hr (hproc r)
    · exact hrows

/-- A removal of a directory that is not named, while the store is opened. -/
theorem Inv.stepOk_opening (h : s.Inv) {names : List (c.Place × String)}
    (hproc : s.proc = .opening names) {d' : Disk (c.Place × String)} (hsame : SameParts s.disk d')
    (hok : DiskOk d') : StepOk s { s with disk := d' } where
  inv :=
    { not_failed := h.not_failed
      disk := hok
      proc := by
        have := h.proc
        rw [hproc] at this ⊢
        exact this.trans hsame.listing_eq.symm
      added_nodup := h.added_nodup
      rows := by
        have hrows := h.rows
        rw [live, hproc] at hrows ⊢
        change (durableRows d' ++ s.dropped ++ s.lost).Perm s.added
        rwa [hsame.durableRows_eq] }
  durable x hx := .inl (hsame.durableRows_eq ▸ hx)
  dropped _ hx := hx
  grows := ⟨rfl, Int64.le_refl _, Subset.refl _⟩

/-- A swap writes the new list of names, and drops the sources. -/
theorem Inv.stepOk_swap (h : s.Inv) (hproc : s.proc = .running r) {w : ℕ}
    {pws : List (Part c.Place)} {pwNew : Option (Option (c.Place × String) × List ℕ × ℕ)}
    {drops : List ℕ} (hw : r.worker w = .swapping pws pwNew drops) :
    StepOk s { s with
      disk := { s.disk with partsFile := some (fileKeys (r.swapped pws pwNew)) }
      proc := .running { r.release w with
        parts := r.swapped pws pwNew, nextPtr := r.nextPtr + 1
        mustDrop := r.mustDrop ++ fileKeys pws }
      dropped := s.dropped ++ drops } := by
  have hr := h.running hproc
  have hlist := listing_running hr
  have hkeys : (fileKeys r.parts).Nodup := hlist ▸ h.disk.listing_nodup
  have hmem : ∀ k ∈ fileKeys r.parts, k ∈ s.disk.entries := fun k hk =>
    h.disk.mem k (hlist ▸ hk)
  have hr' := hr.swap hw hkeys hmem
  refine ⟨⟨h.not_failed, ⟨h.disk.nodup, hr.nodup_fileKeys_swapped hw hkeys, ?_, ?_⟩, hr',
    h.added_nodup, ?_⟩, ?_, fun x hx => mem_append_left _ hx,
    rfl, Int64.le_refl _, Subset.refl _⟩
  · intro k hk
    change k ∈ fileKeys (r.swapped pws pwNew) at hk
    rw [Running.fileKeys_swapped] at hk
    obtain hk | hk := mem_append.mp hk
    · exact hmem k ((hr.fileKeys_perm hw).symm.subset (mem_append_left _ hk))
    · refine (hr.dst w k ?_).1
      rw [hw, Running.dst_swapping]
      exact Option.mem_toList.mp hk
  · intro k hk
    obtain ⟨pw, hpw, hkey⟩ := mem_fileKeys.mp (hk : k ∈ fileKeys (r.swapped pws pwNew))
    rw [hr.content_swapped hw hpw hkey]
    nofun
  · have hrows := h.rows
    rw [live, hproc] at hrows
    refine .trans ?_ hrows
    refine .trans ?_ (((hr.rows_swapped hw).append_right _).append_right _)
    change ((r.swapped pws pwNew).flatMap Part.rows ++ (s.dropped ++ drops) ++ s.lost).Perm _
    simp only [append_assoc]
    refine .append_left _ ?_
    rw [← append_assoc, ← append_assoc]
    exact perm_append_comm.append_right _
  · intro x hx
    obtain ⟨pw, hpw, hkey, hx⟩ := (mem_durableRows_running hr).mp hx
    obtain hx | ⟨hdrop, kept, hmay, hkept⟩ := hr.durable_swapped hw hpw hkey hx
    · exact .inl ((mem_durableRows_running hr').mpr hx)
    · refine .inr ⟨mem_append_right _ hdrop, hmay.imp_right (Or.imp_right ?_)⟩
      rintro ⟨y, hy, hrep⟩
      exact ⟨y, (mem_durableRows_running hr').mpr (hkept y hy), hrep⟩

/-- A merge begins. -/
theorem Inv.startMerge (h : s.Inv) (hproc : s.proc = .running r) {w : ℕ} {sel : List ℕ}
    {isFinal : Bool} {env : c.Env}
    (hs' : s.stepRunning r (.startMerge w sel isFinal env) = some s') : StepOk s s' := by
  have hr := h.running hproc
  have hlist := listing_running hr
  have hmem := h.disk.mem
  simp only [Store.stepRunning] at hs'
  split at hs'
  · split_ifs at hs'
    split at hs'
    · next hplace =>
      cases hs'
      refine h.stepOk_same hproc ?_ rfl (.refl _) h.disk
      refine hr.move (p := .merging (r.select sel) none) rfl (fun _ _ => rfl)
        (fun _ _ _ _ => rfl) (fun _ hk _ => hk) (hr.claims_select rfl) ⟨?_, ?_⟩ nofun nofun
      · exact fun pw hpw => (Running.mem_select hpw).1
      · intro hfile
        obtain ⟨k, hk⟩ := exists_mem_of_ne_nil _ hfile
        obtain ⟨pw, hpw, hkey⟩ := mem_fileKeys.mp hk
        have hsome : pw.key.isSome := by rw [hkey]; rfl
        have := c.durable env (r.select sel) isFinal ⟨pw, hpw, hsome⟩
        rw [hplace] at this
        exact this
    · next place hplace =>
      split_ifs at hs' with hexists
      · cases hs'
        exact h.crash
      cases hs'
      generalize hk : (place, partName (r.mergeIdx + 1)) = k at hexists ⊢
      have hnot : k ∉ fileKeys r.parts := fun hmem' => hexists (hmem k (hlist ▸ hmem'))
      have hsame : SameParts s.disk (s.disk.create k) := sameParts_create hr.partsFile hnot
      have hentries : ∀ k' ∈ s.disk.entries, k' ∈ (s.disk.create k).entries := fun k' hk' =>
        mem_append_left _ hk'
      have hdir : ∀ k' ∈ s.disk.entries, (s.disk.create k).dir k' = s.disk.dir k' := by
        intro k' hk'
        exact update_of_ne (fun heq : k' = k => hexists (heq ▸ hk')) _ _
      refine h.stepOk_same hproc ?_ rfl hsame (hsame.diskOk h.disk ?_ ?_)
      · refine hr.move (p := .merging (r.select sel) (some k)) rfl
          (fun k' hk' => hdir k' (hmem k' (hlist ▸ hk')))
          (fun w' k' _ hk' => hdir k' (hr.dst w' k' hk').1) (fun k' hk' _ => hentries k' hk')
          (hr.claims_select rfl) ⟨fun pw hpw => (Running.mem_select hpw).1, fun _ => rfl⟩ ?_ ?_
        · rintro k' ⟨⟩
          exact ⟨mem_append_right _ mem_cons_self, hnot,
            fun hmem' => hexists (hr.mustDrop k hmem').1⟩
        · rintro w' k' - ⟨⟩ hk'
          exact hexists (hr.dst w' k hk').1
      · exact nodup_append'.mpr ⟨h.disk.nodup, nodup_singleton _,
          fun k' hk' hk'' => hexists (mem_singleton.mp hk'' ▸ hk')⟩
      · exact fun k' hk' => hentries k' (hmem k' hk')
  · cases hs'

/-- A merge has its rows. -/
theorem Inv.finishMerge (h : s.Inv) (hproc : s.proc = .running r) {w : ℕ} {kept drops : List ℕ}
    {size : ℕ} (hs' : s.stepRunning r (.finishMerge w kept drops size) = some s') :
    StepOk s s' := by
  have hr := h.running hproc
  simp only [Store.stepRunning] at hs'
  split at hs'
  · next pws dst hw =>
    have hwf := hr.wf w
    rw [hw] at hwf
    have hheld : (r.worker w).held = pws := by rw [hw]; rfl
    have hdst : (r.worker w).dst = dst := by rw [hw]; rfl
    split_ifs at hs' with hkept hempty
    · have hnil : kept = [] := by
        simp only [Bool.and_eq_true, List.isEmpty_iff] at hempty
        exact hempty.1
      rw [hnil] at hkept
      obtain ⟨hrows, hdrops⟩ := hkept
      split at hs' <;> cases hs'
      · exact h.stepOk_same hproc (hr.goto hheld.symm hdst.symm ⟨hwf.1, hrows, hdrops⟩)
          rfl (.refl _) h.disk
      · exact h.stepOk_same hproc (hr.goto hheld.symm hdst.symm ⟨hwf.1, hrows, hdrops⟩)
          rfl (.refl _) h.disk
    · split at hs' <;> cases hs'
      · refine h.stepOk_same hproc (hr.goto hheld.symm hdst.symm ?_) rfl (.refl _) h.disk
        exact ⟨hwf.1, fun hfile => absurd (hwf.2 hfile) (by simp), nofun, hkept⟩
      · next k =>
        obtain ⟨hent, hnot, hdrop⟩ := hr.dst w k hdst
        have hsame := sameParts_fill hr.partsFile hnot kept size
        refine h.stepOk_same hproc ?_ rfl hsame (hsame.diskOk h.disk h.disk.nodup h.disk.mem)
        refine hr.move (p := .swapping pws (some (some k, kept, size)) drops) rfl
          (fun k' hk' => hsame.dir_eq k' (listing_running hr ▸ hk')) ?_ (fun _ hk' _ => hk')
          (hr.claims_held hheld.symm) ?_ ?_ ?_
        · intro w' k' hne hk'
          refine update_of_ne (fun heq : k' = k => hne ?_) _ _
          exact hr.dst_inj w' w k' hk' (heq ▸ hdst)
        · refine ⟨hwf.1, fun _ => rfl, ?_, hkept⟩
          rintro k' ⟨⟩
          exact update_self ..
        · rintro k' ⟨⟩
          exact ⟨hent, hnot, hdrop⟩
        · rintro w' k' hne ⟨⟩ hk'
          exact hne (hr.dst_inj w' w k hk' hdst)
  · cases hs'

/-- The steps of a process that has the store open. -/
theorem Inv.stepRunning (h : s.Inv) (hproc : s.proc = .running r) {a : Action c}
    (hs' : s.stepRunning r a = some s') : StepOk s s' := by
  have hr := h.running hproc
  have hlist := listing_running hr
  have hmem : ∀ k ∈ listing s.disk, k ∈ s.disk.entries := h.disk.mem
  cases a with
  | addToInmemoryParts rows size =>
    simp only [Store.stepRunning] at hs'
    split_ifs at hs' with hfresh
    cases hs'
    refine ⟨⟨h.not_failed, h.disk, hr.add rows size, ?_, ?_⟩, fun x hx => .inl hx, fun _ hx => hx,
      rfl, Int64.le_refl _, Subset.refl _⟩
    · change (s.added ++ rows).Nodup
      exact nodup_append'.mpr ⟨h.added_nodup, hfresh.1, fun x hx hx' => hfresh.2 x hx' hx⟩
    · have hrows := h.rows
      rw [live, hproc] at hrows
      refine .trans ?_ (hrows.append_right rows)
      change ((r.parts ++ [(⟨r.nextPtr, none, rows, size⟩ : Part c.Place)]).flatMap Part.rows ++
        s.dropped ++ s.lost).Perm _
      rw [flatMap_append, flatMap_singleton]
      simp only [append_assoc]
      refine .append_left _ (perm_append_comm.trans ?_)
      rw [append_assoc]
  | startMerge w sel isFinal env => exact h.startMerge hproc hs'
  | finishMerge w kept drops size => exact h.finishMerge hproc hs'
  | removeEmptyPart w =>
    simp only [Store.stepRunning] at hs'
    split at hs'
    · next pws k drops hw =>
      cases hs'
      have hwf := hr.wf w
      rw [hw] at hwf
      have hheld : (r.worker w).held = pws := by rw [hw]; rfl
      have hdst : (r.worker w).dst = some k := by rw [hw]; rfl
      have hnot : k ∉ listing s.disk := hlist ▸ (hr.dst w k hdst).2.1
      have hsame := sameParts_endRemove h.disk.nodup hnot
      refine h.stepOk_same hproc ?_ rfl hsame
        (hsame.diskOk h.disk (Disk.nodup_endRemove h.disk.nodup k) fun k' hk' =>
          Disk.mem_endRemove (hmem k' hk') fun heq => hnot (heq ▸ hk'))
      refine hr.move (p := .swapping pws none drops) rfl (fun _ _ => rfl) (fun _ _ _ _ => rfl)
        ?_ (hr.claims_held hheld.symm) ⟨hwf.1, hwf.2⟩ nofun nofun
      intro k' hk' hne
      exact Disk.mem_endRemove hk' fun heq => hne (heq ▸ hdst)
    · cases hs'
  | abortMerge w =>
    simp only [Store.stepRunning] at hs'
    split at hs' <;> cases hs'
    exact h.stepOk_same hproc hr.release rfl (.refl _) h.disk
  | removeStaleParts w retentionDeadline =>
    simp only [Store.stepRunning] at hs'
    split at hs'
    · split_ifs at hs' with hdeadline
      cases hs'
      refine h.stepOk_same hproc ?_ rfl (.refl _) h.disk
      refine hr.move (p := .swapping (r.select _) none _) rfl (fun _ _ => rfl)
        (fun _ _ _ _ => rfl) (fun _ hk _ => hk) (hr.claims_select rfl)
        ⟨fun pw hpw => (Running.mem_select hpw).1, .refl _, fun x hx => .inl ?_⟩ nofun nofun
      obtain ⟨pw, hpw, hx⟩ := mem_flatMap.mp hx
      obtain ⟨t, ht, hlt⟩ := (Option.any_eq_true _ _).mp (hr.stale_of_select hpw x hx)
      exact expired_iff.mpr ⟨t, ht, Int64.lt_of_lt_of_le (of_decide_eq_true hlt) hdeadline.2⟩
    · cases hs'
  | swapSrcWithDstParts w =>
    simp only [Store.stepRunning] at hs'
    split at hs'
    · next pws pwNew drops hw =>
      cases hs'
      rw [hr.partsFile_swapped hw]
      exact h.stepOk_swap hproc hw
    · cases hs'
  | beginRemoveDir k =>
    simp only [Store.stepRunning] at hs'
    split_ifs at hs' with hk
    cases hs'
    have hnot : k ∉ listing s.disk := hlist ▸ (hr.mustDrop k hk).2
    have hsame := sameParts_beginRemove hnot
    have := h.stepOk_same hproc (hr.beginRemove hk) rfl hsame
      (hsame.diskOk h.disk h.disk.nodup hmem)
    rwa [← hproc] at this
  | endRemoveDir k =>
    simp only [Store.stepRunning] at hs'
    split_ifs at hs' with hk
    cases hs'
    have hnot : k ∉ listing s.disk := hlist ▸ (hr.mustDrop k hk).2
    have hsame := sameParts_endRemove h.disk.nodup hnot
    refine h.stepOk_same hproc (hr.endRemove hk) rfl hsame
      (hsame.diskOk h.disk (Disk.nodup_endRemove h.disk.nodup k) fun k' hk' => ?_)
    exact Disk.mem_endRemove (hmem k' hk') fun heq => hnot (heq ▸ hk')
  | crash => cases hs'
  | tick retentionDeadline => cases hs'
  | deleteSeries metricIds => cases hs'
  | mustReadPartNames => cases hs'
  | beginRemoveUnlisted k => cases hs'
  | endRemoveUnlisted k => cases hs'
  | mustOpenParts nowNanos => cases hs'

/-- The opened parts are the named ones. -/
theorem Inv.opened (h : s.Inv) (mergeIdx : UInt64) {parts : List (Part c.Place)}
    (hparts : parts = (listing s.disk).zipIdx.map fun x =>
      ⟨x.2, some x.1, s.disk.rowsAt x.1, s.disk.sizeAt x.1⟩) :
    Running.Inv s.MayDrop { s.disk with partsFile := some (listing s.disk) }
      ⟨parts, fun _ => false, (listing s.disk).length, mergeIdx, fun _ => .idle, []⟩ ∧
    parts.flatMap Part.rows = durableRows s.disk := by
  have hkeys : fileKeys parts = listing s.disk := by
    rw [hparts, fileKeys, filterMap_map]
    exact (filterMap_eq_map (f := fst)).symm ▸ zipIdx_map_fst ..
  have hptrs : ptrs parts = List.range (listing s.disk).length := by
    rw [hparts, ptrs, map_map, range_eq_range']
    exact zipIdx_map_snd ..
  refine ⟨⟨?_, ?_, ?_, ?_, .nil _, fun _ => trivial, nofun, nofun, nodup_nil, nofun⟩, ?_⟩
  · rw [hkeys]
  · intro pw hpw k hk
    rw [hparts] at hpw
    obtain ⟨⟨k', i⟩, hmem, rfl⟩ := mem_map.mp hpw
    obtain rfl : k' = k := Option.some.inj hk
    have hcomplete := h.disk.complete k' (fst_mem_of_mem_zipIdx hmem)
    change s.disk.dir k' = .complete (s.disk.rowsAt k') (s.disk.sizeAt k')
    rw [Disk.rowsAt, Disk.sizeAt]
    cases hdir : s.disk.dir k' with
    | incomplete => exact absurd hdir hcomplete
    | complete rows size => rfl
  · intro n hn
    change n ∈ ptrs parts at hn
    rw [hptrs] at hn
    exact mem_range.mp hn
  · change (ptrs parts).Nodup
    rw [hptrs]
    exact nodup_range
  · rw [hparts, flatMap_map, durableRows]
    conv_rhs => rw [← zipIdx_map_fst 0 (listing s.disk), flatMap_map]

/-- Every step keeps the invariant, and a row on disk stays there or is dropped. -/
theorem Inv.step (h : s.Inv) {a : Action c} (hs' : s.step a = some s') : StepOk s s' := by
  have hfailed : ¬ s.failed.isSome := by simp [h.not_failed]
  unfold Store.step at hs'
  rw [if_neg hfailed] at hs'
  have hok := h.proc
  split at hs'
  · cases hs'
    exact h.crash
  · -- time passes
    split_ifs at hs' with hle
    cases hs'
    exact h.stepOk_grows ⟨rfl, hle, Subset.refl _⟩
  · -- series are deleted
    cases hs'
    exact h.stepOk_grows ⟨rfl, Int64.le_refl _, subset_append_left _ _⟩
  · -- the names are read
    split at hs'
    · next hproc =>
      rw [if_pos h.disk.mem] at hs'
      cases hs'
      refine ⟨⟨h.not_failed, h.disk, rfl, h.added_nodup, ?_⟩, fun x hx => .inl hx, fun _ hx => hx,
        rfl, Int64.le_refl _, Subset.refl _⟩
      have hrows := h.rows
      rwa [live, hproc] at hrows
    · cases hs'
  · -- a directory that is not named is removed
    next k =>
    split at hs'
    · next names hproc =>
      rw [hproc] at hok
      split_ifs at hs' with hk
      cases hs'
      have hnot : k ∉ listing s.disk := (show names = listing s.disk from hok) ▸ hk.2
      have hsame := sameParts_beginRemove hnot
      exact h.stepOk_opening hproc hsame (hsame.diskOk h.disk h.disk.nodup h.disk.mem)
    · cases hs'
  · next k =>
    split at hs'
    · next names hproc =>
      rw [hproc] at hok
      split_ifs at hs' with hk
      cases hs'
      have hnot : k ∉ listing s.disk := (show names = listing s.disk from hok) ▸ hk.2
      have hsame := sameParts_endRemove h.disk.nodup hnot
      refine h.stepOk_opening hproc hsame
        (hsame.diskOk h.disk (Disk.nodup_endRemove h.disk.nodup k) fun k' hk' => ?_)
      exact Disk.mem_endRemove (h.disk.mem k' hk') fun heq => hnot (heq ▸ hk')
    · cases hs'
  · -- the named parts are opened
    next nowNanos =>
    split at hs'
    · next names hproc =>
      rw [hproc] at hok
      obtain rfl : names = listing s.disk := hok
      rw [if_pos h.disk.complete] at hs'
      split_ifs at hs'
      cases hs'
      have hfile : s.disk.partsFile.getD (listing s.disk) = listing s.disk := by
        rw [listing]
        cases s.disk.partsFile <;> rfl
      rw [hfile]
      obtain ⟨hinv, hrows'⟩ := h.opened nowNanos rfl
      have hsame : SameParts s.disk { s.disk with partsFile := some (listing s.disk) } :=
        ⟨rfl, fun _ _ => rfl⟩
      refine ⟨⟨h.not_failed, hsame.diskOk h.disk h.disk.nodup h.disk.mem, hinv, h.added_nodup, ?_⟩,
        fun x hx => .inl (hsame.durableRows_eq ▸ hx), fun _ hx => hx,
        rfl, Int64.le_refl _, Subset.refl _⟩
      have hrows := h.rows
      rw [live, hproc] at hrows
      change (List.flatMap Part.rows _ ++ s.dropped ++ s.lost).Perm s.added
      rw [hrows']
      exact hrows
    · cases hs'
  · split at hs'
    · next r hproc => exact h.stepRunning hproc hs'
    · cases hs'

/-! ### Runs -/

theorem inv_init {dirs : List (c.Place × String)} {content : c.Place × String → List ℕ × ℕ}
    {row : ℕ → c.Row} (hdirs : dirs.Nodup) (hrows : (init dirs content row).added.Nodup) :
    (init dirs content row).Inv where
  not_failed := rfl
  disk :=
    { nodup := hdirs
      listing_nodup := hdirs.filter _
      mem := fun _ hk => mem_of_mem_filter hk
      complete := fun _ _ => nofun }
  proc := trivial
  added_nodup := hrows
  rows := by
    change (durableRows (init dirs content row).disk ++ [] ++ []).Perm _
    rw [append_nil, append_nil]
    exact .refl _

/-- A row on disk is, in a process that has the store open, in one registered part. -/
theorem Inv.existsUnique_part (h : s.Inv) (hproc : s.proc = .running r) {x : ℕ}
    (hx : x ∈ durableRows s.disk) : ∃! pw, pw ∈ r.parts ∧ x ∈ pw.rows := by
  have hr := h.running hproc
  obtain ⟨pw, hpw, -, hx⟩ := (mem_durableRows_running hr).mp hx
  refine ⟨pw, ⟨hpw, hx⟩, ?_⟩
  rintro pw' ⟨hpw', hx'⟩
  by_contra hne
  have hrows := h.rows
  rw [live, hproc] at hrows
  have hnd := (nodup_append'.mp (nodup_append'.mp
    (hrows.nodup_iff.mpr h.added_nodup)).1).1
  have hsymm : Std.Symm (Function.onFun List.Disjoint fun pw : Part c.Place => pw.rows) :=
    ⟨fun _ _ hdisj => hdisj.symm⟩
  exact (nodup_flatMap.mp hnd).2.forall hpw' hpw hne hx' hx

/-- A row that is superseded stays so: what supersedes it stays on disk or is superseded. -/
theorem StepOk.superseded (h : StepOk s s') {x : ℕ} (hx : s.Superseded x) : s'.Superseded x := by
  obtain hx | hx | ⟨y, hy, hrep⟩ := hx
  · exact .inl (h.grows.expired hx)
  · exact .inr (.inl (h.grows.isDeleted hx))
  · rw [← h.grows.row] at hrep
    obtain hy | ⟨-, hy⟩ := h.durable y hy
    · exact .inr (.inr ⟨y, hy, hrep⟩)
    · exact hy.of_replaces hrep

end Store

/-- **File parts survive crashes.** In every run of a store that starts from complete directories
without `parts.json`, with any number of merges, removals, crashes and openings: opening never
finds a named part missing or incomplete; and a row that was at some point in a registered file
part is, whenever the store is open later, in exactly one registered part, unless a merge or a
removal of stale parts has dropped it in the meantime. A row is dropped only past the retention,
when its series is deleted, or when a row that replaces it is in exactly one registered part. -/
theorem row_survives {c : Kind} {dirs : List (c.Place × String)}
    {content : c.Place × String → List ℕ × ℕ} {row : ℕ → c.Row} (hdirs : dirs.Nodup)
    (hrows : (Store.init dirs content row).added.Nodup)
    (run : Run Store.step (Store.init dirs content row)) :
    (∀ n, n ≤ run.length → (run.state n).failed = none) ∧
    ∀ n m, n ≤ m → m ≤ run.length → ∀ p p' pw x,
      (run.state n).proc = .running p → pw ∈ p.parts → pw.key.isSome → x ∈ pw.rows →
      (run.state m).proc = .running p' →
        (∃! pw', pw' ∈ p'.parts ∧ x ∈ pw'.rows) ∨
        (x ∈ (run.state m).dropped ∧ x ∉ (run.state n).dropped) ∧
          ((run.state m).Expired x ∨ (run.state m).Deleted x ∨
            ∃ y, c.replaces (row y) (row x) = true ∧ ∃! pw', pw' ∈ p'.parts ∧ y ∈ pw'.rows) := by
  have hinv : ∀ n, n ≤ run.length → (run.state n).Inv ∧ (run.state n).row = row :=
    run.invariant (P := fun s => s.Inv ∧ s.row = row) ⟨Store.inv_init hdirs hrows, rfl⟩
      fun _ _ _ hs hstep => ⟨(hs.1.step hstep).inv, (hs.1.step hstep).grows.row.trans hs.2⟩
  refine ⟨fun n hn => (hinv n hn).1.not_failed, ?_⟩
  intro n m hnm hm p p' pw x hp hpw hkey hx hp'
  have hn := (hinv n (hnm.trans hm)).1
  have hdisk : x ∈ Store.durableRows (run.state n).disk := by
    have hr := hn.proc
    rw [hp] at hr
    exact (Store.mem_durableRows_running hr).mpr ⟨pw, hpw, hkey, hx⟩
  have hnot : x ∉ (run.state n).dropped := by
    have hperm := hn.rows
    rw [Store.live, hp] at hperm
    have hnd := (nodup_append'.mp (hperm.nodup_iff.mpr hn.added_nodup)).1
    exact fun hd => (nodup_append'.mp hnd).2.2 (mem_flatMap.mpr ⟨pw, hpw, hx⟩) hd
  -- a row on disk stays there or is dropped for a reason, step by step
  have hlater : ∀ k, n + k ≤ run.length → x ∈ Store.durableRows (run.state (n + k)).disk ∨
      x ∈ (run.state (n + k)).dropped ∧ (run.state (n + k)).Superseded x := by
    intro k
    induction k with
    | zero => exact fun _ => .inl hdisk
    | succ k ih =>
      intro hk
      have hstep := (hinv (n + k) (by omega)).1.step (run.step_eq (n + k) (by omega))
      obtain hx | ⟨hdropped, hx⟩ := ih (by omega)
      · exact hstep.durable x hx
      · exact .inr ⟨hstep.dropped x hdropped, hstep.superseded hx⟩
  obtain ⟨k, rfl⟩ := Nat.exists_eq_add_of_le hnm
  obtain ⟨hm', hrow⟩ := hinv (n + k) hm
  obtain hx | ⟨hdropped, hx⟩ := hlater k hm
  · exact .inl (hm'.existsUnique_part hp' hx)
  · refine .inr ⟨⟨hdropped, hnot⟩, hx.imp_right (Or.imp_right ?_)⟩
    rintro ⟨y, hy, hrep⟩
    rw [hrow] at hrep
    exact ⟨y, hrep, hm'.existsUnique_part hp' hy⟩

/-- A new store is opened, two rows are added and flushed to a file part, and the process crashes
and comes back, with a clock that went backwards. -/
def crashActions (c : Kind) (env : c.Env) : List (Action c) :=
  [.mustReadPartNames, .mustOpenParts 100, .addToInmemoryParts [1, 2] 10,
    .startMerge 0 [0] true env, .finishMerge 0 [1, 2] [] 10, .swapSrcWithDstParts 0,
    .crash, .mustReadPartNames, .mustOpenParts 50]

/-- The run of a table with two index entries. -/
def crashRun : Run Store.step
    (Store.init (c := table) [] (fun _ => ([], 0)) fun x => [UInt8.ofNat x]) :=
  Run.ofActions (crashActions table (1000 : ℕ)) (by decide)

/-- The run of a partition with two samples, of which a merge drops the older one before a second
crash. -/
def expiryRun : Run Store.step
    (Store.init (c := partition 0) [] (fun _ => ([], 0)) fun x => ⟨7, Int64.ofNat (100 * x)⟩) :=
  Run.ofActions (crashActions (partition 0) (1000, 1000) ++
    [.tick 150, .startMerge 0 [0] false (1000, 1000), .finishMerge 0 [2] [1] 5,
      .swapSrcWithDstParts 0, .crash, .mustReadPartNames,
      .beginRemoveUnlisted (.small, "0000000000000065"),
      .endRemoveUnlisted (.small, "0000000000000065"), .mustOpenParts 60]) (by decide)

/-- The process of a store that is open. -/
def Store.running? {c : Kind} (s : Store c) : Option (Running c.Place) :=
  match s.proc with
  | .running r => some r
  | _ => none

theorem Store.proc_eq_of_running? {c : Kind} {s : Store c} {r : Running c.Place}
    (h : s.running? = some r) : s.proc = .running r := by
  rw [running?] at h
  split at h
  · next hproc => rw [hproc, Option.some.inj h]
  · cases h

theorem row_survives_crashRun :
    (crashRun.length = 9 ∧
      ∃ p p', (crashRun.state 6).running? = some p ∧ (crashRun.state 9).running? = some p' ∧
        p.parts = [⟨1, some ((), "0000000000000065"), [1, 2], 10⟩] ∧
        ∃! pw, pw ∈ p'.parts ∧ 1 ∈ pw.rows) ∧
    ∃ p p', (expiryRun.state 6).running? = some p ∧ (expiryRun.state 18).running? = some p' ∧
      p.parts = [⟨1, some (.small, "0000000000000065"), [1, 2], 10⟩] ∧
      (∃! pw, pw ∈ p'.parts ∧ 2 ∈ pw.rows) ∧ (expiryRun.state 18).Expired 1 := by
  refine ⟨?_, ?_⟩
  · have h₆ : (crashRun.state 6).running?.isSome := by decide
    have h₉ : (crashRun.state 9).running?.isSome := by decide
    have hparts : ((crashRun.state 6).running?.get h₆).parts =
        [⟨1, some ((), "0000000000000065"), [1, 2], 10⟩] := by
      revert h₆
      decide
    refine ⟨rfl, _, _, (Option.some_get h₆).symm, (Option.some_get h₉).symm, hparts, ?_⟩
    have hsurvives := (row_survives nodup_nil nodup_nil crashRun).2 6 9 (by decide)
      (by decide) _ _ _ 1 (Store.proc_eq_of_running? (Option.some_get h₆).symm)
      (hparts ▸ mem_cons_self) rfl mem_cons_self
      (Store.proc_eq_of_running? (Option.some_get h₉).symm)
    refine hsurvives.resolve_right fun hdropped => absurd hdropped.1.1 ?_
    decide
  · have h₆ : (expiryRun.state 6).running?.isSome := by decide
    have h₁₈ : (expiryRun.state 18).running?.isSome := by decide
    have hparts : ((expiryRun.state 6).running?.get h₆).parts =
        [⟨1, some (.small, "0000000000000065"), [1, 2], 10⟩] := by
      revert h₆
      decide
    have hsurvives := (row_survives nodup_nil nodup_nil expiryRun).2 6 18 (by decide)
      (by decide) _ _ _ 2 (Store.proc_eq_of_running? (Option.some_get h₆).symm)
      (hparts ▸ mem_cons_self) rfl (mem_cons_of_mem _ mem_cons_self)
      (Store.proc_eq_of_running? (Option.some_get h₁₈).symm)
    refine ⟨_, _, (Option.some_get h₆).symm, (Option.some_get h₁₈).symm, hparts,
      hsurvives.resolve_right fun hdropped => absurd hdropped.1.1 ?_, ?_⟩
    · decide
    · decide

end Esmetrics.PartStore
