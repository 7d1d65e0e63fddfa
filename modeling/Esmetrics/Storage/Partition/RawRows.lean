import Mathlib.Algebra.BigOperators.Fin
import Mathlib.Algebra.BigOperators.Group.Finset.Basic
import Mathlib.Algebra.Order.BigOperators.Group.List
import Mathlib.Data.Multiset.AddSub
import Mathlib.Tactic.Abel
import Esmetrics.Lib.Runs

/-!
# The shards of raw rows

Model of `RawRowsShards` (`esm-storage/src/partition/raw_rows.rs`), where rows stay between their
ingestion and the first in-memory part, among threads that add rows and threads that flush. A step
is what a thread does between two points where others can see it: it draws the next shard, fills a
shard under its lock, moves rows to the shared list under its lock, loads a deadline, and so on. The
clock may show anything at every step.

Rows that a thread has taken from a shard or from the shared list are in its hand until it passes
them on. Together with these, no row is lost at any moment (`RawRows.rows_conserved`).
-/

namespace Esmetrics.RawRows

open List
open Function (update update_of_ne update_self)

variable {T Row : Type}

/-- The size of a `RawRow` in bytes. -/
def rawRowSize : ℕ := 48

@[irreducible]
def maxRawRowsPerShard : ℕ := (8 <<< 20) / rawRowSize

/-- The constant `DEFAULT_PARTS_TO_MERGE`. -/
def defaultPartsToMerge : ℕ := 15

/-- The constant `PENDING_ROWS_FLUSH_INTERVAL` in milliseconds. -/
def pendingRowsFlushInterval : UInt64 := 2000

/-- A shard of rows. -/
structure Shard (Row : Type) where
  flushDeadlineMs : UInt64
  rows : List Row
  len : ℕ

namespace Shard

def new : Shard Row := ⟨0, [], 0⟩

/-- Fills the shard. An overflowing shard is emptied and filled again; the rows that are left and
the rows of the full shard are returned. -/
def addRows (shard : Shard Row) (now : UInt64) (rows : List Row) :
    Shard Row × List Row × List Row :=
  let deadline := if shard.rows.isEmpty then now + pendingRowsFlushInterval
    else shard.flushDeadlineMs
  let n := min rows.length (maxRawRowsPerShard - shard.rows.length)
  let guard := shard.rows ++ rows.take n
  let rows := rows.drop n
  if rows.isEmpty then (⟨deadline, guard, guard.length⟩, rows, [])
  else
    let n := min rows.length maxRawRowsPerShard
    let rowsToFlush := guard
    let guard := rows.take n
    (⟨now + pendingRowsFlushInterval, guard, guard.length⟩, rows.drop n, rowsToFlush)

/-- The rows of a shard and of a call go to the shard, stay with the call or are to be flushed. -/
theorem addRows_rows (shard : Shard Row) (now : UInt64) (rows : List Row) :
    (shard.addRows now rows).1.rows + (shard.addRows now rows).2.1 +
      (shard.addRows now rows).2.2 = (shard.rows + rows : Multiset Row) := by
  simp only [addRows]
  set n := min rows.length (maxRawRowsPerShard - shard.rows.length)
  have hrows : (rows.take n : Multiset Row) + rows.drop n = rows := by
    rw [Multiset.coe_add, take_append_drop]
  split
  · rename_i hempty
    rw [← hrows, isEmpty_iff.mp hempty]
    simp
  · have htail := take_append_drop (min (rows.drop n).length maxRawRowsPerShard) (rows.drop n)
    rw [← hrows, Multiset.coe_add (List.take _ (rows.drop n)), htail, ← Multiset.coe_add]
    abel

/-- A shard that is not over its limit stays so, and it knows how many rows it has. -/
theorem length_addRows {shard : Shard Row} (h : shard.rows.length ≤ maxRawRowsPerShard)
    (now : UInt64) (rows : List Row) :
    (shard.addRows now rows).1.rows.length ≤ maxRawRowsPerShard ∧
      (shard.addRows now rows).1.len = (shard.addRows now rows).1.rows.length := by
  simp only [addRows]
  split
  · refine ⟨?_, rfl⟩
    rw [length_append, length_take]
    omega
  · refine ⟨?_, rfl⟩
    rw [length_take]
    omega

end Shard

/-- Where a thread is. -/
inductive Phase (Row : Type) where
  | idle
  /-- The head of the loop of `add_rows`. -/
  | addLoop (rows : List Row)
  | addShard (rows : List Row) (idx : ℕ)
  | addRowsToFlush (rows rowsToFlush : List Row)
  /-- Before the call of `flush_rowss_to_inmemory_parts` in `add_rows_to_flush`. -/
  | addFlush (rows : List Row) (rowssToMerge : List (List Row))
  | flushStart (isFinal : Bool)
  | flushDeadline (isFinal : Bool) (currentTimeMs : UInt64)
  | flushTake (isFinal : Bool) (currentTimeMs : UInt64)
  /-- The head of the loop of `flush` over the shards. -/
  | flushShard (isFinal : Bool) (currentTimeMs : UInt64) (idx : ℕ) (dst : List (List Row))
  | flushShardTake (isFinal : Bool) (currentTimeMs : UInt64) (idx : ℕ) (dst : List (List Row))
  /-- Before the call of `flush_rowss_to_inmemory_parts` in `flush`. -/
  | flushEnd (dst : List (List Row))

namespace Phase

/-- The rows of a call of `add_rows` that are not consumed yet. -/
def suffix : Phase Row → List Row
  | .addLoop rows | .addShard rows _ | .addRowsToFlush rows _ | .addFlush rows _ => rows
  | _ => []

/-- The rows that the thread has taken and has not passed on. -/
def hand : Phase Row → List Row
  | .addRowsToFlush _ rowsToFlush => rowsToFlush
  | .addFlush _ rowss => rowss.flatten
  | .flushShard _ _ _ dst | .flushShardTake _ _ _ dst | .flushEnd dst => dst.flatten
  | _ => []

/-- Whether the thread is in a call of `add_rows`. -/
def IsAdd : Phase Row → Prop
  | .addLoop _ | .addShard _ _ | .addRowsToFlush _ _ | .addFlush _ _ => True
  | _ => False

end Phase

/-- The shards, the threads, and what went in and out so far. -/
structure State (T Row : Type) where
  flushDeadlineMs : UInt64
  shardIdx : UInt32
  shards : List (Shard Row)
  rowssToFlush : List (List Row)
  phase : T → Phase Row
  /-- The rows passed to `add_rows` so far. -/
  added : Multiset Row
  /-- The rows passed to `flush_rowss_to_inmemory_parts` so far. -/
  flushed : Multiset Row

namespace State

def new (shards : ℕ) : State T Row :=
  ⟨0, 0, List.replicate (max shards 1) .new, [], fun _ => .idle, 0, 0⟩

/-- The sum of what the shards report and the rows in the list. -/
def len (s : State T Row) : ℕ :=
  (s.shards.map Shard.len).sum + (s.rowssToFlush.map List.length).sum

/-- The rows in the shards. -/
def shardRows (shards : List (Shard Row)) : Multiset Row :=
  (shards.map fun shard => (shard.rows : Multiset Row)).sum

end State

/-- The steps: a call starts, or a thread in a call goes on while the clock shows `now`. -/
inductive Action (T Row : Type) where
  | addRows (t : T) (rows : List Row)
  | flush (t : T) (isFinal : Bool)
  | next (t : T) (now : UInt64)
  deriving Inhabited

namespace State

section Step

variable [DecidableEq T]

/-- A thread goes to its next phase. -/
def goto (s : State T Row) (t : T) (p : Phase Row) : State T Row :=
  { s with phase := update s.phase t p }

/-- The next step of a thread that is in a call. -/
def next (s : State T Row) (t : T) (now : UInt64) : Option (State T Row) :=
  match s.phase t with
  | .idle => none
  | .addLoop rows =>
    if rows.isEmpty then some (s.goto t .idle)
    else
      let n := s.shardIdx + 1
      let idx := (n % UInt32.ofNat s.shards.length).toNat
      some { s.goto t (.addShard rows idx) with shardIdx := n }
  | .addShard rows idx =>
    match s.shards[idx]? with
    | none => none
    | some shard =>
      let (shard, tail, rowsToFlush) := shard.addRows now rows
      some { s.goto t (.addRowsToFlush tail rowsToFlush) with shards := s.shards.set idx shard }
  | .addRowsToFlush rows rowsToFlush =>
    if rowsToFlush.isEmpty then some (s.goto t (.addLoop rows))
    else
      let deadline :=
        if s.rowssToFlush.isEmpty then now + pendingRowsFlushInterval else s.flushDeadlineMs
      let guard := s.rowssToFlush ++ [rowsToFlush]
      if guard.length ≥ defaultPartsToMerge then
        some { s.goto t (.addFlush rows guard) with
          flushDeadlineMs := deadline
          rowssToFlush := [] }
      else
        some { s.goto t (.addFlush rows []) with
          flushDeadlineMs := deadline
          rowssToFlush := guard }
  | .addFlush rows rowss =>
    some { s.goto t (.addLoop rows) with flushed := s.flushed + rowss.flatten }
  | .flushStart isFinal => some (s.goto t (.flushDeadline isFinal now))
  | .flushDeadline isFinal currentTimeMs =>
    if isFinal || decide (currentTimeMs ≥ s.flushDeadlineMs) then
      some (s.goto t (.flushTake isFinal currentTimeMs))
    else some (s.goto t (.flushShard isFinal currentTimeMs 0 []))
  | .flushTake isFinal currentTimeMs =>
    some { s.goto t (.flushShard isFinal currentTimeMs 0 s.rowssToFlush) with rowssToFlush := [] }
  | .flushShard isFinal currentTimeMs idx dst =>
    match s.shards[idx]? with
    | none => some (s.goto t (.flushEnd dst))
    | some shard =>
      if !isFinal && decide (currentTimeMs < shard.flushDeadlineMs) then
        some (s.goto t (.flushShard isFinal currentTimeMs (idx + 1) dst))
      else some (s.goto t (.flushShardTake isFinal currentTimeMs idx dst))
  | .flushShardTake isFinal currentTimeMs idx dst =>
    match s.shards[idx]? with
    | none => none
    | some shard =>
      let dst := if shard.rows.isEmpty then dst else dst ++ [shard.rows]
      some { s.goto t (.flushShard isFinal currentTimeMs (idx + 1) dst) with
        shards := s.shards.set idx { shard with rows := [], len := 0 } }
  | .flushEnd dst => some { s.goto t .idle with flushed := s.flushed + dst.flatten }

def step (s : State T Row) : Action T Row → Option (State T Row)
  | .addRows t rows =>
    match s.phase t with
    | .idle => some { s.goto t (.addLoop rows) with added := s.added + rows }
    | _ => none
  | .flush t isFinal =>
    match s.phase t with
    | .idle => some (s.goto t (.flushStart isFinal))
    | _ => none
  | .next t now => s.next t now

end Step

/-! ### What a step can do -/

/-- The steps of a thread in a call, by where the thread is. -/
inductive Next [DecidableEq T] (s : State T Row) (t : T) : State T Row → Prop
  | addDone (h : s.phase t = .addLoop []) : Next s t (s.goto t .idle)
  | draw {rows : List Row} {idx : ℕ} {n : UInt32} (h : s.phase t = .addLoop rows) :
      Next s t { s.goto t (.addShard rows idx) with shardIdx := n }
  | fill {rows : List Row} {idx : ℕ} {shard : Shard Row} {now : UInt64}
      (h : s.phase t = .addShard rows idx) (hshard : s.shards[idx]? = some shard) :
      Next s t { s.goto t (.addRowsToFlush (shard.addRows now rows).2.1
        (shard.addRows now rows).2.2)
        with shards := s.shards.set idx (shard.addRows now rows).1 }
  | addNothing {rows : List Row} (h : s.phase t = .addRowsToFlush rows []) :
      Next s t (s.goto t (.addLoop rows))
  | push {rows rowsToFlush : List Row} {deadline : UInt64}
      (h : s.phase t = .addRowsToFlush rows rowsToFlush) :
      Next s t { s.goto t (.addFlush rows []) with
        flushDeadlineMs := deadline, rowssToFlush := s.rowssToFlush ++ [rowsToFlush] }
  | pushTake {rows rowsToFlush : List Row} {deadline : UInt64}
      (h : s.phase t = .addRowsToFlush rows rowsToFlush) :
      Next s t { s.goto t (.addFlush rows (s.rowssToFlush ++ [rowsToFlush])) with
        flushDeadlineMs := deadline, rowssToFlush := [] }
  | addFlush {rows : List Row} {rowss : List (List Row)} (h : s.phase t = .addFlush rows rowss) :
      Next s t { s.goto t (.addLoop rows) with flushed := s.flushed + rowss.flatten }
  | readClock {isFinal : Bool} {now : UInt64} (h : s.phase t = .flushStart isFinal) :
      Next s t (s.goto t (.flushDeadline isFinal now))
  | expired {isFinal : Bool} {now : UInt64} (h : s.phase t = .flushDeadline isFinal now) :
      Next s t (s.goto t (.flushTake isFinal now))
  | notExpired {now : UInt64} (h : s.phase t = .flushDeadline false now) :
      Next s t (s.goto t (.flushShard false now 0 []))
  | take {isFinal : Bool} {now : UInt64} (h : s.phase t = .flushTake isFinal now) :
      Next s t { s.goto t (.flushShard isFinal now 0 s.rowssToFlush) with rowssToFlush := [] }
  | shardsDone {isFinal : Bool} {now : UInt64} {idx : ℕ} {dst : List (List Row)}
      (h : s.phase t = .flushShard isFinal now idx dst) (hidx : s.shards[idx]? = none) :
      Next s t (s.goto t (.flushEnd dst))
  | shardNotExpired {now : UInt64} {idx : ℕ} {dst : List (List Row)}
      (h : s.phase t = .flushShard false now idx dst) :
      Next s t (s.goto t (.flushShard false now (idx + 1) dst))
  | shardExpired {isFinal : Bool} {now : UInt64} {idx : ℕ} {dst : List (List Row)}
      (h : s.phase t = .flushShard isFinal now idx dst) :
      Next s t (s.goto t (.flushShardTake isFinal now idx dst))
  | shardTake {isFinal : Bool} {now : UInt64} {idx : ℕ} {dst dst' : List (List Row)}
      {shard : Shard Row} (h : s.phase t = .flushShardTake isFinal now idx dst)
      (hshard : s.shards[idx]? = some shard) (hdst : dst'.flatten = dst.flatten ++ shard.rows) :
      Next s t { s.goto t (.flushShard isFinal now (idx + 1) dst') with
        shards := s.shards.set idx { shard with rows := [], len := 0 } }
  | flushEnd {dst : List (List Row)} (h : s.phase t = .flushEnd dst) :
      Next s t { s.goto t .idle with flushed := s.flushed + dst.flatten }

variable {s s' : State T Row} {a : Action T Row}

theorem next_cases [DecidableEq T] {t : T} {now : UInt64} (h : s.next t now = some s') :
    Next s t s' := by
  unfold next at h
  split at h
  · cases h
  · rename_i rows hphase
    split at h
    · rename_i hempty
      cases h
      exact .addDone (hphase.trans (by rw [isEmpty_iff.mp hempty]))
    · cases h
      exact .draw hphase
  · rename_i rows idx hphase
    split at h
    · cases h
    · rename_i shard hshard
      cases h
      exact .fill hphase hshard
  · rename_i rows rowsToFlush hphase
    split at h
    · rename_i hempty
      cases h
      exact .addNothing (hphase.trans (by rw [isEmpty_iff.mp hempty]))
    · simp only at h
      split at h
      · cases h
        exact .pushTake hphase
      · cases h
        exact .push hphase
  · rename_i rows rowss hphase
    cases h
    exact .addFlush hphase
  · rename_i isFinal hphase
    cases h
    exact .readClock hphase
  · rename_i isFinal current hphase
    split at h
    · cases h
      exact .expired hphase
    · rename_i hnot
      cases h
      cases isFinal with
      | true => exact absurd rfl hnot
      | false => exact .notExpired hphase
  · rename_i isFinal current hphase
    cases h
    exact .take hphase
  · rename_i isFinal current idx dst hphase
    split at h
    · rename_i hidx
      cases h
      exact .shardsDone hphase hidx
    · rename_i shard hshard
      split at h
      · rename_i hnot
        cases h
        cases isFinal with
        | true => exact absurd hnot Bool.false_ne_true
        | false => exact .shardNotExpired hphase
      · cases h
        exact .shardExpired hphase
  · rename_i isFinal current idx dst hphase
    split at h
    · cases h
    · rename_i shard hshard
      cases h
      refine .shardTake hphase hshard ?_
      split
      · rename_i hempty
        rw [isEmpty_iff.mp hempty, append_nil]
      · rw [flatten_append, flatten_singleton]
  · rename_i dst hphase
    cases h
    exact .flushEnd hphase

/-! ### Rows are conserved -/

section Conserved

variable [Fintype T]

/-- The rows of the calls in progress: not consumed yet, or in the hand of a thread. -/
def pending (phase : T → Phase Row) : Multiset Row :=
  ∑ t, ((phase t).suffix + (phase t).hand : Multiset Row)

/-- Every row that was added is somewhere, as often as it was added. -/
def Conserved (s : State T Row) : Prop :=
  s.added = shardRows s.shards + s.rowssToFlush.flatten + s.flushed + pending s.phase

theorem conserved_new (shards : ℕ) : Conserved (new shards : State T Row) := by
  have hshards : ∀ n, shardRows (List.replicate n (Shard.new : Shard Row)) = 0 := by
    intro n
    induction n with
    | zero => rfl
    | succ n ih =>
      rw [replicate_succ, shardRows, map_cons, sum_cons]
      exact (zero_add _).trans ih
  simp [Conserved, new, hshards, pending, Phase.suffix, Phase.hand]

variable [DecidableEq T]

theorem pending_update (phase : T → Phase Row) (t : T) (p : Phase Row) :
    pending (update phase t p) + ((phase t).suffix + (phase t).hand : Multiset Row) =
      pending phase + (p.suffix + p.hand : Multiset Row) := by
  unfold pending
  rw [← Finset.add_sum_erase _ _ (Finset.mem_univ t),
    ← Finset.add_sum_erase _ (fun u => ((phase u).suffix + (phase u).hand : Multiset Row))
      (Finset.mem_univ t), update_self]
  have hrest : ∑ u ∈ Finset.univ.erase t, ((update phase t p u).suffix +
        (update phase t p u).hand : Multiset Row) =
      ∑ u ∈ Finset.univ.erase t, ((phase u).suffix + (phase u).hand : Multiset Row) :=
    Finset.sum_congr rfl fun u hu => by
      rw [update_of_ne (Finset.ne_of_mem_erase hu)]
  rw [hrest]
  abel

theorem shardRows_set {shards : List (Shard Row)} {idx : ℕ} {old : Shard Row}
    (h : shards[idx]? = some old) (shard : Shard Row) :
    shardRows (shards.set idx shard) + old.rows = shardRows shards + shard.rows := by
  induction shards generalizing idx with
  | nil => simp at h
  | cons first shards ih =>
    cases idx with
    | zero =>
      obtain rfl : first = old := by simpa using h
      simp only [shardRows, set_cons_zero, map_cons, sum_cons]
      abel
    | succ idx =>
      have hidx : shards[idx]? = some old := by simpa using h
      have ih := ih hidx
      simp only [shardRows, set_cons_succ, map_cons, sum_cons] at ih ⊢
      rw [add_assoc, ih, add_assoc]

variable {s s' : State T Row}

/-- A step of a thread keeps the rows when it keeps those that it can reach. -/
theorem Conserved.update {t : T} {p : Phase Row} (hs : Conserved s)
    (hphase : s'.phase = update s.phase t p)
    (hkeep : s.added + (shardRows s'.shards + s'.rowssToFlush.flatten + s'.flushed +
      (p.suffix + p.hand : Multiset Row)) = s'.added + (shardRows s.shards +
        s.rowssToFlush.flatten + s.flushed + ((s.phase t).suffix +
          (s.phase t).hand : Multiset Row))) :
    Conserved s' := by
  have hupdate := pending_update s.phase t p
  rw [← hphase] at hupdate
  unfold Conserved at *
  rw [hs] at hkeep
  apply add_right_cancel (b := ((s.phase t).suffix + (s.phase t).hand : Multiset Row))
  apply add_right_cancel (b := shardRows s.shards + s.rowssToFlush.flatten + s.flushed)
  calc s'.added + ((s.phase t).suffix + (s.phase t).hand : Multiset Row) +
          (shardRows s.shards + s.rowssToFlush.flatten + s.flushed)
      = s'.added + (shardRows s.shards + s.rowssToFlush.flatten + s.flushed +
          ((s.phase t).suffix + (s.phase t).hand : Multiset Row)) := by abel
    _ = shardRows s.shards + s.rowssToFlush.flatten + s.flushed + pending s.phase +
          (shardRows s'.shards + s'.rowssToFlush.flatten + s'.flushed +
            (p.suffix + p.hand : Multiset Row)) := hkeep.symm
    _ = shardRows s'.shards + s'.rowssToFlush.flatten + s'.flushed +
          (pending s.phase + (p.suffix + p.hand : Multiset Row)) +
            (shardRows s.shards + s.rowssToFlush.flatten + s.flushed) := by abel
    _ = shardRows s'.shards + s'.rowssToFlush.flatten + s'.flushed + pending s'.phase +
          ((s.phase t).suffix + (s.phase t).hand : Multiset Row) +
            (shardRows s.shards + s.rowssToFlush.flatten + s.flushed) := by
      rw [← hupdate]
      abel

/-- A step that moves no rows. -/
theorem Conserved.goto {t : T} {p : Phase Row} (hs : Conserved s)
    (hsuffix : p.suffix = (s.phase t).suffix)
    (hhand : p.hand = (s.phase t).hand) :
    Conserved (s.goto t p) :=
  hs.update (t := t) (p := p) rfl (by rw [hsuffix, hhand]; rfl)

theorem Conserved.next {t : T} (hs : Conserved s) (h : Next s t s') :
    Conserved s' := by
  cases h with
  | addDone h => exact hs.goto (by rw [h]; rfl) (by rw [h]; rfl)
  | draw h => exact hs.update rfl (by rw [h]; rfl)
  | @fill rows idx shard now h hshard =>
    refine hs.update rfl ?_
    have hset := shardRows_set hshard (shard.addRows now rows).1
    have hrows := shard.addRows_rows now rows
    rw [h]
    apply add_right_cancel (b := (shard.rows : Multiset Row))
    simp only [Phase.suffix, Phase.hand, State.goto, Multiset.coe_nil, add_zero]
    calc s.added + (shardRows (s.shards.set idx (shard.addRows now rows).1) +
            s.rowssToFlush.flatten + s.flushed +
              ((shard.addRows now rows).2.1 + (shard.addRows now rows).2.2)) + shard.rows
        = s.added + s.rowssToFlush.flatten + s.flushed + (shard.addRows now rows).2.1 +
            (shard.addRows now rows).2.2 +
              (shardRows (s.shards.set idx (shard.addRows now rows).1) + shard.rows) := by abel
      _ = s.added + shardRows s.shards + s.rowssToFlush.flatten + s.flushed +
            ((shard.addRows now rows).1.rows + (shard.addRows now rows).2.1 +
              (shard.addRows now rows).2.2) := by
        rw [hset]
        abel
      _ = s.added + (shardRows s.shards + s.rowssToFlush.flatten + s.flushed + rows) +
            shard.rows := by
        rw [hrows]
        abel
  | addNothing h => exact hs.goto (by rw [h]; rfl) (by rw [h]; rfl)
  | push h =>
    refine hs.update rfl ?_
    rw [h]
    simp only [Phase.suffix, Phase.hand, State.goto, flatten_append, flatten_cons,
      flatten_nil, append_nil, ← Multiset.coe_add, Multiset.coe_nil, add_zero]
    abel
  | pushTake h =>
    refine hs.update rfl ?_
    rw [h]
    simp only [Phase.suffix, Phase.hand, State.goto, flatten_append, flatten_cons,
      flatten_nil, append_nil, ← Multiset.coe_add, Multiset.coe_nil, add_zero]
    abel
  | addFlush h =>
    refine hs.update rfl ?_
    rw [h]
    simp only [Phase.suffix, Phase.hand, State.goto, Multiset.coe_nil, add_zero]
    abel
  | readClock h => exact hs.goto (by rw [h]; rfl) (by rw [h]; rfl)
  | expired h => exact hs.goto (by rw [h]; rfl) (by rw [h]; rfl)
  | notExpired h => exact hs.goto (by rw [h]; rfl) (by rw [h]; rfl)
  | take h =>
    refine hs.update rfl ?_
    rw [h]
    simp only [Phase.suffix, Phase.hand, State.goto, flatten_nil, Multiset.coe_nil, add_zero,
      zero_add]
    abel
  | shardsDone h => exact hs.goto (by rw [h]; rfl) (by rw [h]; rfl)
  | shardNotExpired h => exact hs.goto (by rw [h]; rfl) (by rw [h]; rfl)
  | shardExpired h => exact hs.goto (by rw [h]; rfl) (by rw [h]; rfl)
  | @shardTake isFinal now idx dst dst' shard h hshard hdst =>
    refine hs.update rfl ?_
    have hset := shardRows_set hshard { shard with rows := [], len := 0 }
    rw [h]
    simp only [Phase.suffix, Phase.hand, State.goto, hdst, Multiset.coe_nil, add_zero,
      zero_add, ← Multiset.coe_add] at hset ⊢
    rw [← hset]
    abel
  | flushEnd h =>
    refine hs.update rfl ?_
    rw [h]
    simp only [Phase.suffix, Phase.hand, State.goto, Multiset.coe_nil, add_zero, zero_add]
    abel

theorem Conserved.step {a : Action T Row} (hs : Conserved s) (h : s.step a = some s') :
    Conserved s' := by
  cases a with
  | addRows t rows =>
    simp only [State.step] at h
    split at h
    · rename_i hphase
      cases h
      refine hs.update rfl ?_
      rw [hphase]
      simp only [Phase.suffix, Phase.hand, State.goto, Multiset.coe_nil, add_zero]
      abel
    · cases h
  | flush t isFinal =>
    simp only [State.step] at h
    split at h
    · rename_i hphase
      cases h
      exact hs.goto (by rw [hphase]; rfl) (by rw [hphase]; rfl)
    · cases h
  | next t now => exact hs.next (next_cases h)

end Conserved

/-! ### Shards keep to their limit -/

/-- No shard has more rows than it may have, and each knows how many it has. -/
def Within (s : State T Row) : Prop :=
  ∀ shard ∈ s.shards, shard.rows.length ≤ maxRawRowsPerShard ∧ shard.len = shard.rows.length

theorem Within.set (hs : Within s) (idx : ℕ) {shard : Shard Row}
    (h : shard.rows.length ≤ maxRawRowsPerShard ∧ shard.len = shard.rows.length) :
    ∀ x ∈ s.shards.set idx shard,
      x.rows.length ≤ maxRawRowsPerShard ∧ x.len = x.rows.length := by
  intro x hx
  obtain hx | rfl := mem_or_eq_of_mem_set hx
  · exact hs x hx
  · exact h

theorem Within.step [DecidableEq T] (hs : Within s) (h : s.step a = some s') : Within s' := by
  cases a with
  | addRows t rows =>
    simp only [State.step] at h
    split at h <;> cases h
    exact hs
  | flush t isFinal =>
    simp only [State.step] at h
    split at h <;> cases h
    exact hs
  | next t now =>
    cases next_cases h with
    | fill hphase hshard =>
      exact hs.set _ (Shard.length_addRows (hs _ (mem_of_getElem? hshard)).1 _ _)
    | shardTake hphase hshard hdst => exact hs.set _ ⟨Nat.zero_le _, rfl⟩
    | addDone | draw | addNothing | push | pushTake | addFlush | readClock | expired | notExpired
      | take | shardsDone | shardNotExpired | shardExpired | flushEnd => exact hs

theorem within_new (shards : ℕ) : Within (new shards : State T Row) := by
  intro shard hshard
  obtain rfl := eq_of_mem_replicate hshard
  exact ⟨Nat.zero_le _, rfl⟩

/-! ### A final flush -/

/-- No call of `add_rows` is in progress. -/
def NoAdd (s : State T Row) : Prop := ∀ t, ¬ (s.phase t).IsAdd

/-- No rows are in the shards or in the list. -/
def Empty (s : State T Row) : Prop := s.rowssToFlush = [] ∧ ∀ shard ∈ s.shards, shard.rows = []

def EmptyAt (s : State T Row) (idx : ℕ) : Prop := ∀ shard ∈ s.shards[idx]?, shard.rows = []

/-- What is empty stays so. -/
def Shrinks (s s' : State T Row) : Prop :=
  (s.rowssToFlush = [] → s'.rowssToFlush = []) ∧ ∀ idx, EmptyAt s idx → EmptyAt s' idx

theorem Shrinks.empty (h : Shrinks s s') (hs : Empty s) : Empty s' := by
  refine ⟨h.1 hs.1, fun shard hshard => ?_⟩
  obtain ⟨idx, hidx⟩ := mem_iff_getElem?.mp hshard
  exact h.2 idx (fun shard hshard => hs.2 shard (mem_of_getElem? hshard)) shard hidx

theorem Shrinks.emptyBelow (h : Shrinks s s') {n : ℕ}
    (hs : s.rowssToFlush = [] ∧ ∀ idx < n, EmptyAt s idx) :
    s'.rowssToFlush = [] ∧ ∀ idx < n, EmptyAt s' idx :=
  ⟨h.1 hs.1, fun idx hidx => h.2 idx (hs.2 idx hidx)⟩

theorem shrinks_step [DecidableEq T] (hs : NoAdd s) (h : s.step a = some s') : Shrinks s s' := by
  cases a with
  | addRows t rows =>
    simp only [State.step] at h
    split at h <;> cases h
    exact ⟨id, fun _ => id⟩
  | flush t isFinal =>
    simp only [State.step] at h
    split at h <;> cases h
    exact ⟨id, fun _ => id⟩
  | next t now =>
    have hadd := hs t
    cases next_cases h with
    | addDone | draw | addNothing | push | pushTake | addFlush =>
      rename_i hphase
      rw [hphase] at hadd
      exact absurd trivial hadd
    | fill hphase hshard =>
      rw [hphase] at hadd
      exact absurd trivial hadd
    | take h => exact ⟨fun _ => rfl, fun _ => id⟩
    | @shardTake _ _ i _ _ shard h hshard hdst =>
      refine ⟨id, fun idx hidx x hx => ?_⟩
      simp only [getElem?_set] at hx
      split_ifs at hx with heq hlt
      · obtain rfl := Option.some.inj hx
        rfl
      · cases hx
      · exact hidx x hx
    | readClock | expired | notExpired | shardsDone | shardNotExpired | shardExpired | flushEnd =>
      exact ⟨id, fun _ => id⟩

/-- The list and the first shards are empty. -/
def EmptyBelow (s : State T Row) (n : ℕ) : Prop :=
  s.rowssToFlush = [] ∧ ∀ idx < n, EmptyAt s idx

/-- What a final flush by the thread `t` has emptied so far; when it is over, everything. -/
def Cleared (s : State T Row) (t : T) : Prop :=
  match s.phase t with
  | .flushStart true | .flushDeadline true _ | .flushTake true _ => True
  | .flushShard true _ idx _ | .flushShardTake true _ idx _ => EmptyBelow s idx
  | _ => Empty s

theorem goto_phase [DecidableEq T] (s : State T Row) (t : T) (p : Phase Row) :
    (s.goto t p).phase t = p :=
  update_self _ _ _

/-- A step of another thread does not undo a final flush. -/
theorem Cleared.of_shrinks {t : T} (hs : Cleared s t) (h : Shrinks s s')
    (hphase : s'.phase t = s.phase t) :
    Cleared s' t := by
  unfold Cleared at *
  rw [hphase]
  split at hs
  · trivial
  · trivial
  · trivial
  · exact h.emptyBelow hs
  · exact h.emptyBelow hs
  · exact h.empty hs

theorem Empty.emptyBelow (h : Empty s) (n : ℕ) : EmptyBelow s n :=
  ⟨h.1, fun _ _ shard hshard => h.2 shard (mem_of_getElem? hshard)⟩

theorem Empty.cleared (h : Empty s) (t : T) : Cleared s t := by
  unfold Cleared
  split
  · trivial
  · trivial
  · trivial
  · exact h.emptyBelow _
  · exact h.emptyBelow _
  · exact h

/-- Below an index that is past the end, everything is empty. -/
theorem EmptyBelow.empty {n : ℕ} (h : EmptyBelow s n) (hn : s.shards[n]? = none) : Empty s := by
  refine ⟨h.1, fun shard hshard => ?_⟩
  obtain ⟨idx, hidx⟩ := mem_iff_getElem?.mp hshard
  have hlt : idx < s.shards.length := (List.getElem?_eq_some_iff.mp hidx).1
  exact h.2 idx (hlt.trans_le (getElem?_eq_none_iff.mp hn)) shard hidx

/-- A step of the thread itself goes on with its final flush, or the flush is over. -/
theorem Cleared.next [DecidableEq T] {t : T} (hshrinks : Shrinks s s') (hs : Cleared s t)
    (h : Next s t s') : Cleared s' t := by
  have hempty : Empty s → Cleared s' t := fun hs => (hshrinks.empty hs).cleared t
  cases h with
  | addDone | draw | addNothing | push | pushTake | addFlush | notExpired | shardNotExpired
    | flushEnd =>
    rename_i hphase
    simp only [Cleared, hphase] at hs
    exact hempty hs
  | fill hphase hshard =>
    simp only [Cleared, hphase] at hs
    exact hempty hs
  | @readClock isFinal now hphase =>
    cases isFinal with
    | true => simp only [Cleared, goto_phase]
    | false =>
      simp only [Cleared, hphase] at hs
      exact hempty hs
  | @expired isFinal now hphase =>
    cases isFinal with
    | true => simp only [Cleared, goto_phase]
    | false =>
      simp only [Cleared, hphase] at hs
      exact hempty hs
  | @take isFinal now hphase =>
    cases isFinal with
    | true =>
      simp only [Cleared, goto_phase]
      exact ⟨rfl, fun idx hidx => absurd hidx (Nat.not_lt_zero idx)⟩
    | false =>
      simp only [Cleared, hphase] at hs
      exact hempty hs
  | @shardsDone isFinal now idx dst hphase hidx =>
    cases isFinal with
    | true =>
      simp only [Cleared, hphase] at hs
      exact hempty (hs.empty hidx)
    | false =>
      simp only [Cleared, hphase] at hs
      exact hempty hs
  | @shardExpired isFinal now idx dst hphase =>
    cases isFinal with
    | true =>
      simp only [Cleared, hphase, goto_phase] at hs ⊢
      exact hs
    | false =>
      simp only [Cleared, hphase] at hs
      exact hempty hs
  | @shardTake isFinal now idx dst dst' shard hphase hshard hdst =>
    cases isFinal with
    | true =>
      simp only [Cleared, hphase, goto_phase] at hs ⊢
      refine ⟨hshrinks.1 hs.1, fun j hj => ?_⟩
      obtain hj | rfl := Nat.lt_succ_iff_lt_or_eq.mp hj
      · exact hshrinks.2 j (hs.2 j hj)
      · intro x hx
        simp only [List.getElem?_set_self (List.getElem?_eq_some_iff.mp hshard).1] at hx
        obtain rfl := Option.some.inj hx
        rfl
    | false =>
      simp only [Cleared, hphase] at hs
      exact hempty hs

theorem Next.phase_of_ne [DecidableEq T] {t u : T} (h : Next s u s') (hne : t ≠ u) :
    s'.phase t = s.phase t := by
  cases h <;> exact update_of_ne hne _ _

theorem Cleared.step [DecidableEq T] {t : T} (hadd : NoAdd s) (hs : Cleared s t)
    (h : s.step a = some s') : Cleared s' t := by
  have hshrinks := shrinks_step hadd h
  -- A thread that starts a call was idle, and then everything was empty.
  have hstart : ∀ {u : T} {p : Phase Row}, s.phase u = .idle →
      s'.phase = update s.phase u p → Cleared s' t := by
    intro u p hidle hphase
    by_cases hne : t = u
    · subst hne
      simp only [Cleared, hidle] at hs
      exact (hshrinks.empty hs).cleared t
    · exact hs.of_shrinks hshrinks (by rw [hphase, update_of_ne hne])
  cases a with
  | addRows u rows =>
    simp only [State.step] at h
    split at h
    · rename_i hidle
      cases h
      exact hstart hidle rfl
    · cases h
  | flush u isFinal =>
    simp only [State.step] at h
    split at h
    · rename_i hidle
      cases h
      exact hstart hidle rfl
    · cases h
  | next u now =>
    have hnext := next_cases h
    by_cases hne : t = u
    · subst hne
      exact hs.next hshrinks hnext
    · exact hs.of_shrinks hshrinks (hnext.phase_of_ne hne)

theorem len_eq_zero (hwithin : Within s) (hs : Empty s) : s.len = 0 := by
  have hshards : (s.shards.map Shard.len).sum = 0 := sum_eq_zero fun n hn => by
    obtain ⟨shard, hshard, rfl⟩ := mem_map.mp hn
    rw [(hwithin shard hshard).2, hs.2 shard hshard]
    rfl
  rw [len, hshards, hs.1]
  rfl

end State

/-! ### Runs -/

open State

variable [Fintype T] [DecidableEq T]

/-- In every run, every row that was added is in a shard, in the list of rows to flush, was handed
to `flush_rowss_to_inmemory_parts`, or is in a call in progress: not consumed yet, or in the hand of
its thread. No shard has more rows than it may have. After a final flush that no addition overlaps,
there are no rows until the next addition. -/
theorem rows_conserved (shards : ℕ) (r : Run State.step (State.new shards : State T Row)) :
    (∀ n ≤ r.length,
      (r.state n).added =
        shardRows (r.state n).shards + (r.state n).rowssToFlush.flatten + (r.state n).flushed +
          (∑ t, (((r.state n).phase t).suffix : Multiset Row) +
            ∑ t, (((r.state n).phase t).hand : Multiset Row)) ∧
      ∀ shard ∈ (r.state n).shards, shard.rows.length ≤ maxRawRowsPerShard) ∧
    ∀ t i j k, i < j → j ≤ k → k ≤ r.length → r.action i = .flush t true →
      (r.state j).phase t = .idle → (∀ n, i < n → n ≤ k → NoAdd (r.state n)) →
      (r.state k).len = 0 := by
  have hwithin := r.invariant (within_new shards) fun s a s' => Within.step
  refine ⟨fun n hn => ⟨?_, fun shard hshard => (hwithin n hn shard hshard).1⟩, ?_⟩
  · have hconserved := r.invariant (conserved_new shards) (fun s a s' => Conserved.step) n hn
    rw [hconserved.trans rfl, pending, Finset.sum_add_distrib]
  · intro t i j k hij hjk hk hflush hidle hadd
    -- While the flush runs it clears the shards; what is clear then stays so.
    have hcleared : ∀ n, i + 1 ≤ n → n ≤ k → Cleared (r.state n) t := by
      intro n hn
      induction n, hn using Nat.le_induction with
      | base =>
        intro _
        have hstep := r.step_eq i (by omega)
        rw [hflush] at hstep
        simp only [State.step] at hstep
        split at hstep
        · obtain heq := Option.some.inj hstep
          rw [← heq]
          simp only [Cleared, goto_phase]
        · cases hstep
      | succ n hn ih =>
        intro hnk
        exact (ih (by omega)).step (hadd n (by omega) (by omega)) (r.step_eq n (by omega))
    have hempty : ∀ n, j ≤ n → n ≤ k → Empty (r.state n) := by
      intro n hn
      induction n, hn using Nat.le_induction with
      | base =>
        intro _
        have hj := hcleared j hij hjk
        simp only [Cleared, hidle] at hj
        exact hj
      | succ n hn ih =>
        intro hnk
        exact (shrinks_step (hadd n (by omega) (by omega)) (r.step_eq n (by omega))).empty
          (ih (by omega))
    exact len_eq_zero (hwithin k hk) (hempty k hjk le_rfl)

/-- The rows that a run has outside the hands of its threads. -/
def outsideHands (s : State T Row) : Multiset Row :=
  shardRows s.shards + s.rowssToFlush.flatten + s.flushed +
    ∑ t, ((s.phase t).suffix : Multiset Row)

variable {rows : List Row}

/-- An empty shard that overflows passes on the rows that it was filled with. -/
theorem Shard.addRows_new_of_lt (hrows : maxRawRowsPerShard < rows.length) (now : UInt64) :
    ((Shard.new : Shard Row).addRows now rows).2.2 = rows.take maxRawRowsPerShard := by
  have hmin : min rows.length (maxRawRowsPerShard - (Shard.new : Shard Row).rows.length) =
      maxRawRowsPerShard := by
    rw [show (Shard.new : Shard Row).rows.length = 0 from rfl, Nat.sub_zero, min_eq_right hrows.le]
  have hdrop : ¬ (rows.drop maxRawRowsPerShard).isEmpty = true := by
    rw [List.isEmpty_iff, drop_eq_nil_iff]
    exact Nat.not_le.mpr hrows
  unfold Shard.addRows
  rw [hmin, if_neg hdrop]
  exact nil_append _

theorem Shard.addRows_overflow (hrows : maxRawRowsPerShard < rows.length) (now : UInt64) :
    ((Shard.new : Shard Row).addRows now rows).2.2 ≠ [] := by
  have hpos : 0 < maxRawRowsPerShard := by
    unfold maxRawRowsPerShard
    decide
  rw [Shard.addRows_new_of_lt hrows]
  refine ne_nil_of_length_pos ?_
  rwa [length_take, min_eq_left hrows.le]

/-- An addition that overflows a shard has the rows of the full shard in its hand. -/
theorem exists_hand (hrows : maxRawRowsPerShard < rows.length) :
    ∃ s, exec State.step (State.new 1 : State Unit Row)
        [.addRows () rows, .next () 0, .next () 0] = some s ∧ (s.phase ()).hand ≠ [] := by
  have hne : ¬ rows.isEmpty = true := by
    rw [List.isEmpty_iff]
    rintro rfl
    exact absurd hrows (Nat.not_lt_zero _)
  let s₀ : State Unit Row := State.new 1
  let s₁ : State Unit Row := { s₀.goto () (.addLoop rows) with added := s₀.added + rows }
  let s₂ : State Unit Row := { s₁.goto () (.addShard rows 0) with shardIdx := 1 }
  let shard := (Shard.new : Shard Row).addRows 0 rows
  let s₃ : State Unit Row := { s₂.goto () (.addRowsToFlush shard.2.1 shard.2.2) with
    shards := s₂.shards.set 0 shard.1 }
  have h₁ : s₀.step (.addRows () rows) = some s₁ := rfl
  have h₂ : s₁.step (.next () 0) = some s₂ := by
    have hphase : s₁.phase () = .addLoop rows := goto_phase s₀ () _
    have hone : ((0 + 1 : UInt32) % UInt32.ofNat 1).toNat = 0 := by decide
    have hidx : ((s₁.shardIdx + 1) % UInt32.ofNat s₁.shards.length).toNat = 0 := hone
    simp only [State.step, State.next, hphase, if_neg hne, hidx]
    rfl
  have h₃ : s₂.step (.next () 0) = some s₃ := rfl
  refine ⟨s₃, ?_, Shard.addRows_overflow hrows 0⟩
  rw [exec_cons, h₁, Option.bind_some, exec_cons, h₂, Option.bind_some, exec_singleton, h₃]

theorem exists_outsideHands_ne (hrows : maxRawRowsPerShard < rows.length) :
    ∃ (r : Run State.step (State.new 1 : State Unit Row)), ∃ n ≤ r.length,
      (r.state n).added ≠ outsideHands (r.state n) := by
  obtain ⟨s, hs, hhand⟩ := exists_hand hrows
  have hsome : (exec State.step (State.new 1 : State Unit Row)
      [.addRows () rows, .next () 0, .next () 0]).isSome := by
    rw [hs]
    rfl
  refine ⟨Run.ofActions _ hsome, 3, le_rfl, fun heq => ?_⟩
  have hstate : (Run.ofActions _ hsome).state 3 = s := by
    change (exec State.step (State.new 1 : State Unit Row)
      [.addRows () rows, .next () 0, .next () 0]).getD _ = s
    rw [hs]
    rfl
  have hconserved := (Run.ofActions _ hsome).invariant (conserved_new 1)
    (fun s a s' => Conserved.step) 3 le_rfl
  rw [hstate] at heq hconserved
  replace hconserved := hconserved.trans rfl
  rw [heq, outsideHands, pending, Finset.sum_add_distrib, ← add_assoc] at hconserved
  have hzero := (left_eq_add.mp hconserved)
  rw [Finset.univ_unique, Finset.sum_singleton] at hzero
  exact hhand (Multiset.coe_eq_zero _ |>.mp hzero)

/-- The rows in the hand of a thread are not in the shards, in the list, handed to
`flush_rowss_to_inmemory_parts` or waiting to be consumed. -/
theorem rows_in_hand :
    ∃ (r : Run State.step (State.new 1 : State Unit ℕ)), ∃ n ≤ r.length,
      (r.state n).added ≠ outsideHands (r.state n) := by
  have hrows : maxRawRowsPerShard < (List.replicate (maxRawRowsPerShard + 1) 0).length := by
    rw [length_replicate]
    exact Nat.lt_succ_self _
  exact exists_outsideHands_ne hrows

end Esmetrics.RawRows
