import Esmetrics.Esmagent.RemoteWrite
import Esmetrics.Lib.Counting

/-!
# Nothing is lost or duplicated on the way

Series go from the calls of `push` into the buffer, and from there into blocks; blocks go through
the calls, the flush loop, the queue and the workers. `Conserved` says that at any moment everything
that came in is at exactly one of these places or has left: series are counted in `PendingSeries`,
in the calls that wait for it and in the blocks that were made, and blocks wherever they can be
(`Pipeline.held`).

`Stopped` is what each phase of `stop` has brought about, and `pipeline_conserves` is what follows
once it has returned.
-/

namespace Esmetrics.Esmagent

open List

/-! ### Pending series -/

namespace PendingSeries

theorem takeBlock_eq_none {p p' : PendingSeries} (h : p.takeBlock = (none, p')) :
    p.buffered = [] ∧ p' = p := by
  rw [takeBlock] at h
  split at h
  · next hempty => exact ⟨isEmpty_iff.mp hempty, (Prod.mk.inj h).2.symm⟩
  · exact nomatch (Prod.mk.inj h).1

theorem takeBlock_eq_some {p p' : PendingSeries} {block : Block}
    (h : p.takeBlock = (some block, p')) :
    p.buffered = block ∧ p'.buffered = [] := by
  rw [takeBlock] at h
  split at h
  · exact nomatch (Prod.mk.inj h).1
  · obtain ⟨hblock, rfl⟩ := Prod.mk.inj h
    exact ⟨Option.some.inj hblock, rfl⟩

/-- A series is in the buffer, or it is the last one of a block. -/
theorem addOne_flatten (p : PendingSeries) (blocks : List Block) (series : OwnedSeries) :
    (p.addOne blocks series).2.flatten ++ (p.addOne blocks series).1.buffered =
      blocks.flatten ++ p.buffered ++ [series] := by
  rw [addOne]
  dsimp only
  split
  · split
    · next block p' htake =>
      obtain ⟨hblock, hempty⟩ := takeBlock_eq_some htake
      dsimp only at hblock ⊢
      rw [flatten_append, hempty, ← hblock]
      simp
    · next p' htake =>
      obtain ⟨hempty, -⟩ := takeBlock_eq_none htake
      exact absurd hempty (by simp)
  · simp

/-- The blocks that are full and the buffer hold the buffered series and the new ones, in order. -/
theorem add_flatten (p : PendingSeries) (s : List OwnedSeries) :
    (p.add s).2.flatten ++ (p.add s).1.buffered = p.buffered ++ s := by
  have hfold : ∀ (s : List OwnedSeries) (p : PendingSeries) (blocks : List Block),
      (s.foldl (fun acc series => acc.1.addOne acc.2 series) (p, blocks)).2.flatten ++
        (s.foldl (fun acc series => acc.1.addOne acc.2 series) (p, blocks)).1.buffered =
      blocks.flatten ++ p.buffered ++ s := by
    intro s
    induction s with
    | nil =>
      intro p blocks
      simp
    | cons series s ih =>
      intro p blocks
      have hone := addOne_flatten p blocks series
      rw [foldl_cons, ih, hone, append_assoc, singleton_append]
  have h := hfold s p []
  rw [flatten_nil, nil_append] at h
  exact h

end PendingSeries

/-! ### The queue -/

section Loop

variable {β : Type} (len : β → ℕ) (maxBytes extra : ℕ)

/-- A block is dropped only over the limit. -/
theorem lt_held_evictLoop {blocks : List (QueuedBlock β)} {current : ℕ} {d : QueuedBlock β × ℕ}
    (hd : d ∈ (Inner.evictLoop len maxBytes extra blocks current).2) : maxBytes < d.2 := by
  induction blocks generalizing current with
  | nil => cases hd
  | cons b blocks ih =>
    rw [Inner.evictLoop] at hd
    split at hd
    · next hover =>
      rcases mem_cons.mp hd with rfl | hd
      · exact hover
      · exact ih hd
    · cases hd

end Loop

namespace DiskQueue

/-- The files are those of the blocks in memory, and their indices are in order. -/
structure Consistent (q : DiskQueue) : Prop where
  sorted : q.inner.blocks.Pairwise fun a b => a.index < b.index
  file_iff : ∀ i b, q.files i = some b ↔ ⟨i, b⟩ ∈ q.inner.blocks
  index_lt : ∀ b ∈ q.inner.blocks, b.index < q.inner.nextIndex

/-- The blocks in the queue. -/
def blocks (q : DiskQueue) : List Block := q.inner.blocks.map QueuedBlock.data

variable {cfg : RwCtxConfig} {q : DiskQueue}

theorem Consistent.file_front {files : ℕ → Option Block} {d : QueuedBlock Block}
    {rest : List (QueuedBlock Block)}
    (hsorted : (d :: rest).Pairwise fun a b => a.index < b.index)
    (hfile : ∀ i b, files i = some b ↔ ⟨i, b⟩ ∈ d :: rest) (i : ℕ) (b : Block) :
    Function.update files d.index none i = some b ↔ ⟨i, b⟩ ∈ rest := by
  by_cases hi : i = d.index
  · subst hi
    rw [Function.update_self]
    refine ⟨(nomatch ·), fun hmem => ?_⟩
    exact absurd (rel_of_pairwise_cons hsorted hmem) (lt_irrefl _)
  · rw [Function.update_of_ne hi, hfile, mem_cons]
    refine ⟨fun h => h.resolve_left fun heq => ?_, .inr⟩
    exact hi (congrArg QueuedBlock.index heq)

theorem file_removeFiles {dropped : List (QueuedBlock Block × ℕ)} {files : ℕ → Option Block}
    {rest : List (QueuedBlock Block)}
    (hsorted : (dropped.map Prod.fst ++ rest).Pairwise fun a b => a.index < b.index)
    (hfile : ∀ i b, files i = some b ↔ ⟨i, b⟩ ∈ dropped.map Prod.fst ++ rest) :
    ∀ i b, removeFiles files dropped i = some b ↔ ⟨i, b⟩ ∈ rest := by
  induction dropped generalizing files with
  | nil => exact hfile
  | cons d dropped ih =>
    exact ih hsorted.of_cons (Consistent.file_front hsorted hfile)

/-- What `push` makes of the queue. -/
theorem exists_push (cfg : RwCtxConfig) (q : DiskQueue) (block : Block) :
    ∃ (dropped : List (QueuedBlock Block × ℕ)) (kept : List (QueuedBlock Block)),
      q.inner.blocks = dropped.map Prod.fst ++ kept ∧
      (q.push cfg block).1.inner.blocks = kept ++ [⟨q.inner.nextIndex, block⟩] ∧
      (q.push cfg block).1.inner.nextIndex = q.inner.nextIndex + 1 ∧
      (q.push cfg block).1.files =
        removeFiles (Function.update q.files q.inner.nextIndex (some block)) dropped ∧
      (q.push cfg block).2 = dropped.map fun d => ⟨d.1.data, d.2⟩ :=
  ⟨_, _, (evictLoop_append cfg.blockLen cfg.maxBytes (cfg.blockLen block) _
    q.inner.currentBytes).symm, rfl, rfl, rfl, rfl⟩

theorem Consistent.push (hq : q.Consistent) (block : Block) : (q.push cfg block).1.Consistent := by
  obtain ⟨dropped, kept, hblocks, hnew, hnext, hfiles, -⟩ := exists_push cfg q block
  obtain ⟨new, hb⟩ : ∃ b : QueuedBlock Block, b = ⟨q.inner.nextIndex, block⟩ := ⟨_, rfl⟩
  rw [← hb] at hnew
  have hsorted : (dropped.map Prod.fst ++ (kept ++ [new])).Pairwise fun a b =>
      a.index < b.index := by
    rw [← append_assoc, ← hblocks]
    refine pairwise_append.mpr ⟨hq.sorted, pairwise_singleton _ _, fun a ha b hb' => ?_⟩
    rw [mem_singleton.mp hb', hb]
    exact hq.index_lt a ha
  have hfile : ∀ i b, Function.update q.files q.inner.nextIndex (some block) i = some b ↔
      ⟨i, b⟩ ∈ dropped.map Prod.fst ++ (kept ++ [new]) := by
    intro i b
    rw [← append_assoc, ← hblocks, mem_append, mem_singleton, hb,
      QueuedBlock.mk.injEq, ← hq.file_iff]
    by_cases hi : i = q.inner.nextIndex
    · subst hi
      have hnone : q.files q.inner.nextIndex ≠ some b := fun h =>
        absurd (hq.index_lt _ ((hq.file_iff _ b).mp h)) (lt_irrefl _)
      simp [hnone, eq_comm]
    · simp [hi]
  refine ⟨?_, ?_, ?_⟩
  · rw [hnew]
    exact (pairwise_append.mp hsorted).2.1
  · rw [hnew, hfiles]
    exact file_removeFiles hsorted hfile
  · rw [hnew, hnext]
    intro b hmem
    rcases mem_append.mp hmem with hmem | hmem
    · have hlt := hq.index_lt b (hblocks ▸ mem_append_right _ hmem)
      omega
    · rw [mem_singleton.mp hmem, hb]
      exact Nat.lt_succ_self _

theorem Consistent.pop {block : Block} {q' : DiskQueue} (hq : q.Consistent)
    (h : q.pop cfg = some (block, q')) : q'.Consistent ∧ q.blocks = block :: q'.blocks := by
  obtain ⟨⟨b, inner⟩, hpop, heq⟩ := Option.map_eq_some_iff.mp h
  obtain ⟨rfl, rfl⟩ := Prod.mk.inj heq
  rw [Inner.popFront] at hpop
  split at hpop
  · cases hpop
  · next c rest hblocks =>
    obtain ⟨rfl, rfl⟩ := Prod.mk.inj (Option.some.inj hpop)
    have hsorted := hq.sorted
    have hfile := hq.file_iff
    have hindex := hq.index_lt
    rw [hblocks] at hsorted hfile hindex
    refine ⟨⟨hsorted.of_cons, file_front hsorted hfile,
      fun b hb => hindex b (mem_cons_of_mem _ hb)⟩, ?_⟩
    rw [blocks, hblocks]
    rfl

/-- A pushed block is in the queue or evicted, as are those that were there. -/
theorem count_push (cfg : RwCtxConfig) (q : DiskQueue) (block b : Block) :
    (q.push cfg block).1.blocks.count b + ((q.push cfg block).2.map EvictedBlock.block).count b =
      q.blocks.count b + [block].count b := by
  obtain ⟨dropped, kept, hblocks, hnew, -, -, hevicted⟩ := exists_push cfg q block
  rw [blocks, blocks, hnew, hblocks, hevicted, map_append, map_append, map_map,
    map_map, count_append, count_append]
  simp only [Function.comp_def, map_cons, map_nil]
  omega

theorem lt_held_push {block : Block} {e : EvictedBlock} (he : e ∈ (q.push cfg block).2) :
    cfg.maxBytes < e.held := by
  obtain ⟨d, hd, rfl⟩ := mem_map.mp he
  exact lt_held_evictLoop cfg.blockLen cfg.maxBytes _ hd

end DiskQueue

/-! ### Where series and blocks are -/

/-- The series that wait for the lock. -/
def PushCall.series : PushCall → List OwnedSeries
  | .waiting survivors => survivors
  | .enqueue _ => []

def PushCall.blocks : PushCall → List Block
  | .waiting _ => []
  | .enqueue blocks => blocks

def Flusher.blocks : Flusher → List Block
  | .holding block => [block]
  | _ => []

def Worker.blocks : Worker → List Block
  | .sending block => [block]
  | .backoff block => [block]
  | _ => []

def StopPhase.blocks : StopPhase → List Block
  | .finalPush block => [block]
  | _ => []

/-- All places of a block. -/
def Pipeline.held (s : Pipeline) : List Block :=
  s.calls.flatMap PushCall.blocks ++ s.flusher.blocks ++ s.stop.blocks ++ s.queue.blocks ++
    s.workers.flatMap Worker.blocks ++ s.history.delivered ++ s.history.dropped ++
    s.history.evicted.map EvictedBlock.block

/-- Everything that came in is at one place, apart from the blocks `extra` that are being moved. -/
structure Conserved (cfg : RwCtxConfig) (initial extra : List Block) (s : Pipeline) : Prop where
  series : ∀ x, s.history.survived.count x = s.history.created.flatten.count x +
    s.pending.buffered.count x + (s.calls.flatMap PushCall.series).count x
  blocks : ∀ b, initial.count b + s.history.created.count b = s.held.count b + extra.count b
  evicted : ∀ e ∈ s.history.evicted, cfg.maxBytes < e.held
  queue : s.queue.Consistent

namespace Conserved

variable {cfg : RwCtxConfig} {initial : List Block} {s s' : Pipeline}

theorem start {queue : DiskQueue} (hq : queue.Consistent) (workers : ℕ) :
    Conserved cfg queue.blocks [] (.start cfg workers queue) := by
  have hworkers : ∀ n, (List.replicate n Worker.ready).flatMap Worker.blocks = [] := by
    intro n
    induction n with
    | zero => rfl
    | succ n ih => rw [replicate_succ, flatMap_cons, ih]; rfl
  refine ⟨fun x => rfl, fun b => ?_, fun e he => absurd he not_mem_nil, hq⟩
  simp [Pipeline.held, Pipeline.start, hworkers, Flusher.blocks, StopPhase.blocks]

/-- A block that is being moved is pushed to the queue. -/
theorem enqueue {block : Block} (h : Conserved cfg initial [block] s) :
    Conserved cfg initial [] (s.enqueue cfg block) := by
  refine ⟨h.series, fun b => ?_, fun e he => ?_, h.queue.push block⟩
  · have hold := h.blocks b
    have hpush := DiskQueue.count_push cfg s.queue block b
    change initial.count b + s.history.created.count b = (Pipeline.held { s with
      queue := (s.queue.push cfg block).1
      history := { s.history with
        evicted := s.history.evicted ++ (s.queue.push cfg block).2 } }).count b + _
    simp only [Pipeline.held, count_append, map_append, count_nil] at hold ⊢
    omega
  · rcases mem_append.mp he with he | he
    · exact h.evicted e he
    · exact DiskQueue.lt_held_push he

theorem stepPush {k : ℕ} (h : Conserved cfg initial [] s) (hstep : s.stepPush cfg k = some s') :
    Conserved cfg initial [] s' := by
  rw [Pipeline.stepPush] at hstep
  split at hstep
  · next survivors hcall =>
    split at hstep
    · next hempty =>
      obtain rfl := Option.some.inj hstep
      have hnil := isEmpty_iff.mp hempty
      subst hnil
      refine ⟨fun x => ?_, fun b => ?_, h.evicted, h.queue⟩
      · have hold := h.series x
        have hset := count_flatMap_set x PushCall.series (.enqueue []) hcall
        simp only [PushCall.series, count_nil] at hset
        dsimp only
        omega
      · have hold := h.blocks b
        have hset := count_flatMap_set b PushCall.blocks (.enqueue []) hcall
        simp only [PushCall.blocks, count_nil] at hset
        simp only [Pipeline.held, count_append] at hold ⊢
        omega
    · split at hstep
      next pending blocks hadd =>
      obtain rfl := Option.some.inj hstep
      have hflatten := PendingSeries.add_flatten s.pending survivors
      rw [hadd] at hflatten
      refine ⟨fun x => ?_, fun b => ?_, h.evicted, h.queue⟩
      · have hold := h.series x
        have hset := count_flatMap_set x PushCall.series (.enqueue blocks) hcall
        have hcount := congrArg (List.count x) hflatten
        simp only [PushCall.series, count_nil, count_append] at hset hcount
        simp only [flatten_append, count_append]
        omega
      · have hold := h.blocks b
        have hset := count_flatMap_set b PushCall.blocks (.enqueue blocks) hcall
        simp only [PushCall.blocks, count_nil] at hset
        simp only [Pipeline.held, count_append] at hold ⊢
        omega
  · next block blocks hcall =>
    obtain rfl := Option.some.inj hstep
    refine enqueue ⟨fun x => ?_, fun b => ?_, h.evicted, h.queue⟩
    · have hold := h.series x
      have hset := count_flatMap_set x PushCall.series (.enqueue blocks) hcall
      simp only [PushCall.series, count_nil] at hset
      dsimp only
      omega
    · have hold := h.blocks b
      have hset := count_flatMap_set b PushCall.blocks (.enqueue blocks) hcall
      simp only [PushCall.blocks] at hset
      rw [← singleton_append, count_append] at hset
      simp only [Pipeline.held, count_append, count_nil] at hold ⊢
      omega
  · exact nomatch hstep

/-- The buffer is made into a block. -/
theorem created {pending : PendingSeries} {block : Block}
    (h : Conserved cfg initial [] s) (hflush : s.pending.flush = (some block, pending)) :
    Conserved cfg initial [block] { s with
      pending := pending
      history := { s.history with created := s.history.created ++ [block] } } := by
  obtain ⟨hblock, hempty⟩ := PendingSeries.takeBlock_eq_some hflush
  refine ⟨fun x => ?_, fun b => ?_, h.evicted, h.queue⟩
  · have hold := h.series x
    rw [hblock] at hold
    simp only [hempty, flatten_append, flatten_cons, flatten_nil, append_nil,
      count_append, count_nil]
    omega
  · have hold := h.blocks b
    simp only [Pipeline.held, count_append, count_nil] at hold ⊢
    omega

theorem stepFlush (h : Conserved cfg initial [] s) (hstep : s.stepFlush cfg = some s') :
    Conserved cfg initial [] s' := by
  rw [Pipeline.stepFlush] at hstep
  split at hstep
  · next hflusher =>
    obtain rfl := Option.some.inj hstep
    refine ⟨h.series, fun b => ?_, h.evicted, h.queue⟩
    have hold := h.blocks b
    simp only [Pipeline.held, hflusher] at hold ⊢
    split <;> exact hold
  · next hflusher =>
    split at hstep
    · next block pending hflush =>
      obtain rfl := Option.some.inj hstep
      have hcreated := h.created hflush
      refine ⟨hcreated.series, fun b => ?_, h.evicted, h.queue⟩
      have hold := hcreated.blocks b
      simp only [Pipeline.held, hflusher, Flusher.blocks, count_append, count_nil] at hold ⊢
      omega
    · next pending hflush =>
      obtain rfl := Option.some.inj hstep
      obtain ⟨-, rfl⟩ := PendingSeries.takeBlock_eq_none hflush
      refine ⟨h.series, fun b => ?_, h.evicted, h.queue⟩
      have hold := h.blocks b
      simp only [Pipeline.held, hflusher] at hold
      exact hold
  · next block hflusher =>
    obtain rfl := Option.some.inj hstep
    refine enqueue ⟨h.series, fun b => ?_, h.evicted, h.queue⟩
    have hold := h.blocks b
    simp only [Pipeline.held, hflusher, Flusher.blocks, count_append, count_nil] at hold ⊢
    omega
  · exact nomatch hstep

/-- A worker goes on to another state, and the blocks `extra` leave it. -/
theorem setWorker {k : ℕ} {w w' : Worker} {extra : List Block} (h : Conserved cfg initial [] s)
    (hw : s.workers[k]? = some w) (hblocks : ∀ b, w.blocks.count b =
      w'.blocks.count b + extra.count b) :
    Conserved cfg initial extra { s with workers := s.workers.set k w' } := by
  refine ⟨h.series, fun b => ?_, h.evicted, h.queue⟩
  have hold := h.blocks b
  have hset := count_flatMap_set b Worker.blocks w' hw
  have hw' := hblocks b
  simp only [Pipeline.held, count_append, count_nil] at hold ⊢
  omega

theorem stepWork {k : ℕ} (h : Conserved cfg initial [] s) (hstep : s.stepWork cfg k = some s') :
    Conserved cfg initial [] s' := by
  rw [Pipeline.stepWork] at hstep
  split at hstep
  · next hw =>
    obtain rfl := Option.some.inj hstep
    refine h.setWorker hw fun b => ?_
    split <;> rfl
  · next hw =>
    split at hstep
    · next block queue hpop =>
      obtain rfl := Option.some.inj hstep
      obtain ⟨hconsistent, hqueue⟩ := h.queue.pop hpop
      refine ⟨h.series, fun b => ?_, h.evicted, hconsistent⟩
      have hold := h.blocks b
      have hset := count_flatMap_set b Worker.blocks (.sending block) hw
      have hcount := congrArg (List.count b) hqueue
      rw [← singleton_append, count_append] at hcount
      simp only [Worker.blocks, count_nil] at hset
      simp only [Pipeline.held, count_append, count_nil] at hold ⊢
      omega
    · obtain rfl := Option.some.inj hstep
      exact h.setWorker hw fun b => rfl
  · next block hw =>
    split at hstep
    · obtain rfl := Option.some.inj hstep
      exact enqueue (h.setWorker hw fun b => by simp [Worker.blocks])
    · obtain rfl := Option.some.inj hstep
      exact h.setWorker hw fun b => rfl
  · exact nomatch hstep

theorem stepAnswer {k : ℕ} {outcome : SendOutcome} (h : Conserved cfg initial [] s)
    (hstep : s.stepAnswer k outcome = some s') : Conserved cfg initial [] s' := by
  rw [Pipeline.stepAnswer] at hstep
  split at hstep
  · next block hw =>
    have hleave : Conserved cfg initial [block] { s with workers := s.workers.set k .ready } :=
      h.setWorker hw fun b => by simp [Worker.blocks]
    cases outcome with
    | success =>
      obtain rfl := Option.some.inj hstep
      refine ⟨h.series, fun b => ?_, h.evicted, h.queue⟩
      have hold := hleave.blocks b
      simp only [Pipeline.held, count_append, count_nil] at hold ⊢
      omega
    | drop =>
      obtain rfl := Option.some.inj hstep
      refine ⟨h.series, fun b => ?_, h.evicted, h.queue⟩
      have hold := hleave.blocks b
      simp only [Pipeline.held, count_append, count_nil] at hold ⊢
      omega
    | retryable =>
      obtain rfl := Option.some.inj hstep
      exact h.setWorker hw fun b => rfl
  · exact nomatch hstep

theorem stepStop (h : Conserved cfg initial [] s) (hstep : s.stepStop cfg = some s') :
    Conserved cfg initial [] s' := by
  have hsame : ∀ (phase : StopPhase) (flushStop clientStop : Bool), s.stop.blocks = [] →
      phase.blocks = [] →
      Conserved cfg initial [] { s with
        stop := phase, flushStop := flushStop, clientStop := clientStop } := by
    intro phase flushStop clientStop hold hnew
    refine ⟨h.series, fun b => ?_, h.evicted, h.queue⟩
    have hblocks := h.blocks b
    simp only [Pipeline.held, hold] at hblocks
    simp only [Pipeline.held, hnew]
    exact hblocks
  rw [Pipeline.stepStop] at hstep
  split at hstep
  · next hstop =>
    split at hstep
    · obtain rfl := Option.some.inj hstep
      exact hsame .joinFlusher true s.clientStop (by rw [hstop]; rfl) rfl
    · cases hstep
  · next hstop =>
    split at hstep
    · obtain rfl := Option.some.inj hstep
      exact hsame .finalFlush s.flushStop s.clientStop (by rw [hstop]; rfl) rfl
    · cases hstep
  · next hstop =>
    split at hstep
    · next block pending hflush =>
      obtain rfl := Option.some.inj hstep
      have hcreated := h.created hflush
      refine ⟨hcreated.series, fun b => ?_, h.evicted, h.queue⟩
      have hold := hcreated.blocks b
      simp only [Pipeline.held, hstop, StopPhase.blocks, count_append, count_nil] at hold ⊢
      omega
    · next pending hflush =>
      obtain rfl := Option.some.inj hstep
      obtain ⟨-, rfl⟩ := PendingSeries.takeBlock_eq_none hflush
      exact hsame .stopClient s.flushStop s.clientStop (by rw [hstop]; rfl) rfl
  · next block hstop =>
    obtain rfl := Option.some.inj hstep
    refine enqueue ⟨h.series, fun b => ?_, h.evicted, h.queue⟩
    have hold := h.blocks b
    simp only [Pipeline.held, hstop, StopPhase.blocks, count_append, count_nil] at hold ⊢
    omega
  · next hstop =>
    obtain rfl := Option.some.inj hstep
    exact hsame .joinWorkers s.flushStop true (by rw [hstop]; rfl) rfl
  · next hstop =>
    split at hstep
    · obtain rfl := Option.some.inj hstep
      exact hsame .returned s.flushStop s.clientStop (by rw [hstop]; rfl) rfl
    · cases hstep
  · cases hstep

/-- Every step conserves series and blocks. -/
theorem step {a : PipelineAction} (h : Conserved cfg initial [] s)
    (hstep : s.step cfg a = some s') :
    Conserved cfg initial [] s' := by
  cases a with
  | push series =>
    rw [Pipeline.step] at hstep
    split at hstep
    · obtain rfl := Option.some.inj hstep
      refine ⟨fun x => ?_, fun b => ?_, h.evicted, h.queue⟩
      · have hold := h.series x
        simp only [count_flatMap_append, count_append]
        simp only [PushCall.series, flatMap_cons, flatMap_nil, append_nil]
        omega
      · have hold := h.blocks b
        simp only [Pipeline.held, count_append, count_nil] at hold
        simp only [Pipeline.held, count_append, count_flatMap_append]
        simp only [PushCall.blocks, flatMap_cons, flatMap_nil, append_nil,
          count_nil]
        omega
    · exact nomatch hstep
  | pushStep k => exact h.stepPush hstep
  | flush => exact h.stepFlush hstep
  | work k => exact h.stepWork hstep
  | answer k outcome => exact h.stepAnswer hstep
  | stop => exact h.stepStop hstep

end Conserved

/-! ### Stopping -/

/-- The place of a phase in the order of `stop`. -/
def StopPhase.rank : StopPhase → ℕ
  | .notCalled => 0
  | .joinFlusher => 1
  | .finalFlush => 2
  | .finalPush _ => 3
  | .stopClient => 4
  | .joinWorkers => 5
  | .returned => 6

/-- What the phases of `stop` have brought about. -/
structure Stopped (s : Pipeline) : Prop where
  calls : 1 ≤ s.stop.rank → ∀ c ∈ s.calls, c = .enqueue []
  flusher : 2 ≤ s.stop.rank → s.flusher = .exited
  pending : 3 ≤ s.stop.rank → s.pending.buffered = []
  workers : 6 ≤ s.stop.rank → ∀ w ∈ s.workers, w = .exited

namespace Stopped

variable {cfg : RwCtxConfig} {s s' : Pipeline}

theorem enqueue (h : Stopped s) (block : Block) : Stopped (s.enqueue cfg block) :=
  ⟨h.calls, h.flusher, h.pending, h.workers⟩

theorem stepPush {k : ℕ} (h : Stopped s) (hstep : s.stepPush cfg k = some s') : Stopped s' := by
  -- a call that can take a step is not finished, so that `stop` was not called
  have hrank : ∀ c, s.calls[k]? = some c → c ≠ .enqueue [] → s.stop.rank = 0 := by
    intro c hc hne
    by_contra hpos
    exact hne (h.calls (by omega) c (mem_of_getElem? hc))
  have hnew : ∀ t : Pipeline, t.stop.rank = 0 → Stopped t := fun t ht =>
    ⟨fun h1 => absurd h1 (by omega), fun h2 => absurd h2 (by omega), fun h3 => absurd h3 (by omega),
      fun h6 => absurd h6 (by omega)⟩
  rw [Pipeline.stepPush] at hstep
  split at hstep
  · next survivors hcall =>
    have hzero := hrank _ hcall (by simp)
    split at hstep
    · obtain rfl := Option.some.inj hstep
      exact hnew _ hzero
    · split at hstep
      obtain rfl := Option.some.inj hstep
      exact hnew _ hzero
  · next block blocks hcall =>
    have hzero := hrank _ hcall (by simp)
    obtain rfl := Option.some.inj hstep
    exact (hnew { s with calls := s.calls.set k (.enqueue blocks) } hzero).enqueue block
  · exact nomatch hstep

theorem stepFlush (h : Stopped s) (hstep : s.stepFlush cfg = some s') : Stopped s' := by
  have hrank : s.flusher ≠ .exited → s.stop.rank ≤ 1 := by
    intro hne
    by_contra hlt
    exact hne (h.flusher (by omega))
  have hnew : ∀ t : Pipeline, t.stop.rank ≤ 1 → t.stop = s.stop → t.calls = s.calls → Stopped t :=
    fun t ht hstop hcalls => ⟨fun h1 => by rw [hcalls]; exact h.calls (hstop ▸ h1),
      fun h2 => absurd h2 (by omega), fun h3 => absurd h3 (by omega),
      fun h6 => absurd h6 (by omega)⟩
  rw [Pipeline.stepFlush] at hstep
  split at hstep
  · next hflusher =>
    obtain rfl := Option.some.inj hstep
    exact hnew _ (hrank (by rw [hflusher]; simp)) rfl rfl
  · next hflusher =>
    have hle := hrank (by rw [hflusher]; simp)
    split at hstep
    · obtain rfl := Option.some.inj hstep
      exact hnew _ hle rfl rfl
    · obtain rfl := Option.some.inj hstep
      exact hnew _ hle rfl rfl
  · next block hflusher =>
    have hle := hrank (by rw [hflusher]; simp)
    obtain rfl := Option.some.inj hstep
    exact (hnew { s with flusher := .sleeping } hle rfl rfl).enqueue block
  · exact nomatch hstep

/-- A worker that takes a step has not exited. -/
theorem setWorker {k : ℕ} {w : Worker} (h : Stopped s) (hw : s.workers[k]? = some w)
    (hne : w ≠ .exited) (queue : DiskQueue) (history : PipelineHistory) (w' : Worker) :
    Stopped { s with queue := queue, history := history, workers := s.workers.set k w' } := by
  refine ⟨h.calls, h.flusher, h.pending, fun h6 => ?_⟩
  exact absurd (h.workers h6 w (mem_of_getElem? hw)) hne

theorem stepWork {k : ℕ} (h : Stopped s) (hstep : s.stepWork cfg k = some s') : Stopped s' := by
  rw [Pipeline.stepWork] at hstep
  split at hstep
  · next hw =>
    obtain rfl := Option.some.inj hstep
    exact h.setWorker hw (by simp) s.queue s.history _
  · next hw =>
    split at hstep
    · obtain rfl := Option.some.inj hstep
      exact h.setWorker hw (by simp) _ s.history _
    · obtain rfl := Option.some.inj hstep
      exact h.setWorker hw (by simp) s.queue s.history _
  · next block hw =>
    split at hstep
    · obtain rfl := Option.some.inj hstep
      exact (h.setWorker hw (by simp) s.queue s.history .ready).enqueue block
    · obtain rfl := Option.some.inj hstep
      exact h.setWorker hw (by simp) s.queue s.history _
  · exact nomatch hstep

theorem stepAnswer {k : ℕ} {outcome : SendOutcome} (h : Stopped s)
    (hstep : s.stepAnswer k outcome = some s') : Stopped s' := by
  rw [Pipeline.stepAnswer] at hstep
  split at hstep
  · next block hw =>
    cases outcome with
    | success =>
      obtain rfl := Option.some.inj hstep
      exact h.setWorker hw (by simp) s.queue _ _
    | drop =>
      obtain rfl := Option.some.inj hstep
      exact h.setWorker hw (by simp) s.queue _ _
    | retryable =>
      obtain rfl := Option.some.inj hstep
      exact h.setWorker hw (by simp) s.queue s.history _
  · exact nomatch hstep

theorem stepStop (h : Stopped s) (hstep : s.stepStop cfg = some s') : Stopped s' := by
  rw [Pipeline.stepStop] at hstep
  split at hstep
  · next hstop =>
    split at hstep
    · next hcalls =>
      obtain rfl := Option.some.inj hstep
      exact ⟨fun _ => hcalls, fun h2 => absurd h2 (by simp [StopPhase.rank]),
        fun h3 => absurd h3 (by simp [StopPhase.rank]),
        fun h6 => absurd h6 (by simp [StopPhase.rank])⟩
    · cases hstep
  · next hstop =>
    have hcalls := h.calls (by simp [hstop, StopPhase.rank])
    split at hstep
    · next hflusher =>
      obtain rfl := Option.some.inj hstep
      exact ⟨fun _ => hcalls, fun _ => hflusher, fun h3 => absurd h3 (by simp [StopPhase.rank]),
        fun h6 => absurd h6 (by simp [StopPhase.rank])⟩
    · cases hstep
  · next hstop =>
    have hcalls := h.calls (by simp [hstop, StopPhase.rank])
    have hflusher := h.flusher (by simp [hstop, StopPhase.rank])
    split at hstep
    · next block pending hflush =>
      obtain rfl := Option.some.inj hstep
      have hempty := (PendingSeries.takeBlock_eq_some hflush).2
      exact ⟨fun _ => hcalls, fun _ => hflusher, fun _ => hempty,
        fun h6 => absurd h6 (by simp [StopPhase.rank])⟩
    · next pending hflush =>
      obtain rfl := Option.some.inj hstep
      obtain ⟨hempty, rfl⟩ := PendingSeries.takeBlock_eq_none hflush
      exact ⟨fun _ => hcalls, fun _ => hflusher, fun _ => hempty,
        fun h6 => absurd h6 (by simp [StopPhase.rank])⟩
  · next block hstop =>
    obtain rfl := Option.some.inj hstep
    have hlt : 3 ≤ s.stop.rank := by simp [hstop, StopPhase.rank]
    have hnext : Stopped { s with stop := .stopClient } :=
      ⟨fun _ => h.calls (by omega), fun _ => h.flusher (by omega), fun _ => h.pending hlt,
        fun h6 => absurd h6 (by simp [StopPhase.rank])⟩
    exact hnext.enqueue block
  · next hstop =>
    obtain rfl := Option.some.inj hstep
    have hlt : 3 ≤ s.stop.rank := by simp [hstop, StopPhase.rank]
    exact ⟨fun _ => h.calls (by omega), fun _ => h.flusher (by omega), fun _ => h.pending hlt,
      fun h6 => absurd h6 (by simp [StopPhase.rank])⟩
  · next hstop =>
    have hlt : 3 ≤ s.stop.rank := by simp [hstop, StopPhase.rank]
    split at hstep
    · next hworkers =>
      obtain rfl := Option.some.inj hstep
      exact ⟨fun _ => h.calls (by omega), fun _ => h.flusher (by omega), fun _ => h.pending hlt,
        fun _ => hworkers⟩
    · cases hstep
  · cases hstep

theorem step {a : PipelineAction} (h : Stopped s) (hstep : s.step cfg a = some s') :
    Stopped s' := by
  cases a with
  | push series =>
    rw [Pipeline.step] at hstep
    split at hstep
    · next hstop =>
      obtain rfl := Option.some.inj hstep
      have hzero : s.stop.rank = 0 := by rw [hstop]; rfl
      exact ⟨fun h1 => absurd h1 (by dsimp only; omega), fun h2 => absurd h2 (by dsimp only; omega),
        fun h3 => absurd h3 (by dsimp only; omega), fun h6 => absurd h6 (by dsimp only; omega)⟩
    · exact nomatch hstep
  | pushStep k => exact h.stepPush hstep
  | flush => exact h.stepFlush hstep
  | work k => exact h.stepWork hstep
  | answer k outcome => exact h.stepAnswer hstep
  | stop => exact h.stepStop hstep

end Stopped

theorem Stopped.start (cfg : RwCtxConfig) (workers : ℕ) (queue : DiskQueue) :
    Stopped (.start cfg workers queue) :=
  ⟨fun h1 => absurd h1 (by simp [Pipeline.start, StopPhase.rank]),
    fun h2 => absurd h2 (by simp [Pipeline.start, StopPhase.rank]),
    fun h3 => absurd h3 (by simp [Pipeline.start, StopPhase.rank]),
    fun h6 => absurd h6 (by simp [Pipeline.start, StopPhase.rank])⟩

/-! ### Every run -/

/-- Once `stop` has returned, the places on the way are empty. -/
theorem Pipeline.held_returned {s : Pipeline} (h : Stopped s) (hstop : s.stop = .returned) :
    s.held = s.queue.blocks ++ s.history.delivered ++ s.history.dropped ++
      s.history.evicted.map EvictedBlock.block := by
  have hrank : s.stop.rank = 6 := by rw [hstop]; rfl
  have hcalls : s.calls.flatMap PushCall.blocks = [] :=
    flatMap_eq_nil_iff.mpr fun c hc => by rw [h.calls (by omega) c hc]; rfl
  have hworkers : s.workers.flatMap Worker.blocks = [] :=
    flatMap_eq_nil_iff.mpr fun w hw => by rw [h.workers (by omega) w hw]; rfl
  rw [Pipeline.held, hcalls, hworkers, h.flusher (by omega), hstop]
  simp [Flusher.blocks, StopPhase.blocks]

/-- In every run, at any moment, each series that survived relabeling is in exactly one block that
was made, in the buffer, or in a call that waits for it; and each block that was made, or was in the
queue at the start, is at exactly one place. Blocks are evicted only over the limit. Once `stop` has
returned, every such series is in a block, every block was delivered, dropped or evicted or is in
the queue, and the files are those of the queue. -/
theorem pipeline_conserves (cfg : RwCtxConfig) (workers : ℕ) (queue : DiskQueue)
    (hq : queue.Consistent) (r : Run (Pipeline.step cfg) (.start cfg workers queue)) (n : ℕ)
    (hn : n ≤ r.length) :
    (r.state n).history.survived.Perm ((r.state n).history.created.flatten ++
      (r.state n).pending.buffered ++ (r.state n).calls.flatMap PushCall.series) ∧
    (queue.blocks ++ (r.state n).history.created).Perm (r.state n).held ∧
    (∀ e ∈ (r.state n).history.evicted, cfg.maxBytes < e.held) ∧
    ((r.state n).stop = .returned →
      (r.state n).history.survived.Perm (r.state n).history.created.flatten ∧
      (queue.blocks ++ (r.state n).history.created).Perm ((r.state n).queue.blocks ++
        (r.state n).history.delivered ++ (r.state n).history.dropped ++
        (r.state n).history.evicted.map EvictedBlock.block) ∧
      ∀ i b, (r.state n).queue.files i = some b ↔ ⟨i, b⟩ ∈ (r.state n).queue.inner.blocks) := by
  have hconserved : Conserved cfg queue.blocks [] (r.state n) :=
    r.invariant (Conserved.start hq workers) (fun s a s' h hstep => h.step hstep) n hn
  have hstopped : Stopped (r.state n) :=
    r.invariant (.start cfg workers queue) (fun s a s' h hstep => h.step hstep) n hn
  generalize r.state n = s at hconserved hstopped ⊢
  have hseries : s.history.survived.Perm (s.history.created.flatten ++ s.pending.buffered ++
      s.calls.flatMap PushCall.series) := by
    refine perm_iff_count.mpr fun x => ?_
    rw [count_append, count_append]
    exact hconserved.series x
  have hblocks : (queue.blocks ++ s.history.created).Perm s.held := by
    refine perm_iff_count.mpr fun b => ?_
    rw [count_append]
    exact hconserved.blocks b
  refine ⟨hseries, hblocks, hconserved.evicted, fun hstop => ⟨?_, ?_, hconserved.queue.file_iff⟩⟩
  · have hrank : s.stop.rank = 6 := by rw [hstop]; rfl
    have hcalls : s.calls.flatMap PushCall.series = [] :=
      flatMap_eq_nil_iff.mpr fun c hc => by rw [hstopped.calls (by omega) c hc]; rfl
    rw [hstopped.pending (by omega), hcalls, append_nil, append_nil] at hseries
    exact hseries
  · rw [Pipeline.held_returned hstopped hstop] at hblocks
    exact hblocks

/-- The series `up{job="api"}` with one sample. -/
def upSeries : OwnedSeries := ⟨[⟨ascii "__name__", ascii "up"⟩, ⟨ascii "job", ascii "api"⟩],
  [⟨1, 5⟩]⟩

/-- A block of one series is pushed back by a worker that is told to stop while it waits. -/
theorem pipeline_conserves_backoff :
    ∃ r : Run (Pipeline.step ⟨none, id, 0, 0⟩)
        (.start ⟨none, id, 0, 0⟩ 1 ⟨⟨[], 0, 0⟩, fun _ => none⟩),
      (r.state 14).stop = .returned ∧ (r.state 14).queue.blocks = [[upSeries]] ∧
      (r.state 14).history.survived.Perm (r.state 14).history.created.flatten ∧
      ([] ++ (r.state 14).history.created).Perm ((r.state 14).queue.blocks ++
        (r.state 14).history.delivered ++ (r.state 14).history.dropped ++
        (r.state 14).history.evicted.map EvictedBlock.block) ∧
      ∀ i b, (r.state 14).queue.files i = some b ↔ ⟨i, b⟩ ∈ (r.state 14).queue.inner.blocks := by
  let r : Run (Pipeline.step ⟨none, id, 0, 0⟩)
      (.start ⟨none, id, 0, 0⟩ 1 ⟨⟨[], 0, 0⟩, fun _ => none⟩) := Run.ofActions
    [.push [upSeries], .pushStep 0, .pushStep 0, .work 0, .work 0, .answer 0 .retryable, .stop,
      .flush, .stop, .stop, .stop, .work 0, .work 0, .stop] (by decide +kernel)
  have hq : DiskQueue.Consistent ⟨⟨[], 0, 0⟩, fun _ => none⟩ :=
    ⟨Pairwise.nil, fun i b => ⟨(nomatch ·), (nomatch ·)⟩,
      fun b hb => absurd hb not_mem_nil⟩
  obtain ⟨-, -, -, hreturned⟩ := pipeline_conserves _ _ _ hq r 14 (by decide +kernel)
  have hstop : (r.state 14).stop = .returned := by decide +kernel
  exact ⟨r, hstop, by decide +kernel, hreturned hstop⟩

end Esmetrics.Esmagent
