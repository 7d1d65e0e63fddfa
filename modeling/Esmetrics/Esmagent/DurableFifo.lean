import Esmetrics.Esmagent.Queue

/-!
# The queue is durable and first in, first out

What holds in every state of every run of the persistent queue, over any number of processes that
are closed or crash at any step.

The directory carries everything from one process to the next. `HistoryInv` relates its block files
to the history: they hold whole blocks in the order in which these were pushed, and every block for
which `push` returned is in one of them, was taken, or was evicted. `QueueInv` relates them to the
queue in memory: they are the queued blocks, and the block that the current operation adds or
removes (`PersistentQueue.onDisk`). `durable_fifo` is what follows between operations.
-/

namespace Esmetrics.Esmagent

open List
open Function (update update_of_ne update_self)

/-! ### The directory and the history -/

/-- What is in the file of a block. -/
def Dir.file (dir : Dir) (index : ℕ) : Option Bytes := dir.lookup (.block index)

section Files

variable (dir : Dir) (name data : Bytes) (index i : ℕ)

@[simp]
theorem file_insert_tmp : Dir.file (dir.insert (.tmp name) data) i = Dir.file dir i :=
  Finmap.lookup_insert_of_ne _ (by simp)

@[simp]
theorem file_erase_tmp : Dir.file (dir.erase (.tmp name)) i = Dir.file dir i :=
  Finmap.lookup_erase_ne (by simp)

theorem file_insert_block :
    Dir.file (dir.insert (.block index) data) i = if i = index then some data
      else Dir.file dir i := by
  split
  · next h =>
    rw [h]
    exact Finmap.lookup_insert _
  · next h => exact Finmap.lookup_insert_of_ne _ (by simpa using h)

theorem file_erase_block :
    Dir.file (dir.erase (.block index)) i = if i = index then none else Dir.file dir i := by
  split
  · next h =>
    rw [h]
    exact Finmap.lookup_erase _ _
  · next h => exact Finmap.lookup_erase_ne (by simpa using h)

end Files

/-- The order in which blocks are taken: a block is taken again only by a later process. -/
def Popped.Before (p q : Popped) : Prop := p.seq < q.seq ∨ p.seq = q.seq ∧ p.lifetime < q.lifetime

/-- The files of blocks and the history, while `popping` is the index that is being taken. -/
structure HistoryInv (files : ℕ → Option Bytes) (h : History) (popping : ℕ → Prop) : Prop where
  data_eq : ∀ i d, files i = some d → h.pushed[h.owner i]? = some d
  owner_lt : ∀ i j d e, files i = some d → files j = some e → i < j → h.owner i < h.owner j
  acked : ∀ seq ∈ h.acked, (∃ i d, files i = some d ∧ h.owner i = seq) ∨
    (∃ p ∈ h.popped, p.seq = seq) ∨ ∃ e ∈ h.evicted, e.seq = seq
  popped_sorted : h.popped.Pairwise Popped.Before
  popped_data : ∀ p ∈ h.popped, h.pushed[p.seq]? = some p.data
  popped_lifetime : ∀ p ∈ h.popped, p.lifetime ≤ h.lifetime
  popped_before : ∀ p ∈ h.popped, ∀ i d, files i = some d → p.seq < h.owner i ∨
    p.seq = h.owner i ∧ (p.lifetime < h.lifetime ∨ popping i)
  evicted_over : ∀ e ∈ h.evicted, e.limit < e.held ∧ ∀ r ∈ e.rest, e.seq < r

namespace HistoryInv

variable {files : ℕ → Option Bytes} {h : History} {popping : ℕ → Prop}

theorem owner_lt_length (hi : HistoryInv files h popping) {i : ℕ} {d : Bytes}
    (hfile : files i = some d) : h.owner i < h.pushed.length :=
  (List.getElem?_eq_some_iff.mp (hi.data_eq i d hfile)).1

theorem seq_lt_length (hi : HistoryInv files h popping) {p : Popped} (hp : p ∈ h.popped) :
    p.seq < h.pushed.length :=
  (List.getElem?_eq_some_iff.mp (hi.popped_data p hp)).1

/-- A process ends. -/
theorem stop (hi : HistoryInv files h popping) (popping' : ℕ → Prop) :
    HistoryInv files { h with lifetime := h.lifetime + 1 } popping' where
  __ := hi
  popped_lifetime p hp := (hi.popped_lifetime p hp).trans (Nat.le_succ _)
  popped_before p hp i d hfile :=
    (hi.popped_before p hp i d hfile).imp_right fun h =>
      ⟨h.1, .inl (Nat.lt_succ_of_le (hi.popped_lifetime p hp))⟩

/-- A block is given to `push`, for an index without a file. -/
theorem push (hi : HistoryInv files h popping) {index : ℕ} (hfile : files index = none)
    (block : Bytes) : HistoryInv files { h with
      pushed := h.pushed ++ [block]
      owner := update h.owner index h.pushed.length } popping := by
  have howner : ∀ i d, files i = some d →
      update h.owner index h.pushed.length i = h.owner i := by
    intro i d hi
    refine update_of_ne ?_ _ _
    rintro rfl
    rw [hfile] at hi
    exact nomatch hi
  have hpushed : ∀ (seq : ℕ) (d : Bytes), h.pushed[seq]? = some d →
      (h.pushed ++ [block])[seq]? = some d := by
    intro seq d hget
    rw [getElem?_append_left (List.getElem?_eq_some_iff.mp hget).1, hget]
  refine ⟨fun i d hd => ?_, fun i j d e hd he hij => ?_, fun seq hseq => ?_, hi.popped_sorted,
    fun p hp => hpushed _ _ (hi.popped_data p hp), hi.popped_lifetime, fun p hp i d hd => ?_,
    hi.evicted_over⟩
  · dsimp only
    rw [howner i d hd]
    exact hpushed _ _ (hi.data_eq i d hd)
  · dsimp only
    rw [howner i d hd, howner j e he]
    exact hi.owner_lt i j d e hd he hij
  · refine (hi.acked seq hseq).imp_left ?_
    rintro ⟨i, d, hd, rfl⟩
    exact ⟨i, d, hd, howner i d hd⟩
  · dsimp only
    rw [howner i d hd]
    exact hi.popped_before p hp i d hd

/-- The file of a new block is put in place. -/
theorem insert (hi : HistoryInv files h popping) {index : ℕ} {block : Bytes}
    (hbefore : ∀ i d, files i = some d → i < index ∧ h.owner i < h.owner index)
    (hpushed : h.pushed[h.owner index]? = some block)
    (hpopped : ∀ p ∈ h.popped, p.seq < h.owner index) :
    HistoryInv (fun i => if i = index then some block else files i) h popping := by
  refine ⟨fun i d hd => ?_, fun i j d e hd he hij => ?_, fun seq hseq => ?_, hi.popped_sorted,
    hi.popped_data, hi.popped_lifetime, fun p hp i d hd => ?_, hi.evicted_over⟩
  · split at hd
    · next heq =>
      rw [heq, hpushed, hd]
    · exact hi.data_eq i d hd
  · split at hd
    · next heq =>
      rw [if_neg (by omega)] at he
      have := (hbefore j e he).1
      omega
    · split at he
      · next heq =>
        rw [heq]
        exact (hbefore i d hd).2
      · exact hi.owner_lt i j d e hd he hij
  · refine (hi.acked seq hseq).imp_left ?_
    rintro ⟨i, d, hd, hseq⟩
    refine ⟨i, d, ?_, hseq⟩
    have := (hbefore i d hd).1
    rw [if_neg (by omega), hd]
  · split at hd
    · next heq =>
      rw [heq]
      exact .inl (hpopped p hp)
    · exact hi.popped_before p hp i d hd

/-- The file of a block is removed that was taken or evicted. -/
theorem erase (hi : HistoryInv files h popping) {index : ℕ}
    (hgone : (∃ p ∈ h.popped, p.seq = h.owner index) ∨ ∃ e ∈ h.evicted, e.seq = h.owner index)
    {popping' : ℕ → Prop} (himp : ∀ i, i ≠ index → popping i → popping' i) :
    HistoryInv (fun i => if i = index then none else files i) h popping' := by
  have hold : ∀ i d, (if i = index then none else files i) = some d →
      i ≠ index ∧ files i = some d := by
    intro i d hd
    split at hd
    · exact nomatch hd
    · next hne => exact ⟨hne, hd⟩
  refine ⟨fun i d hd => hi.data_eq i d (hold i d hd).2,
    fun i j d e hd he hij => hi.owner_lt i j d e (hold i d hd).2 (hold j e he).2 hij,
    fun seq hseq => ?_, hi.popped_sorted, hi.popped_data, hi.popped_lifetime,
    fun p hp i d hd => ?_, hi.evicted_over⟩
  · obtain ⟨i, d, hd, rfl⟩ | hseq := hi.acked seq hseq
    · by_cases heq : i = index
      · rw [heq]
        exact .inr hgone
      · exact .inl ⟨i, d, by rw [if_neg heq, hd], rfl⟩
    · exact .inr hseq
  · obtain ⟨hne, hd⟩ := hold i d hd
    exact (hi.popped_before p hp i d hd).imp_right fun h => ⟨h.1, h.2.imp_right (himp i hne)⟩

/-- A call of `push` returns. -/
theorem ack (hi : HistoryInv files h popping) {index : ℕ} {d : Bytes}
    (hfile : files index = some d) :
    HistoryInv files { h with acked := h.acked ++ [h.owner index] } popping where
  __ := hi
  acked seq hseq := by
    rcases mem_append.mp hseq with hseq | hseq
    · exact hi.acked seq hseq
    · exact .inl ⟨index, d, hfile, (mem_singleton.mp hseq).symm⟩

/-- The oldest block is taken. -/
theorem pop (hi : HistoryInv files h fun _ => False) {index : ℕ} {d : Bytes}
    (hfile : files index = some d) (hleast : ∀ i e, files i = some e → index ≤ i) :
    HistoryInv files
      { h with popped := h.popped ++ [⟨h.lifetime, h.owner index, d⟩] } (fun i => index = i) := by
  have hnew : ∀ p ∈ h.popped, Popped.Before p ⟨h.lifetime, h.owner index, d⟩ := by
    intro p hp
    obtain hlt | ⟨heq, hlife | hfalse⟩ := hi.popped_before p hp index d hfile
    · exact .inl hlt
    · exact .inr ⟨heq, hlife⟩
    · exact hfalse.elim
  refine ⟨hi.data_eq, hi.owner_lt, fun seq hseq => ?_, ?_, fun p hp => ?_, fun p hp => ?_,
    fun p hp i e he => ?_, hi.evicted_over⟩
  · refine (hi.acked seq hseq).imp_right (Or.imp_left ?_)
    rintro ⟨p, hp, hseq⟩
    exact ⟨p, mem_append_left _ hp, hseq⟩
  · rw [pairwise_append]
    refine ⟨hi.popped_sorted, pairwise_singleton _ _, fun p hp q hq => ?_⟩
    rw [mem_singleton.mp hq]
    exact hnew p hp
  · rcases mem_append.mp hp with hp | hp
    · exact hi.popped_data p hp
    · rw [mem_singleton.mp hp]
      exact hi.data_eq index d hfile
  · rcases mem_append.mp hp with hp | hp
    · exact hi.popped_lifetime p hp
    · rw [mem_singleton.mp hp]
  · rcases mem_append.mp hp with hp | hp
    · exact (hi.popped_before p hp i e he).imp_right fun h => ⟨h.1, h.2.imp_right False.elim⟩
    · rw [mem_singleton.mp hp]
      rcases Nat.lt_or_eq_of_le (hleast i e he) with hlt | rfl
      · exact .inl (hi.owner_lt index i d e hfile he hlt)
      · exact .inr ⟨rfl, .inr rfl⟩

/-- A block is evicted that is older than the others. -/
theorem evict (hi : HistoryInv files h popping) {dropped : QueuedBlock Bytes}
    {rest : List (QueuedBlock Bytes)} {held limit : ℕ} (hover : limit < held)
    (hfile : files dropped.index = some dropped.data)
    (hrest : ∀ b ∈ rest, dropped.index < b.index ∧ files b.index = some b.data) :
    HistoryInv files (h.evict dropped held limit rest) popping := by
  refine ⟨hi.data_eq, hi.owner_lt, fun seq hseq => ?_, hi.popped_sorted, hi.popped_data,
    hi.popped_lifetime, hi.popped_before, fun e he => ?_⟩
  · refine (hi.acked seq hseq).imp_right (Or.imp_right ?_)
    rintro ⟨e, he, hseq⟩
    exact ⟨e, mem_append_left _ he, hseq⟩
  · rcases mem_append.mp he with he | he
    · exact hi.evicted_over e he
    · rw [mem_singleton.mp he]
      refine ⟨hover, fun r hr => ?_⟩
      obtain ⟨b, hb, rfl⟩ := mem_map.mp hr
      obtain ⟨hlt, hb⟩ := hrest b hb
      exact hi.owner_lt _ _ _ _ hfile hb hlt

end HistoryInv

/-! ### The queue in memory -/

/-- The blocks whose files are in the directory: those in the queue, and those that an operation
adds or removes. -/
def PersistentQueue.onDisk (q : PersistentQueue) : List (QueuedBlock Bytes) :=
  match q.phase with
  | .evict new => q.inner.blocks ++ [new]
  | .drop new dropped => dropped :: (q.inner.blocks ++ [new])
  | .pop taken => taken :: q.inner.blocks
  | .openDrop dropped => dropped :: q.inner.blocks
  | _ => q.inner.blocks

/-- More than one block is queued only within the limit. -/
def PersistentQueue.WithinLimit (q : PersistentQueue) : Prop :=
  1 < q.inner.blocks.length → q.inner.currentBytes ≤ q.maxBytes

/-- The block that is being pushed is the last one, and its index is not in use. -/
structure Fresh (dir : Dir) (h : History) (index : ℕ) (block : Bytes) : Prop where
  pushed : h.pushed[h.owner index]? = some block
  file_before : ∀ i d, Dir.file dir i = some d → h.owner i < h.owner index
  popped_before : ∀ p ∈ h.popped, p.seq < h.owner index

def PhaseInv (dir : Dir) (h : History) (q : PersistentQueue) : Prop :=
  match q.phase with
  | .idle => q.WithinLimit
  | .tmp block => q.WithinLimit ∧ Fresh dir h q.inner.nextIndex block
  | .synced block => q.WithinLimit ∧ Fresh dir h q.inner.nextIndex block ∧
      dir.lookup (.tmp (tmpName q.inner.nextIndex)) = some block
  | .evict _ => True
  | .drop new dropped =>
    q.maxBytes < q.inner.currentBytes + dropped.data.length + new.data.length
  | .pop taken => q.WithinLimit ∧ ∃ p ∈ h.popped, p.seq = h.owner taken.index
  | .openEvict => True
  | .openDrop dropped => q.maxBytes < q.inner.currentBytes + dropped.data.length

structure QueueInv (dir : Dir) (h : History) (q : PersistentQueue) : Prop where
  sorted : q.onDisk.Pairwise fun a b => a.index < b.index
  file_iff : ∀ i d, Dir.file dir i = some d ↔ ⟨i, d⟩ ∈ q.onDisk
  index_lt : ∀ b ∈ q.onDisk, b.index < q.inner.nextIndex
  bytes : q.inner.currentBytes = Inner.totalBytes List.length q.inner.blocks
  phase : PhaseInv dir h q

/-- While the directory is read, its block files are those that were found and those to come. -/
structure SweepInv (dir : Dir) (todo : List FileName) (indexed : List ℕ) : Prop where
  file_iff : ∀ i, (Dir.file dir i).isSome ↔ i ∈ indexed ∨ .block i ∈ todo
  nodup : todo.Nodup
  nodup_indexed : indexed.Nodup
  disjoint : ∀ i ∈ indexed, .block i ∉ todo

namespace Process

/-- The block that is being taken. -/
def popping (p : Process) (i : ℕ) : Prop :=
  match p with
  | .on q =>
    match q.phase with
    | .pop taken => taken.index = i
    | _ => False
  | _ => False

def Inv (p : Process) (dir : Dir) (h : History) : Prop :=
  match p with
  | .off => True
  | .sweep _ todo indexed => SweepInv dir todo indexed
  | .on q => QueueInv dir h q

end Process

structure QueueState.Inv (s : QueueState) : Prop where
  history : HistoryInv (Dir.file s.dir) s.history s.process.popping
  process : s.process.Inv s.dir s.history

/-! ### Opening -/

theorem mem_loadBlocks {dir : Dir} {indexed : List ℕ} {b : QueuedBlock Bytes} :
    b ∈ loadBlocks dir indexed ↔ b.index ∈ indexed ∧ Dir.file dir b.index = some b.data := by
  rw [loadBlocks, mem_filterMap]
  constructor
  · rintro ⟨i, hi, hb⟩
    obtain ⟨d, hd, rfl⟩ := Option.map_eq_some_iff.mp hb
    exact ⟨mem_mergeSort.mp hi, hd⟩
  · rintro ⟨hi, hd⟩
    refine ⟨b.index, mem_mergeSort.mpr hi, ?_⟩
    rw [show dir.lookup (.block b.index) = some b.data from hd]
    rfl

theorem sorted_loadBlocks {dir : Dir} {indexed : List ℕ} (h : indexed.Nodup) :
    (loadBlocks dir indexed).Pairwise fun a b => a.index < b.index := by
  have hle : (indexed.mergeSort (· ≤ ·)).Pairwise (· ≤ ·) := by
    have hsorted := @pairwise_mergeSort ℕ (fun a b => decide (a ≤ b)) (by simp; omega)
      (by simp; omega) indexed
    simpa using hsorted
  have hne : (indexed.mergeSort (· ≤ ·)).Pairwise (· ≠ ·) := (mergeSort_perm _ _).nodup_iff.mpr h
  have hlt : (indexed.mergeSort (· ≤ ·)).Pairwise (· < ·) :=
    hle.imp₂ (fun _ _ hle hne => lt_of_le_of_ne hle hne) hne
  rw [loadBlocks, pairwise_filterMap]
  refine hlt.imp fun {i j} hij a ha b hb => ?_
  obtain ⟨d, -, rfl⟩ := Option.map_eq_some_iff.mp ha
  obtain ⟨e, -, rfl⟩ := Option.map_eq_some_iff.mp hb
  exact hij

theorem lt_nextIndex_loadInner {blocks : List (QueuedBlock Bytes)} {b : QueuedBlock Bytes}
    (hb : b ∈ blocks) : b.index < (loadInner blocks).nextIndex := by
  have hfold : ∀ (blocks : List (QueuedBlock Bytes)) (next : ℕ),
      next ≤ blocks.foldl (fun next b => max next (b.index + 1)) next ∧
      ∀ b ∈ blocks, b.index < blocks.foldl (fun next b => max next (b.index + 1)) next := by
    intro blocks
    induction blocks with
    | nil => exact fun next => ⟨le_rfl, by simp⟩
    | cons c blocks ih =>
      intro next
      obtain ⟨hle, hall⟩ := ih (max next (c.index + 1))
      rw [foldl_cons]
      refine ⟨(le_max_left _ _).trans hle, fun b hb => ?_⟩
      rcases mem_cons.mp hb with rfl | hb
      · exact lt_of_lt_of_le (lt_of_lt_of_le (Nat.lt_succ_self _) (le_max_right _ _)) hle
      · exact hall b hb
  exact (hfold blocks 0).2 b hb

/-! ### The steps of an open queue -/

section Steps

variable {dir : Dir} {h : History} {m : ℕ} {inner : Inner Bytes}

theorem QueueInv.file_nextIndex {q : PersistentQueue} (hq : QueueInv dir h q) :
    Dir.file dir q.inner.nextIndex = none := by
  cases hfile : Dir.file dir q.inner.nextIndex with
  | none => rfl
  | some d => exact absurd (hq.index_lt _ ((hq.file_iff _ d).mp hfile)) (lt_irrefl _)

theorem file_insert_tmp_eq (dir : Dir) (name data : Bytes) :
    Dir.file (dir.insert (.tmp name) data) = Dir.file dir := by
  funext i
  exact file_insert_tmp dir name data i

theorem inv_push (hi : QueueState.Inv ⟨dir, .on ⟨m, inner, .idle⟩, h⟩) (block : Bytes) :
    QueueState.Inv ⟨dir.insert (.tmp (tmpName inner.nextIndex)) [], .on ⟨m, inner, .tmp block⟩,
      { h with
        pushed := h.pushed ++ [block]
        owner := update h.owner inner.nextIndex h.pushed.length }⟩ := by
  obtain ⟨hh, hq⟩ := hi
  have hnone := QueueInv.file_nextIndex hq
  refine ⟨?_, hq.sorted, fun i d => ?_, hq.index_lt, hq.bytes, hq.phase, ?_⟩
  · rw [file_insert_tmp_eq]
    exact hh.push hnone block
  · rw [file_insert_tmp]
    exact hq.file_iff i d
  · refine ⟨?_, fun i d hd => ?_, fun p hp => ?_⟩
    · simp only [update_self]
      exact getElem?_concat_length
    · rw [file_insert_tmp] at hd
      simp only [update_self]
      rw [update_of_ne]
      · exact hh.owner_lt_length hd
      · rintro rfl
        rw [hnone] at hd
        exact nomatch hd
    · simp only [update_self]
      exact hh.seq_lt_length hp

variable {block : Bytes} {d new : QueuedBlock Bytes} {inner' : Inner Bytes}

theorem Fresh.insert_tmp {index : ℕ} (hf : Fresh dir h index block) (name data : Bytes) :
    Fresh (dir.insert (.tmp name) data) h index block where
  __ := hf
  file_before := by
    rw [file_insert_tmp_eq]
    exact hf.file_before

theorem inv_write (hi : QueueState.Inv ⟨dir, .on ⟨m, inner, .tmp block⟩, h⟩) (n : ℕ) :
    QueueState.Inv ⟨dir.insert (.tmp (tmpName inner.nextIndex)) (block.take n),
      .on ⟨m, inner, .tmp block⟩, h⟩ := by
  obtain ⟨hh, hq⟩ := hi
  refine ⟨?_, hq.sorted, fun i d => ?_, hq.index_lt, hq.bytes, hq.phase.1,
    hq.phase.2.insert_tmp _ _⟩
  · rw [file_insert_tmp_eq]
    exact hh
  · rw [file_insert_tmp]
    exact hq.file_iff i d

theorem inv_sync (hi : QueueState.Inv ⟨dir, .on ⟨m, inner, .tmp block⟩, h⟩) :
    QueueState.Inv ⟨dir.insert (.tmp (tmpName inner.nextIndex)) block,
      .on ⟨m, inner, .synced block⟩, h⟩ := by
  obtain ⟨hh, hq⟩ := hi
  refine ⟨?_, hq.sorted, fun i d => ?_, hq.index_lt, hq.bytes, hq.phase.1,
    hq.phase.2.insert_tmp _ _, Finmap.lookup_insert _⟩
  · rw [file_insert_tmp_eq]
    exact hh
  · rw [file_insert_tmp]
    exact hq.file_iff i d

theorem inv_rename (hi : QueueState.Inv ⟨dir, .on ⟨m, inner, .synced block⟩, h⟩) :
    dir.lookup (.tmp (tmpName inner.nextIndex)) = some block ∧
    QueueState.Inv ⟨(dir.erase (.tmp (tmpName inner.nextIndex))).insert
      (.block inner.nextIndex) block,
      .on ⟨m, { inner with nextIndex := inner.nextIndex + 1 }, .evict ⟨inner.nextIndex, block⟩⟩,
      h⟩ := by
  obtain ⟨hh, hq⟩ := hi
  obtain ⟨-, hfresh, hlookup⟩ := hq.phase
  have hfiles : Dir.file ((dir.erase (.tmp (tmpName inner.nextIndex))).insert
      (.block inner.nextIndex) block) =
      fun i => if i = inner.nextIndex then some block else Dir.file dir i := by
    funext i
    rw [file_insert_block, file_erase_tmp]
  have hlt : ∀ b ∈ inner.blocks, b.index < inner.nextIndex := hq.index_lt
  refine ⟨hlookup, ?_, ?_, fun i d => ?_, fun b hb => ?_, hq.bytes, trivial⟩
  · rw [hfiles]
    refine hh.insert (fun i d hd => ⟨?_, hfresh.file_before i d hd⟩) hfresh.pushed
      hfresh.popped_before
    exact hlt _ ((hq.file_iff i d).mp hd)
  · refine pairwise_append.mpr ⟨hq.sorted, pairwise_singleton _ _, fun a ha b hb => ?_⟩
    rw [mem_singleton.mp hb]
    exact hlt a ha
  · change _ ↔ _ ∈ inner.blocks ++ [_]
    rw [hfiles, mem_append, mem_singleton]
    have hold : Dir.file dir i = some d ↔ ⟨i, d⟩ ∈ inner.blocks := hq.file_iff i d
    dsimp only
    split
    · next heq =>
      subst heq
      constructor
      · rintro ⟨rfl⟩
        exact .inr rfl
      · rintro (hmem | heq)
        · exact absurd (hlt _ hmem) (lt_irrefl _)
        · rw [(QueuedBlock.mk.inj heq).2]
    · next hne =>
      rw [hold]
      refine ⟨.inl, fun h => h.resolve_right fun heq => hne (QueuedBlock.mk.inj heq).1⟩
  · rcases mem_append.mp hb with hb | hb
    · exact Nat.lt_succ_of_lt (hlt b hb)
    · rw [mem_singleton.mp hb]
      exact Nat.lt_succ_self _

theorem popFront_eq_some (hpop : inner.popFront List.length = some (d, inner'))
    (hbytes : inner.currentBytes = Inner.totalBytes List.length inner.blocks) :
    inner.blocks = d :: inner'.blocks ∧ inner'.nextIndex = inner.nextIndex ∧
      inner'.currentBytes = Inner.totalBytes List.length inner'.blocks ∧
      inner.currentBytes = inner'.currentBytes + d.data.length := by
  rw [Inner.popFront] at hpop
  split at hpop
  · cases hpop
  · next b blocks hblocks =>
    obtain ⟨rfl, rfl⟩ := Prod.mk.inj (Option.some.inj hpop)
    have htotal : inner.currentBytes = b.data.length + Inner.totalBytes List.length blocks := by
      rw [hbytes, hblocks]
      rfl
    refine ⟨hblocks, rfl, ?_, ?_⟩
    · dsimp only
      omega
    · dsimp only
      omega

theorem popFront_eq_none (hpop : inner.popFront List.length = none) : inner.blocks = [] := by
  rw [Inner.popFront] at hpop
  split at hpop
  · next hblocks => exact hblocks
  · cases hpop

/-- The loop of `push` takes the oldest block. -/
theorem inv_evict_drop (hi : QueueState.Inv ⟨dir, .on ⟨m, inner, .evict new⟩, h⟩)
    (hover : inner.currentBytes + new.data.length > m)
    (hpop : inner.popFront List.length = some (d, inner')) :
    QueueState.Inv ⟨dir, .on ⟨m, inner', .drop new d⟩, h⟩ := by
  obtain ⟨hh, hq⟩ := hi
  obtain ⟨hblocks, hnext, hbytes, hcurrent⟩ := popFront_eq_some hpop hq.bytes
  have hdisk : PersistentQueue.onDisk ⟨m, inner', .drop new d⟩ =
      PersistentQueue.onDisk ⟨m, inner, .evict new⟩ := by
    change d :: (inner'.blocks ++ [new]) = inner.blocks ++ [new]
    rw [hblocks, cons_append]
  refine ⟨hh, ?_, ?_, ?_, hbytes, ?_⟩
  · rw [hdisk]
    exact hq.sorted
  · rw [hdisk]
    exact hq.file_iff
  · rw [hdisk]
    dsimp only
    rw [hnext]
    exact hq.index_lt
  · change m < inner'.currentBytes + d.data.length + new.data.length
    omega

/-- A call of `push` returns. -/
theorem inv_evict_done (hi : QueueState.Inv ⟨dir, .on ⟨m, inner, .evict new⟩, h⟩)
    (hdone : inner.currentBytes + new.data.length ≤ m ∨ inner.blocks = []) :
    QueueState.Inv ⟨dir, .on ⟨m, inner.pushBack List.length new, .idle⟩,
      { h with acked := h.acked ++ [h.owner new.index] }⟩ := by
  obtain ⟨hh, hq⟩ := hi
  have hnew : Dir.file dir new.index = some new.data :=
    (hq.file_iff _ _).mpr (mem_append_right _ (mem_singleton.mpr rfl))
  refine ⟨hh.ack hnew, hq.sorted, hq.file_iff, hq.index_lt, ?_, fun hlen => ?_⟩
  · change inner.currentBytes + _ = Inner.totalBytes List.length (inner.blocks ++ [new])
    rw [show inner.currentBytes = Inner.totalBytes List.length inner.blocks from hq.bytes]
    simp [Inner.totalBytes]
  · rcases hdone with hle | hempty
    · exact hle
    · change 1 < (inner.blocks ++ [new]).length at hlen
      rw [hempty] at hlen
      exact absurd hlen (by simp)

/-- The loop of `open` takes the oldest block. -/
theorem inv_openEvict_drop (hi : QueueState.Inv ⟨dir, .on ⟨m, inner, .openEvict⟩, h⟩)
    (hover : inner.currentBytes > m) (hpop : inner.popFront List.length = some (d, inner')) :
    QueueState.Inv ⟨dir, .on ⟨m, inner', .openDrop d⟩, h⟩ := by
  obtain ⟨hh, hq⟩ := hi
  obtain ⟨hblocks, hnext, hbytes, hcurrent⟩ := popFront_eq_some hpop hq.bytes
  have hdisk : PersistentQueue.onDisk ⟨m, inner', .openDrop d⟩ =
      PersistentQueue.onDisk ⟨m, inner, .openEvict⟩ := hblocks.symm
  refine ⟨hh, ?_, ?_, ?_, hbytes, ?_⟩
  · rw [hdisk]
    exact hq.sorted
  · rw [hdisk]
    exact hq.file_iff
  · rw [hdisk]
    dsimp only
    rw [hnext]
    exact hq.index_lt
  · change m < inner'.currentBytes + d.data.length
    omega

theorem inv_openEvict_done (hi : QueueState.Inv ⟨dir, .on ⟨m, inner, .openEvict⟩, h⟩)
    (hdone : inner.currentBytes ≤ m ∨ inner.blocks = []) :
    QueueState.Inv ⟨dir, .on ⟨m, inner, .idle⟩, h⟩ := by
  obtain ⟨hh, hq⟩ := hi
  refine ⟨hh, hq.sorted, hq.file_iff, hq.index_lt, hq.bytes, fun hlen => ?_⟩
  rcases hdone with hle | hempty
  · exact hle
  · rw [hempty] at hlen
    exact absurd hlen (by simp)

/-- The file of the first block on disk is removed. -/
theorem file_erase_front {rest : List (QueuedBlock Bytes)}
    (hsorted : (d :: rest).Pairwise fun a b => a.index < b.index)
    (hfile : ∀ i e, Dir.file dir i = some e ↔ ⟨i, e⟩ ∈ d :: rest) (i : ℕ) (e : Bytes) :
    Dir.file (dir.erase (.block d.index)) i = some e ↔ ⟨i, e⟩ ∈ rest := by
  rw [file_erase_block]
  split
  · next heq =>
    refine ⟨(nomatch ·), fun hmem => ?_⟩
    have hlt : d.index < i := rel_of_pairwise_cons hsorted hmem
    omega
  · next hne =>
    rw [hfile, mem_cons]
    refine ⟨fun h => h.resolve_left fun heq => ?_, .inr⟩
    exact hne (congrArg QueuedBlock.index heq)

theorem file_erase_eq (dir : Dir) (index : ℕ) :
    Dir.file (dir.erase (.block index)) = fun i => if i = index then none else Dir.file dir i := by
  funext i
  exact file_erase_block dir index i

/-- The history when the file of an evicted block is removed. -/
theorem historyInv_evict {rest : List (QueuedBlock Bytes)} {held limit : ℕ}
    (hh : HistoryInv (Dir.file dir) h fun _ => False)
    (hsorted : (d :: rest).Pairwise fun a b => a.index < b.index)
    (hfile : ∀ i e, Dir.file dir i = some e ↔ ⟨i, e⟩ ∈ d :: rest) (hover : limit < held) :
    HistoryInv (Dir.file (dir.erase (.block d.index))) (h.evict d held limit rest)
      fun _ => False := by
  have hrest : ∀ b ∈ rest, d.index < b.index ∧ Dir.file dir b.index = some b.data :=
    fun b hb => ⟨rel_of_pairwise_cons hsorted hb, (hfile _ _).mpr (mem_cons_of_mem _ hb)⟩
  have hevict := hh.evict hover ((hfile _ _).mpr mem_cons_self) hrest
  rw [file_erase_eq]
  refine hevict.erase (.inr ⟨_, mem_append_right _ (mem_singleton.mpr rfl), rfl⟩)
    fun _ _ => id

theorem inv_remove_drop (hi : QueueState.Inv ⟨dir, .on ⟨m, inner, .drop new d⟩, h⟩) :
    QueueState.Inv ⟨dir.erase (.block d.index), .on ⟨m, inner, .evict new⟩,
      h.evict d (inner.currentBytes + d.data.length + new.data.length) m
      (inner.blocks ++ [new])⟩ := by
  obtain ⟨hh, hq⟩ := hi
  exact ⟨historyInv_evict hh hq.sorted hq.file_iff hq.phase, hq.sorted.of_cons,
    file_erase_front hq.sorted hq.file_iff, fun b hb => hq.index_lt b (mem_cons_of_mem _ hb),
    hq.bytes, trivial⟩

theorem inv_remove_openDrop (hi : QueueState.Inv ⟨dir, .on ⟨m, inner, .openDrop d⟩, h⟩) :
    QueueState.Inv ⟨dir.erase (.block d.index), .on ⟨m, inner, .openEvict⟩,
      h.evict d (inner.currentBytes + d.data.length) m inner.blocks⟩ := by
  obtain ⟨hh, hq⟩ := hi
  exact ⟨historyInv_evict hh hq.sorted hq.file_iff hq.phase, hq.sorted.of_cons,
    file_erase_front hq.sorted hq.file_iff, fun b hb => hq.index_lt b (mem_cons_of_mem _ hb),
    hq.bytes, trivial⟩

theorem inv_remove_pop (hi : QueueState.Inv ⟨dir, .on ⟨m, inner, .pop d⟩, h⟩) :
    QueueState.Inv ⟨dir.erase (.block d.index), .on ⟨m, inner, .idle⟩, h⟩ := by
  obtain ⟨hh, hq⟩ := hi
  obtain ⟨hlimit, hpopped⟩ := hq.phase
  refine ⟨?_, hq.sorted.of_cons, file_erase_front hq.sorted hq.file_iff,
    fun b hb => hq.index_lt b (mem_cons_of_mem _ hb), hq.bytes, hlimit⟩
  rw [file_erase_eq]
  exact hh.erase (.inl hpopped) fun i hne heq => hne heq.symm

theorem inv_pop (hi : QueueState.Inv ⟨dir, .on ⟨m, inner, .idle⟩, h⟩)
    (hpop : inner.popFront List.length = some (d, inner')) :
    QueueState.Inv ⟨dir, .on ⟨m, inner', .pop d⟩,
      { h with popped := h.popped ++ [⟨h.lifetime, h.owner d.index, d.data⟩] }⟩ := by
  obtain ⟨hh, hq⟩ := hi
  obtain ⟨hblocks, hnext, hbytes, hcurrent⟩ := popFront_eq_some hpop hq.bytes
  have hsorted : (d :: inner'.blocks).Pairwise fun a b => a.index < b.index := by
    rw [← hblocks]
    exact hq.sorted
  have hfile : ∀ i e, Dir.file dir i = some e ↔ ⟨i, e⟩ ∈ d :: inner'.blocks := by
    rw [← hblocks]
    exact hq.file_iff
  refine ⟨hh.pop ((hfile _ _).mpr mem_cons_self) fun i e he => ?_, hsorted, hfile, ?_, hbytes,
    fun hlen => ?_, ⟨_, mem_append_right _ (mem_singleton.mpr rfl), rfl⟩⟩
  · rcases mem_cons.mp ((hfile i e).mp he) with heq | hmem
    · exact (congrArg QueuedBlock.index heq).symm.le
    · exact (rel_of_pairwise_cons hsorted hmem).le
  · change ∀ b ∈ d :: inner'.blocks, b.index < inner'.nextIndex
    rw [← hblocks, hnext]
    exact hq.index_lt
  · have hlimit : 1 < inner.blocks.length → inner.currentBytes ≤ m := hq.phase
    change 1 < inner'.blocks.length at hlen
    change inner'.currentBytes ≤ m
    rw [hblocks, length_cons] at hlimit
    have := hlimit (by omega)
    omega

theorem inv_stop {s : QueueState} (hi : s.Inv) : s.stop.Inv :=
  ⟨hi.history.stop _, trivial⟩

/-- Every step of an open queue keeps the invariant. -/
theorem inv_stepQueue {q : PersistentQueue} {a : QueueAction} {s' : QueueState}
    (hi : QueueState.Inv ⟨dir, .on q, h⟩)
    (hstep : QueueState.stepQueue ⟨dir, .on q, h⟩ q a = some s') : s'.Inv := by
  obtain ⟨m, inner, phase⟩ := q
  cases a with
  | openQueue | sweep | load => cases hstep
  | push block =>
    simp only [QueueState.stepQueue] at hstep
    split at hstep
    · obtain rfl := Option.some.inj hstep
      exact inv_push hi block
    · cases hstep
  | write n =>
    simp only [QueueState.stepQueue] at hstep
    split at hstep
    · obtain rfl := Option.some.inj hstep
      exact inv_write hi n
    · cases hstep
  | sync =>
    simp only [QueueState.stepQueue] at hstep
    split at hstep
    · obtain rfl := Option.some.inj hstep
      exact inv_sync hi
    · cases hstep
  | rename =>
    simp only [QueueState.stepQueue] at hstep
    split at hstep
    · obtain ⟨hlookup, hinv⟩ := inv_rename hi
      rw [hlookup] at hstep
      obtain rfl := Option.some.inj hstep
      exact hinv
    · cases hstep
  | evict =>
    simp only [QueueState.stepQueue] at hstep
    split at hstep
    · split at hstep
      · next hover =>
        split at hstep
        · next d inner' hpop =>
          obtain rfl := Option.some.inj hstep
          exact inv_evict_drop hi hover hpop
        · next hpop =>
          obtain rfl := Option.some.inj hstep
          exact inv_evict_done hi (.inr (popFront_eq_none hpop))
      · next hnot =>
        obtain rfl := Option.some.inj hstep
        exact inv_evict_done hi (.inl (not_lt.mp hnot))
    · split at hstep
      · next hover =>
        split at hstep
        · next d inner' hpop =>
          obtain rfl := Option.some.inj hstep
          exact inv_openEvict_drop hi hover hpop
        · next hpop =>
          obtain rfl := Option.some.inj hstep
          exact inv_openEvict_done hi (.inr (popFront_eq_none hpop))
      · next hnot =>
        obtain rfl := Option.some.inj hstep
        exact inv_openEvict_done hi (.inl (not_lt.mp hnot))
    · cases hstep
  | remove =>
    simp only [QueueState.stepQueue] at hstep
    split at hstep
    · obtain rfl := Option.some.inj hstep
      exact inv_remove_drop hi
    · obtain rfl := Option.some.inj hstep
      exact inv_remove_openDrop hi
    · obtain rfl := Option.some.inj hstep
      exact inv_remove_pop hi
    · cases hstep
  | pop =>
    simp only [QueueState.stepQueue] at hstep
    split at hstep
    · split at hstep
      · next d inner' hpop =>
        obtain rfl := Option.some.inj hstep
        exact inv_pop hi hpop
      · obtain rfl := Option.some.inj hstep
        exact hi
    · cases hstep
  | close =>
    simp only [QueueState.stepQueue] at hstep
    split at hstep
    · obtain rfl := Option.some.inj hstep
      exact inv_stop hi
    · cases hstep
  | crash =>
    obtain rfl := Option.some.inj hstep
    exact inv_stop hi

end Steps

/-! ### The steps of opening -/

section Sweep

variable {dir : Dir} {h : History} {m : ℕ} {todo : List FileName} {indexed : List ℕ}

theorem sweepInv_open {entries : List FileName} (hnodup : entries.Nodup)
    (hkeys : entries.toFinset = dir.keys) : SweepInv dir entries [] := by
  refine ⟨fun i => ?_, hnodup, nodup_nil, fun i hi => nomatch hi⟩
  have hmem : FileName.block i ∈ entries ↔ FileName.block i ∈ dir := by
    rw [← mem_toFinset, hkeys, Finmap.mem_keys]
  rw [hmem, Dir.file, Finmap.lookup_isSome]
  simp

theorem inv_sweepEntry {name : FileName}
    (hi : QueueState.Inv ⟨dir, .sweep m (name :: todo) indexed, h⟩) :
    (QueueState.sweepEntry ⟨dir, .sweep m (name :: todo) indexed, h⟩ m name todo indexed).Inv := by
  obtain ⟨hh, hs⟩ := hi
  obtain ⟨hnot, hnodup⟩ := nodup_cons.mp hs.nodup
  cases name with
  | block index =>
    refine ⟨hh, fun i => ?_, hnodup, ?_, fun i hi hmem => ?_⟩
    · change (Dir.file dir i).isSome ↔ _
      rw [hs.file_iff, mem_append, mem_singleton, mem_cons, FileName.block.injEq]
      tauto
    · refine nodup_append.mpr ⟨hs.nodup_indexed, nodup_singleton _, fun a ha b hb => ?_⟩
      rw [mem_singleton.mp hb]
      rintro rfl
      exact hs.disjoint _ ha mem_cons_self
    · rcases mem_append.mp hi with hi | hi
      · exact hs.disjoint i hi (mem_cons_of_mem _ hmem)
      · rw [mem_singleton.mp hi] at hmem
        exact hnot hmem
  | tmp name =>
    have hfiles : Dir.file (dir.erase (.tmp name)) = Dir.file dir := by
      funext i
      exact file_erase_tmp dir name i
    refine ⟨?_, fun i => ?_, hnodup, hs.nodup_indexed,
      fun i hi hmem => hs.disjoint i hi (mem_cons_of_mem _ hmem)⟩
    · change HistoryInv (Dir.file (dir.erase (.tmp name))) h _
      rw [hfiles]
      exact hh
    · change (Dir.file (dir.erase (.tmp name)) i).isSome ↔ _
      rw [hfiles, hs.file_iff, mem_cons]
      simp
  | other name =>
    refine ⟨hh, fun i => ?_, hnodup, hs.nodup_indexed,
      fun i hi hmem => hs.disjoint i hi (mem_cons_of_mem _ hmem)⟩
    change (Dir.file dir i).isSome ↔ _
    rw [hs.file_iff, mem_cons]
    simp

theorem inv_load (hi : QueueState.Inv ⟨dir, .sweep m [] indexed, h⟩) :
    QueueState.Inv ⟨dir, .on ⟨m, loadInner (loadBlocks dir indexed), .openEvict⟩, h⟩ := by
  obtain ⟨hh, hs⟩ := hi
  refine ⟨hh, sorted_loadBlocks hs.nodup_indexed, fun i d => ?_,
    fun b hb => lt_nextIndex_loadInner hb, rfl, trivial⟩
  change _ ↔ _ ∈ loadBlocks dir indexed
  rw [mem_loadBlocks]
  refine ⟨fun hd => ⟨?_, hd⟩, fun h => h.2⟩
  have hsome : (Dir.file dir i).isSome := by
    rw [hd]
    rfl
  exact ((hs.file_iff i).mp hsome).resolve_right (fun h => nomatch h)

end Sweep

/-- Every step keeps the invariant. -/
theorem QueueState.inv_step {s s' : QueueState} {a : QueueAction} (hi : s.Inv)
    (hstep : s.step a = some s') : s'.Inv := by
  obtain ⟨dir, process, h⟩ := s
  cases process with
  | off =>
    simp only [QueueState.step] at hstep
    split at hstep
    · next maxBytes entries =>
      split at hstep
      · next hentries =>
        obtain rfl := Option.some.inj hstep
        exact ⟨hi.history, sweepInv_open hentries.1 hentries.2⟩
      · cases hstep
    · cases hstep
  | sweep m todo indexed =>
    simp only [QueueState.step] at hstep
    split at hstep
    · obtain rfl := Option.some.inj hstep
      exact inv_sweepEntry hi
    · obtain rfl := Option.some.inj hstep
      exact inv_load hi
    · obtain rfl := Option.some.inj hstep
      exact inv_stop hi
    · cases hstep
  | on q => exact inv_stepQueue hi hstep

theorem QueueState.inv_init {dir : Dir} (h : ∀ i, Dir.file dir i = none) : (init dir).Inv := by
  have hnone : ∀ i d, Dir.file dir i ≠ some d := fun i d hd => by
    rw [h] at hd
    exact nomatch hd
  exact ⟨⟨fun i d hd => absurd hd (hnone i d), fun i _ d _ hd => absurd hd (hnone i d),
    fun _ h => absurd h not_mem_nil, Pairwise.nil, fun _ h => absurd h not_mem_nil,
    fun _ h => absurd h not_mem_nil, fun _ h => absurd h not_mem_nil,
    fun _ h => absurd h not_mem_nil⟩, trivial⟩

/-! ### Every run -/

/-- A block with this number is queued: there is a file with it. -/
def QueueState.IsQueued (s : QueueState) (seq : ℕ) : Prop :=
  ∃ i d, Dir.file s.dir i = some d ∧ s.history.owner i = seq

/-- What the history of a run always says. Blocks are taken in the order in which they were pushed,
whole, and none twice by one process; every block for which `push` returned is queued, was taken or
was evicted; and a block was evicted only over the limit, and before all others. -/
structure QueueState.IsFifo (s : QueueState) : Prop where
  popped_order : s.history.popped.Pairwise Popped.Before
  popped_whole : ∀ p ∈ s.history.popped, s.history.pushed[p.seq]? = some p.data
  not_lost : ∀ seq ∈ s.history.acked, s.IsQueued seq ∨ (∃ p ∈ s.history.popped, p.seq = seq) ∨
    ∃ e ∈ s.history.evicted, e.seq = seq
  evicted_oldest : ∀ e ∈ s.history.evicted, e.limit < e.held ∧ ∀ r ∈ e.rest, e.seq < r
  file_whole : ∀ i d, Dir.file s.dir i = some d → s.history.pushed[s.history.owner i]? = some d

/-- What holds of the queue between operations: its bytes are counted, the limit is kept, its blocks
are the block files, in the order in which they were pushed, and they come after those that this
process has taken. -/
structure QueueState.IsConsistent (s : QueueState) (q : PersistentQueue) : Prop where
  bytes : q.inner.currentBytes = Inner.totalBytes List.length q.inner.blocks
  limit : 1 < q.inner.blocks.length → q.inner.currentBytes ≤ q.maxBytes
  files : ∀ i d, Dir.file s.dir i = some d ↔ ⟨i, d⟩ ∈ q.inner.blocks
  order : q.inner.blocks.Pairwise fun a b => s.history.owner a.index < s.history.owner b.index
  after_popped : ∀ p ∈ s.history.popped, ∀ b ∈ q.inner.blocks, p.seq < s.history.owner b.index ∨
    p.seq = s.history.owner b.index ∧ p.lifetime < s.history.lifetime

theorem QueueState.Inv.isFifo {s : QueueState} (hi : s.Inv) : s.IsFifo :=
  ⟨hi.history.popped_sorted, hi.history.popped_data, hi.history.acked, hi.history.evicted_over,
    hi.history.data_eq⟩

theorem QueueState.Inv.isConsistent {s : QueueState} (hi : s.Inv) {q : PersistentQueue}
    (hq : s.process = .on q) (hidle : q.phase = .idle) : s.IsConsistent q := by
  obtain ⟨dir, process, h⟩ := s
  obtain ⟨m, inner, phase⟩ := q
  subst hq hidle
  obtain ⟨hh, hq⟩ := hi
  have hsorted : inner.blocks.Pairwise fun a b => a.index < b.index := hq.sorted
  have hmem : ∀ b ∈ inner.blocks, Dir.file dir b.index = some b.data :=
    fun b hb => (hq.file_iff _ _).mpr hb
  refine ⟨hq.bytes, hq.phase, hq.file_iff, ?_, fun p hp b hb => ?_⟩
  · refine hsorted.imp_of_mem fun {a b} ha hb hlt => ?_
    exact hh.owner_lt _ _ _ _ (hmem a ha) (hmem b hb) hlt
  · obtain hlt | ⟨heq, hlife | hfalse⟩ := hh.popped_before p hp b.index b.data (hmem b hb)
    · exact .inl hlt
    · exact .inr ⟨heq, hlife⟩
    · exact hfalse.elim

/-- **The queue is a durable FIFO.** In every state of every run that starts without block files. -/
theorem durable_fifo {dir : Dir} (h : ∀ i, Dir.file dir i = none)
    (r : Run QueueState.step (QueueState.init dir)) (n : ℕ) (hn : n ≤ r.length) :
    (r.state n).IsFifo ∧
    ∀ q, (r.state n).process = .on q → q.phase = .idle → (r.state n).IsConsistent q := by
  have hinv : (r.state n).Inv :=
    r.invariant (QueueState.inv_init h) (fun _ _ _ hi hstep => QueueState.inv_step hi hstep) n hn
  exact ⟨hinv.isFifo, fun q hq hidle => hinv.isConsistent hq hidle⟩

/-- A push that is interrupted after its file was put in place. The next process finds the block,
and takes it. -/
def interruptedPush : Run QueueState.step (QueueState.init ∅) :=
  Run.ofActions [.openQueue 0 [], .load, .evict, .push [1, 2], .sync, .rename, .crash,
    .openQueue 0 [.block 0], .sweep, .load, .evict, .pop, .remove] (by decide +kernel)

theorem durable_fifo_interruptedPush :
    (interruptedPush.state 13).IsFifo ∧
    ∀ q, (interruptedPush.state 13).process = .on q → q.phase = .idle →
      (interruptedPush.state 13).IsConsistent q :=
  durable_fifo (fun _ => Finmap.lookup_empty _) interruptedPush 13 le_rfl

end Esmetrics.Esmagent
