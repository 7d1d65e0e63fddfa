import Esmetrics.Lib.FixedWidth
import Esmetrics.Lib.Runs
import Mathlib.Data.Finmap

/-!
# The persistent queue

Model of `esmagent/src/queue.rs`: a queue of blocks with one file for each block. Its names are
those of blocks, of the temporary files that a block is first written to, and others (`FileName`);
`parseIndex_eq_some_iff` and `parseIndex_tmpName` are what the code does with the text of a name.
The index of a block is a counter that is not exhausted.

An operation holds the lock of the queue to its end, so that nothing but a crash comes between its
steps. `Phase` is the place in the operation, and `State.step` goes from one change of a file to the
next one. A crash ends the process anywhere, and leaves the directory as it is. Reading a directory
gives its names in any order.

The state also has the history of the run, which no operation reads: the blocks that were given to
`push` are numbered, `owner` is the number of the block that an index was last used for, and the
blocks that were taken or evicted are listed with what was true of the queue then.
-/

namespace Esmetrics.Esmagent

open List

/-! ### File names -/

def indexWidth : ℕ := 20

/-- The last `w` decimal digits of a number. -/
def decimal : ℕ → ℕ → Bytes
  | 0, _ => []
  | w + 1, n => UInt8.ofNat (48 + n / 10 ^ w % 10) :: decimal w n

/-- The name `{index:0width$}` of the file of a block. -/
def blockName (index : ℕ) : Bytes := decimal indexWidth index

def tmpName (index : ℕ) : Bytes := blockName index ++ ascii ".tmp"

/-- The number that decimal digits stand for. -/
def decimalValue (name : Bytes) : ℕ := name.foldl (fun n b => n * 10 + (b.toNat - 48)) 0

def parseIndex (name : Bytes) : Option ℕ :=
  if name.length ≠ indexWidth ∨ ¬ name.all isAsciiDigit then none
  else if decimalValue name < 2 ^ 64 then some (decimalValue name) else none

@[simp]
theorem length_decimal (w n : ℕ) : (decimal w n).length = w := by
  induction w with
  | zero => rfl
  | succ w ih => rw [decimal, length_cons, ih]

theorem toNat_digit (n : ℕ) : (UInt8.ofNat (48 + n % 10)).toNat = 48 + n % 10 := by
  rw [UInt8.toNat_ofNat']
  omega

theorem all_decimal (w n : ℕ) : (decimal w n).all isAsciiDigit := by
  induction w with
  | zero => rfl
  | succ w ih =>
    rw [decimal, all_cons, ih, Bool.and_true, isAsciiDigit_iff, toNat_digit]
    omega

theorem foldl_decimal (w n acc : ℕ) :
    (decimal w n).foldl (fun n b => n * 10 + (b.toNat - 48)) acc = acc * 10 ^ w + n % 10 ^ w := by
  induction w generalizing acc with
  | zero => simp [decimal, Nat.mod_one]
  | succ w ih =>
    have hmod : n % 10 ^ (w + 1) = n / 10 ^ w % 10 * 10 ^ w + n % 10 ^ w := by
      rw [pow_succ, Nat.mod_mul, Nat.add_comm, Nat.mul_comm]
    rw [decimal, foldl_cons, ih, toNat_digit, hmod, Nat.add_sub_cancel_left]
    ring

theorem decimalValue_decimal (w n : ℕ) : decimalValue (decimal w n) = n % 10 ^ w := by
  rw [decimalValue, foldl_decimal]
  simp

/-- The index of a block is read from the name of its file. -/
theorem parseIndex_blockName {index : ℕ} (h : index < 2 ^ 64) :
    parseIndex (blockName index) = some index := by
  have hvalue : decimalValue (blockName index) = index := by
    rw [blockName, decimalValue_decimal, indexWidth]
    omega
  have hname : ¬ ((blockName index).length ≠ indexWidth ∨
      ¬ (blockName index).all isAsciiDigit) := by
    rw [blockName]
    simp [all_decimal]
  rw [parseIndex, if_neg hname, hvalue, if_pos h]

theorem decimalValue_cons (b : UInt8) (name : Bytes) :
    decimalValue (b :: name) = (b.toNat - 48) * 10 ^ name.length + decimalValue name := by
  have hacc : ∀ acc, name.foldl (fun n b => n * 10 + (b.toNat - 48)) acc =
      acc * 10 ^ name.length + decimalValue name := by
    intro acc
    rw [decimalValue]
    induction name generalizing acc with
    | nil => simp
    | cons c name ih =>
      rw [foldl_cons, foldl_cons, ih, ih (0 * 10 + _), length_cons, pow_succ]
      ring
  rw [decimalValue, foldl_cons, hacc]
  simp

theorem decimalValue_lt {name : Bytes} (h : name.all isAsciiDigit) :
    decimalValue name < 10 ^ name.length := by
  induction name with
  | nil => decide
  | cons b name ih =>
    rw [all_cons, Bool.and_eq_true, isAsciiDigit_iff] at h
    have hrest := ih h.2
    have hdigit : (b.toNat - 48) * 10 ^ name.length ≤ 9 * 10 ^ name.length :=
      Nat.mul_le_mul_right _ (by omega)
    rw [decimalValue_cons, length_cons, pow_succ]
    omega

theorem decimal_add_mul {w m : ℕ} (h : w ≤ m) (a n : ℕ) :
    decimal w (a * 10 ^ m + n) = decimal w n := by
  induction w with
  | zero => rfl
  | succ w ih =>
    have hdigit : (a * 10 ^ m + n) / 10 ^ w % 10 = n / 10 ^ w % 10 := by
      obtain ⟨k, rfl⟩ : ∃ k, m = w + 1 + k := ⟨m - (w + 1), by omega⟩
      have hmul : a * 10 ^ (w + 1 + k) + n = n + 10 ^ w * (10 * (a * 10 ^ k)) := by ring
      rw [hmul, Nat.add_mul_div_left _ _ (by positivity)]
      omega
    rw [decimal, decimal, ih (by omega), hdigit]

theorem decimal_decimalValue {name : Bytes} (h : name.all isAsciiDigit) :
    decimal name.length (decimalValue name) = name := by
  induction name with
  | nil => rfl
  | cons b name ih =>
    rw [all_cons, Bool.and_eq_true, isAsciiDigit_iff] at h
    have hdiv : ((b.toNat - 48) * 10 ^ name.length + decimalValue name) / 10 ^ name.length =
        b.toNat - 48 := by
      rw [Nat.add_comm, Nat.add_mul_div_right _ _ (by positivity),
        Nat.div_eq_of_lt (decimalValue_lt h.2), Nat.zero_add]
    have hdigit : UInt8.ofNat (48 + (b.toNat - 48) % 10) = b := by
      apply UInt8.toNat_inj.mp
      rw [toNat_digit]
      omega
    rw [length_cons, decimal, decimalValue_cons, hdiv, hdigit, decimal_add_mul le_rfl, ih h.2]

/-- Only the file of a block has a name with an index. -/
theorem eq_blockName_of_parseIndex {name : Bytes} {index : ℕ} (h : parseIndex name = some index) :
    name = blockName index := by
  rw [parseIndex] at h
  split at h
  · exact nomatch h
  · next hname =>
    obtain ⟨hlen, hall⟩ := not_or.mp hname
    split at h
    · obtain rfl := Option.some.inj h
      rw [blockName, ← not_not.mp hlen, decimal_decimalValue (not_not.mp hall)]
    · exact nomatch h

/-- **The names of the blocks are those that are read as an index.** -/
theorem parseIndex_eq_some_iff {name : Bytes} {index : ℕ} :
    parseIndex name = some index ↔ index < 2 ^ 64 ∧ name = blockName index := by
  constructor
  · intro h
    refine ⟨?_, eq_blockName_of_parseIndex h⟩
    rw [parseIndex] at h
    split_ifs at h with hname hlt
    exact Option.some.inj h ▸ hlt
  · rintro ⟨hlt, rfl⟩
    exact parseIndex_blockName hlt

theorem parseIndex_tmpName (index : ℕ) : parseIndex (tmpName index) = none := by
  have hlen : (tmpName index).length = 24 := by
    rw [tmpName, length_append, blockName, length_decimal]
    rfl
  rw [parseIndex, if_pos (.inl (by rw [hlen]; decide))]

/-- A file of the directory, as `open` tells them apart: a block, a temporary file, or another
one. -/
inductive FileName
  | block (index : ℕ)
  | tmp (name : Bytes)
  | other (name : Bytes)
deriving DecidableEq

/-- The files of the directory with what is in them. -/
abbrev Dir := Finmap fun _ : FileName => Bytes

/-! ### The queue in memory -/

structure QueuedBlock (β : Type) where
  index : ℕ
  data : β
deriving DecidableEq

structure Inner (β : Type) where
  blocks : List (QueuedBlock β)
  currentBytes : ℕ
  nextIndex : ℕ

namespace Inner

variable {β : Type} (len : β → ℕ)

/-- The sum of the lengths of blocks. -/
def totalBytes (blocks : List (QueuedBlock β)) : ℕ := (blocks.map fun b => len b.data).sum

/-- Takes the oldest block. -/
def popFront (inner : Inner β) : Option (QueuedBlock β × Inner β) :=
  match inner.blocks with
  | [] => none
  | b :: blocks =>
    some (b, { inner with blocks := blocks, currentBytes := inner.currentBytes - len b.data })

def pushBack (inner : Inner β) (b : QueuedBlock β) : Inner β :=
  { inner with currentBytes := inner.currentBytes + len b.data, blocks := inner.blocks ++ [b] }

/-- The loop of `push`, which drops the oldest blocks until there is room for `extra` bytes. With a
block that is dropped it returns the bytes that were held. -/
def evictLoop (maxBytes extra : ℕ) :
    List (QueuedBlock β) → ℕ → (List (QueuedBlock β) × ℕ) × List (QueuedBlock β × ℕ)
  | [], current => (([], current), [])
  | b :: blocks, current =>
    if current + extra > maxBytes then
      let (kept, dropped) := evictLoop maxBytes extra blocks (current - len b.data)
      (kept, (b, current + extra) :: dropped)
    else ((b :: blocks, current), [])

/-- The whole of `push` on the queue in memory, with the blocks that it drops. -/
def push (inner : Inner β) (maxBytes : ℕ) (block : β) : Inner β × List (QueuedBlock β × ℕ) :=
  let ((blocks, current), dropped) :=
    evictLoop len maxBytes (len block) inner.blocks inner.currentBytes
  (pushBack len { blocks := blocks, currentBytes := current, nextIndex := inner.nextIndex + 1 }
    ⟨inner.nextIndex, block⟩, dropped)

end Inner

/-! ### The process -/

/-- What the process is doing. -/
inductive Phase
  /-- No operation is running. -/
  | idle
  /-- The temporary file of a block is being written. -/
  | tmp (block : Bytes)
  /-- The temporary file of a block is complete. -/
  | synced (block : Bytes)
  /-- The file of a new block is in place, and the loop of `push` tests the limit. -/
  | evict (new : QueuedBlock Bytes)
  /-- The loop of `push` has taken a block, and not removed its file yet. -/
  | drop (new dropped : QueuedBlock Bytes)
  /-- A block was taken by `pop`, and its file not removed yet. -/
  | pop (taken : QueuedBlock Bytes)
  /-- The loop of `open` tests the limit. -/
  | openEvict
  /-- The loop of `open` has taken a block, and not removed its file yet. -/
  | openDrop (dropped : QueuedBlock Bytes)

structure PersistentQueue where
  maxBytes : ℕ
  inner : Inner Bytes
  phase : Phase

inductive Process
  | off
  /-- The part of `open` that goes through the directory. -/
  | sweep (maxBytes : ℕ) (todo : List FileName) (indexed : List ℕ)
  | on (q : PersistentQueue)

/-- A block that was taken by `pop`. -/
structure Popped where
  lifetime : ℕ
  seq : ℕ
  data : Bytes

/-- A block that was evicted, with the bytes that were held, the limit, and the other blocks. -/
structure Evicted where
  seq : ℕ
  held : ℕ
  limit : ℕ
  rest : List ℕ

/-- The history of a run. -/
structure History where
  /-- The blocks that were given to `push`. -/
  pushed : List Bytes
  /-- The numbers of the blocks for which `push` returned. -/
  acked : List ℕ
  /-- The number of the block that an index was last used for. -/
  owner : ℕ → ℕ
  popped : List Popped
  evicted : List Evicted
  /-- The number of processes that have ended. -/
  lifetime : ℕ

structure QueueState where
  dir : Dir
  process : Process
  history : History

inductive QueueAction
  | openQueue (maxBytes : ℕ) (entries : List FileName)
  | sweep
  | load
  | push (block : Bytes)
  | write (n : ℕ)
  | sync
  | rename
  /-- The test of the limit, in `push` and in `open`. -/
  | evict
  /-- The file of a block that was taken is removed. -/
  | remove
  | pop
  | close
  | crash
deriving Inhabited

/-! ### The steps -/

/-- The value `0` is no limit. -/
def normalizeMaxBytes (maxBytes : ℕ) : ℕ := if maxBytes = 0 then 2 ^ 64 - 1 else maxBytes

/-- The blocks with the given indices, in the order of these. -/
def loadBlocks (dir : Dir) (indexed : List ℕ) : List (QueuedBlock Bytes) :=
  (indexed.mergeSort (· ≤ ·)).filterMap fun index =>
    (dir.lookup (.block index)).map fun data => ⟨index, data⟩

def loadInner (blocks : List (QueuedBlock Bytes)) : Inner Bytes where
  blocks := blocks
  currentBytes := Inner.totalBytes List.length blocks
  nextIndex := blocks.foldl (fun next b => max next (b.index + 1)) 0

namespace History

def evict (h : History) (dropped : QueuedBlock Bytes) (held limit : ℕ)
    (rest : List (QueuedBlock Bytes)) : History :=
  { h with evicted := h.evicted ++
    [⟨h.owner dropped.index, held, limit, rest.map fun b => h.owner b.index⟩] }

end History

namespace QueueState

def init (dir : Dir) : QueueState :=
  ⟨dir, .off, ⟨[], [], fun _ => 0, [], [], 0⟩⟩

/-- One entry of the directory. -/
def sweepEntry (s : QueueState) (maxBytes : ℕ) (name : FileName) (todo : List FileName)
    (indexed : List ℕ) : QueueState :=
  match name with
  | .block index => { s with process := .sweep maxBytes todo (indexed ++ [index]) }
  | .tmp name => { s with
      dir := s.dir.erase (.tmp name), process := .sweep maxBytes todo indexed }
  | .other _ => { s with process := .sweep maxBytes todo indexed }

/-- The process ends. -/
def stop (s : QueueState) : QueueState :=
  { s with process := .off, history := { s.history with lifetime := s.history.lifetime + 1 } }

/-- A step of an operation of an open queue. -/
def stepQueue (s : QueueState) (q : PersistentQueue) : QueueAction → Option QueueState
  | .push block =>
    match q.phase with
    | .idle => some { s with
        dir := s.dir.insert (.tmp (tmpName q.inner.nextIndex)) []
        process := .on { q with phase := .tmp block }
        history := { s.history with
          pushed := s.history.pushed ++ [block]
          owner := Function.update s.history.owner q.inner.nextIndex s.history.pushed.length } }
    | _ => none
  | .write n =>
    match q.phase with
    | .tmp block => some { s with
        dir := s.dir.insert (.tmp (tmpName q.inner.nextIndex)) (block.take n) }
    | _ => none
  | .sync =>
    match q.phase with
    | .tmp block => some { s with
        dir := s.dir.insert (.tmp (tmpName q.inner.nextIndex)) block
        process := .on { q with phase := .synced block } }
    | _ => none
  | .rename =>
    match q.phase with
    | .synced block =>
      (s.dir.lookup (.tmp (tmpName q.inner.nextIndex))).map fun content =>
        { s with
          dir := (s.dir.erase (.tmp (tmpName q.inner.nextIndex))).insert
            (.block q.inner.nextIndex) content
          process := .on { q with
            inner := { q.inner with nextIndex := q.inner.nextIndex + 1 }
            phase := .evict ⟨q.inner.nextIndex, block⟩ } }
    | _ => none
  | .evict =>
    match q.phase with
    | .evict new =>
      let done := { s with
        process := .on { q with inner := q.inner.pushBack List.length new, phase := .idle }
        history := { s.history with
          acked := s.history.acked ++ [s.history.owner new.index] } }
      if q.inner.currentBytes + new.data.length > q.maxBytes then
        match q.inner.popFront List.length with
        | some (dropped, inner) =>
          some { s with process := .on { q with inner := inner, phase := .drop new dropped } }
        | none => some done
      else some done
    | .openEvict =>
      let done := { s with process := .on { q with phase := .idle } }
      if q.inner.currentBytes > q.maxBytes then
        match q.inner.popFront List.length with
        | some (dropped, inner) =>
          some { s with process := .on { q with inner := inner, phase := .openDrop dropped } }
        | none => some done
      else some done
    | _ => none
  | .remove =>
    match q.phase with
    | .drop new dropped => some {
        dir := s.dir.erase (.block dropped.index)
        process := .on { q with phase := .evict new }
        history := s.history.evict dropped
          (q.inner.currentBytes + dropped.data.length + new.data.length) q.maxBytes
          (q.inner.blocks ++ [new]) }
    | .openDrop dropped => some {
        dir := s.dir.erase (.block dropped.index)
        process := .on { q with phase := .openEvict }
        history := s.history.evict dropped
          (q.inner.currentBytes + dropped.data.length) q.maxBytes q.inner.blocks }
    | .pop taken => some { s with
        dir := s.dir.erase (.block taken.index), process := .on { q with phase := .idle } }
    | _ => none
  | .pop =>
    match q.phase with
    | .idle =>
      match q.inner.popFront List.length with
      | some (taken, inner) => some { s with
          process := .on { q with inner := inner, phase := .pop taken }
          history := { s.history with popped := s.history.popped ++
            [⟨s.history.lifetime, s.history.owner taken.index, taken.data⟩] } }
      | none => some s
    | _ => none
  | .close =>
    match q.phase with
    | .idle => some s.stop
    | _ => none
  | .crash => some s.stop
  | _ => none

def step (s : QueueState) (a : QueueAction) : Option QueueState :=
  match s.process with
  | .off =>
    match a with
    | .openQueue maxBytes entries =>
      if entries.Nodup ∧ entries.toFinset = s.dir.keys then
        some { s with process := .sweep (normalizeMaxBytes maxBytes) entries [] }
      else none
    | _ => none
  | .sweep maxBytes todo indexed =>
    match a, todo with
    | .sweep, name :: todo => some (s.sweepEntry maxBytes name todo indexed)
    | .load, [] => some { s with process := .on {
        maxBytes := maxBytes, inner := loadInner (loadBlocks s.dir indexed), phase := .openEvict } }
    | .crash, _ => some s.stop
    | _, _ => none
  | .on q => s.stepQueue q a

end QueueState

/-! ### Whole operations -/

/-- The steps of a `push` that evicts `n` blocks. -/
def pushActions (block : Bytes) (n : ℕ) : List QueueAction :=
  [.push block, .sync, .rename] ++ (List.replicate n [.evict, .remove]).flatten ++ [.evict]

/-- The directory without the files of the blocks that were dropped. -/
def removeBlocks (dir : Dir) (dropped : List (QueuedBlock Bytes × ℕ)) : Dir :=
  dropped.foldl (fun dir d => dir.erase (.block d.1.index)) dir

namespace History

/-- The history when `push` has numbered its block. -/
def push (h : History) (index : ℕ) (block : Bytes) : History :=
  { h with pushed := h.pushed ++ [block], owner := Function.update h.owner index h.pushed.length }

/-- The history when `push` has returned. -/
def ack (h : History) (index : ℕ) : History := { h with acked := h.acked ++ [h.owner index] }

/-- The history when blocks were evicted one after the other, and `kept` are the others. -/
def evictAll (limit : ℕ) (kept : List (QueuedBlock Bytes)) :
    History → List (QueuedBlock Bytes × ℕ) → History
  | h, [] => h
  | h, d :: dropped =>
    evictAll limit kept (h.evict d.1 d.2 limit (dropped.map Prod.fst ++ kept)) dropped

end History

section Loop

variable {β : Type} (len : β → ℕ) (maxBytes extra : ℕ)

theorem evictLoop_append (blocks : List (QueuedBlock β)) (current : ℕ) :
    (Inner.evictLoop len maxBytes extra blocks current).2.map Prod.fst ++
      (Inner.evictLoop len maxBytes extra blocks current).1.1 = blocks := by
  induction blocks generalizing current with
  | nil => rfl
  | cons b blocks ih =>
    rw [Inner.evictLoop]
    split
    · exact congrArg (b :: ·) (ih (current - len b.data))
    · rfl

end Loop

section Whole

variable {m : ℕ}

/-- The loop of `push` step by step: it takes a block, removes its file, and goes on. -/
theorem exec_evict (new : QueuedBlock Bytes) (next : ℕ) (blocks : List (QueuedBlock Bytes))
    {current : ℕ} (hbytes : current = Inner.totalBytes List.length blocks) (dir : Dir)
    (h : History) {kept : List (QueuedBlock Bytes)} {held : ℕ}
    {dropped : List (QueuedBlock Bytes × ℕ)}
    (hloop : Inner.evictLoop List.length m new.data.length blocks current =
      ((kept, held), dropped)) :
    exec QueueState.step ⟨dir, .on ⟨m, ⟨blocks, current, next⟩, .evict new⟩, h⟩
        ((List.replicate dropped.length [.evict, .remove]).flatten ++ [.evict]) =
      some ⟨removeBlocks dir dropped,
        .on ⟨m, Inner.pushBack List.length ⟨kept, held, next⟩ new, .idle⟩,
        (h.evictAll m (kept ++ [new]) dropped).ack new.index⟩ := by
  induction blocks generalizing current dir h dropped with
  | nil =>
    obtain ⟨⟨rfl, rfl⟩, rfl⟩ : ([] = kept ∧ current = held) ∧ [] = dropped := by
      simpa [Inner.evictLoop] using hloop
    rw [length_nil, replicate_zero, flatten_nil, nil_append, exec_singleton]
    simp only [QueueState.step, QueueState.stepQueue, Inner.popFront, ite_self]
    rfl
  | cons b blocks ih =>
    by_cases hover : current + new.data.length > m
    · have htotal : current = b.data.length + Inner.totalBytes List.length blocks := by
        simpa [Inner.totalBytes] using hbytes
      rw [Inner.evictLoop, if_pos hover] at hloop
      obtain ⟨⟨⟨kept', held'⟩, rest⟩, hrest⟩ : ∃ r, Inner.evictLoop List.length m new.data.length
          blocks (current - b.data.length) = r := ⟨_, rfl⟩
      rw [hrest] at hloop
      obtain ⟨⟨rfl, rfl⟩, rfl⟩ :
          (kept' = kept ∧ held' = held) ∧ (b, current + new.data.length) :: rest = dropped := by
        simpa using hloop
      have hblocks : rest.map Prod.fst ++ (kept' ++ [new]) = blocks ++ [new] := by
        have happend := evictLoop_append List.length m new.data.length blocks
          (current - b.data.length)
        rw [hrest] at happend
        rw [← append_assoc, happend]
      have hheld : current - b.data.length + b.data.length + new.data.length =
          current + new.data.length := by omega
      have hexec := ih (by omega) (dir.erase (.block b.index))
        (h.evict b (current + new.data.length) m (blocks ++ [new])) hrest
      rw [length_cons, replicate_succ, flatten_cons, append_assoc, cons_append, cons_append,
        nil_append, exec_cons]
      simp only [QueueState.step, QueueState.stepQueue, Inner.popFront, if_pos hover,
        Option.bind_some]
      rw [exec_cons]
      simp only [QueueState.step, QueueState.stepQueue, Option.bind_some, hheld]
      rw [hexec, History.evictAll, hblocks]
      rfl
    · rw [Inner.evictLoop, if_neg hover] at hloop
      obtain ⟨⟨rfl, rfl⟩, rfl⟩ : (b :: blocks = kept ∧ current = held) ∧ [] = dropped := by
        simpa using hloop
      rw [length_nil, replicate_zero, flatten_nil, nil_append, exec_singleton]
      simp only [QueueState.step, QueueState.stepQueue, if_neg hover]
      rfl

/-- **The steps of `push` do what the whole of it does.** They end, and then the queue in memory is
the one that `push` makes, the new block has its file, the temporary file and those of the evicted
blocks are gone, and the evictions are those of `push`, each with the bytes that were held. -/
theorem exec_push {inner : Inner Bytes}
    (hbytes : inner.currentBytes = Inner.totalBytes List.length inner.blocks) (block : Bytes)
    (dir : Dir) (h : History) :
    exec QueueState.step ⟨dir, .on ⟨m, inner, .idle⟩, h⟩
        (pushActions block (inner.push List.length m block).2.length) =
      some ⟨removeBlocks ((dir.erase (.tmp (tmpName inner.nextIndex))).insert
          (.block inner.nextIndex) block) (inner.push List.length m block).2,
        .on ⟨m, (inner.push List.length m block).1, .idle⟩,
        ((h.push inner.nextIndex block).evictAll m (inner.push List.length m block).1.blocks
          (inner.push List.length m block).2).ack inner.nextIndex⟩ := by
  obtain ⟨blocks, current, next⟩ := inner
  obtain ⟨⟨⟨kept, held⟩, dropped⟩, hloop⟩ : ∃ r, Inner.evictLoop List.length m block.length
      blocks current = r := ⟨_, rfl⟩
  have hpush : Inner.push List.length ⟨blocks, current, next⟩ m block =
      (Inner.pushBack List.length ⟨kept, held, next + 1⟩ ⟨next, block⟩, dropped) := by
    rw [Inner.push, hloop]
  obtain ⟨synced, hsynced⟩ : ∃ d : Dir,
      d = (dir.insert (.tmp (tmpName next)) ([] : Bytes)).insert (.tmp (tmpName next)) block :=
    ⟨_, rfl⟩
  have hlookup : synced.lookup (.tmp (tmpName next)) = some block := by
    rw [hsynced]
    exact Finmap.lookup_insert _
  have herase : synced.erase (.tmp (tmpName next)) = dir.erase (.tmp (tmpName next)) := by
    apply Finmap.ext_lookup
    intro name
    by_cases hname : name = FileName.tmp (tmpName next)
    · rw [hname, Finmap.lookup_erase, Finmap.lookup_erase]
    · rw [Finmap.lookup_erase_ne hname, Finmap.lookup_erase_ne hname, hsynced,
        Finmap.lookup_insert_of_ne _ hname, Finmap.lookup_insert_of_ne _ hname]
  have hexec := exec_evict ⟨next, block⟩ (next + 1) blocks hbytes
    ((dir.erase (.tmp (tmpName next))).insert (.block next) block) (h.push next block) hloop
  rw [hpush, pushActions, append_assoc, cons_append, cons_append, cons_append, nil_append]
  simp only [exec_cons, QueueState.step, QueueState.stepQueue, Option.bind_some, ← hsynced]
  rw [hlookup, Option.map_some, Option.bind_some, herase]
  exact hexec

/-- Of two blocks with two bytes each, the second one pushes out the first where the limit is three
bytes. -/
theorem exec_push_evicting :
    exec QueueState.step
        ⟨Finmap.singleton (FileName.block 0) [1, 2], .on ⟨3, ⟨[⟨0, [1, 2]⟩], 2, 1⟩, .idle⟩,
          ⟨[[1, 2]], [0], fun _ => 0, [], [], 0⟩⟩ (pushActions [3, 4] 1) =
      some ⟨removeBlocks (Finmap.insert (.block 1) [3, 4] (Finmap.erase (.tmp (tmpName 1))
          (Finmap.singleton (FileName.block 0) [1, 2]))) [(⟨0, [1, 2]⟩, 4)],
        .on ⟨3, ⟨[⟨1, [3, 4]⟩], 2, 2⟩, .idle⟩,
        ⟨[[1, 2], [3, 4]], [0, 1], Function.update (fun _ => 0) 1 1, [], [⟨0, 4, 3, [1]⟩], 0⟩⟩ :=
  @exec_push 3 ⟨[⟨0, [1, 2]⟩], 2, 1⟩ rfl [3, 4] _ _

end Whole

end Esmetrics.Esmagent
