import Esmetrics.Lib.BinaryHeap
import Esmetrics.Lib.KeyedList
import Esmetrics.Mergeset.PartSearch

/-!
# The cache of index blocks of data

Model of `esm-mergeset/src/blockcache.rs` and of `PartSearch::get_inmemory_block`. A cache is cut
into shards by a hash of the key. A shard holds its entries in a binary heap by the time of their
last use; a block is put into it after some misses, and the least recently used ones are dropped
when they are idle or when the shard is too large.

The key of a block is its part and the offset of its items data. `writeBlocks_iff` says when the
blocks of a part that are read through the cache have different keys: a block that repeats one item
stores no items data, so that the next block has its offset.
-/

namespace Esmetrics.Mergeset

open scoped List

/-! ### The cache -/

def missesBeforeCaching : ℕ := 2

/-- How often a shard drops idle entries, in seconds. -/
def cleanIntervalSecs : ℕ := 60

/-- How many entries are dropped at a time. -/
def maxCleanPerTrigger : ℕ := 64

/-- How often a shard forgets its misses, in seconds. -/
def perKeyMissesCleanIntervalSecs : ℕ := 3 * 60

/-- Entries that were not used for so long are dropped, in seconds. -/
def maxIdleSecs : ℕ := 3 * 60

/-- The key of a cached block. -/
structure Key where
  partId : UInt64
  /-- The offset of the block in the part. -/
  offset : UInt64
deriving DecidableEq, Repr

def mix64 (z : UInt64) : UInt64 :=
  let z := (z ^^^ (z >>> 30)) * 0xBF58476D1CE4E5B9
  let z := (z ^^^ (z >>> 27)) * 0x94D049BB133111EB
  z ^^^ (z >>> 31)

def Key.hashU64 (k : Key) : UInt64 := mix64 (mix64 (k.partId + 0x9E3779B97F4A7C15) ^^^ k.offset)

/-- An entry of a shard; its position in the heap is that in the array of entries. -/
structure CacheEntry (V : Type) where
  lastAccessTime : ℕ
  key : Key
  block : V
  size : ℕ
deriving DecidableEq, Repr

/-- A shard. The map from keys to entries is the search for the key in the heap. -/
structure Shard (V : Type) where
  /-- The entries as a binary heap by the time of their last use. -/
  heap : Array (CacheEntry V)
  /-- The misses of keys, which are forgotten from time to time. -/
  perKeyMisses : List (Key × ℕ)
  sizeBytes : ℤ
  nextCleanDeadline : ℕ
  nextPerKeyMissesCleanDeadline : ℕ
deriving DecidableEq, Repr

namespace Shard

variable {V : Type} [Inhabited V]

instance : Inhabited (CacheEntry V) := ⟨⟨0, ⟨0, 0⟩, default, 0⟩⟩

def new (now : ℕ) : Shard V :=
  ⟨#[], [], 0, now + cleanIntervalSecs, now + perKeyMissesCleanIntervalSecs⟩

def heapLess (a b : CacheEntry V) : Bool := a.lastAccessTime < b.lastAccessTime

/-- Restores the heap after the time of the entry at position `i` has changed. -/
def heapFix (heap : Array (CacheEntry V)) (i : ℕ) : Array (CacheEntry V) :=
  siftUp heapLess (Esmetrics.siftDown heapLess heap i) i

def heapPush (heap : Array (CacheEntry V)) (e : CacheEntry V) : Array (CacheEntry V) :=
  siftUp heapLess (heap.push e) heap.size

/-- Removes the entry at position `i`. -/
def heapRemoveAt (heap : Array (CacheEntry V)) (i : ℕ) : Array (CacheEntry V) :=
  let last := heap.size - 1
  let heap := (if i ≠ last then heap.swapIfInBounds i last else heap).pop
  if i < heap.size then heapFix heap i else heap

/-- Removes the entry `e` at position `i`. -/
def removeAt (s : Shard V) (i : ℕ) (e : CacheEntry V) : Shard V :=
  { s with heap := heapRemoveAt s.heap i, sizeBytes := s.sizeBytes - e.size }

/-- Drops entries from the root of the heap while they were last used at the deadline or before, at
most the given number of them, and tells whether more of them are left. -/
def cleanByTimeout (lastAccessDeadline : ℕ) : ℕ → Shard V → Bool × Shard V
  | maxEntries, s =>
    match s.heap[0]? with
    | none => (false, s)
    | some e =>
      if lastAccessDeadline < e.lastAccessTime then (false, s)
      else
        match maxEntries with
        | 0 => (true, s)
        | maxEntries + 1 => cleanByTimeout lastAccessDeadline maxEntries (s.removeAt 0 e)

/-- Drops idle entries and forgets misses, when it is time for it. -/
def maybeClean (s : Shard V) (now : ℕ) : Shard V :=
  let s :=
    if now ≥ s.nextCleanDeadline then
      let (capped, s) := s.cleanByTimeout (now - maxIdleSecs) maxCleanPerTrigger
      { s with nextCleanDeadline := if capped then now + 1 else now + cleanIntervalSecs }
    else s
  if now ≥ s.nextPerKeyMissesCleanDeadline then
    { s with
      nextPerKeyMissesCleanDeadline := now + perKeyMissesCleanIntervalSecs
      perKeyMisses := [] }
  else s

/-- The misses of a key. -/
def misses (s : Shard V) (k : Key) : ℕ :=
  ((findByKey Prod.fst k s.perKeyMisses).map Prod.snd).getD 0

def setMisses (s : Shard V) (k : Key) (n : ℕ) : Shard V :=
  { s with perKeyMisses := setByKey Prod.fst (k, n) s.perKeyMisses }

/-- The block of a key, which is used now. -/
def getBlock (s : Shard V) (k : Key) (now : ℕ) : Option V × Shard V :=
  let s := s.maybeClean now
  match s.heap.findIdx? fun e => e.key = k with
  | some i =>
    let e := s.heap[i]!
    if e.lastAccessTime = now then (some e.block, s)
    else
      let heap := s.heap.setIfInBounds i { e with lastAccessTime := now }
      (some e.block, { s with heap := heapFix heap i })
  | none => (none, s.setMisses k (s.misses k + 1))

/-- Drops the least recently used entries while the shard is too large; there are `n` of them. -/
def evict (maxShardBytes : ℕ) : ℕ → Shard V → Shard V
  | 0, s => s
  | n + 1, s =>
    match s.heap[0]? with
    | none => s
    | some e => if s.sizeBytes > maxShardBytes then evict maxShardBytes n (s.removeAt 0 e) else s

/-- Puts a block, unless the key had only a few misses; tells whether it is in the shard. -/
def tryPutBlock (s : Shard V) (k : Key) (b : V) (size maxShardBytes now : ℕ) : Bool × Shard V :=
  let s := s.maybeClean now
  let misses := s.misses k
  if 0 < misses ∧ misses ≤ missesBeforeCaching then (false, s)
  else
    let s := s.setMisses k 0
    -- the block may have been put by another search
    if s.heap.any fun e => e.key = k then (true, s)
    else
      let s := { s with heap := heapPush s.heap ⟨now, k, b, size⟩, sizeBytes := s.sizeBytes + size }
      (true, s.evict maxShardBytes s.heap.size)

/-- Removes the entries of a part, of which there are at most `n`. The source takes them in the
order of a hash map, which only decides on ties in the heap. -/
def removeEntries (partId : UInt64) : ℕ → Shard V → Shard V
  | 0, s => s
  | n + 1, s =>
    match s.heap.findIdx? fun e => e.key.partId = partId with
    | none => s
    | some i => removeEntries partId n (s.removeAt i s.heap[i]!)

def removeBlocksForPart (s : Shard V) (partId : UInt64) : Shard V :=
  s.removeEntries partId s.heap.size

end Shard

/-- A cache. The number of shards is a power of two. -/
structure Cache (V : Type) where
  shardsLog : ℕ
  shards : Vector (Shard V) (2 ^ shardsLog)

namespace Cache

variable {V : Type} [Inhabited V]

def new (shardsLog now : ℕ) : Cache V := ⟨shardsLog, .replicate _ (.new now)⟩

/-- The index of the shard of a key: the low bits of its hash. -/
def shardIdx (c : Cache V) (k : Key) : Fin (2 ^ c.shardsLog) :=
  ⟨k.hashU64.toNat % 2 ^ c.shardsLog, Nat.mod_lt _ (Nat.two_pow_pos _)⟩

def getBlock (c : Cache V) (k : Key) (now : ℕ) : Option V × Cache V :=
  let (b, shard) := (c.shards.get (c.shardIdx k)).getBlock k now
  (b, { c with shards := c.shards.set (c.shardIdx k) shard })

def tryPutBlock (c : Cache V) (k : Key) (b : V) (size maxSizeBytes now : ℕ) : Bool × Cache V :=
  let maxShardBytes := maxSizeBytes / 2 ^ c.shardsLog
  let (ok, shard) := (c.shards.get (c.shardIdx k)).tryPutBlock k b size maxShardBytes now
  (ok, { c with shards := c.shards.set (c.shardIdx k) shard })

def removeBlocksForPart (c : Cache V) (partId : UInt64) : Cache V :=
  { c with shards := c.shards.map fun shard => shard.removeBlocksForPart partId }

end Cache

/-! ### What a cache holds -/

section Holds

variable {V : Type} [Inhabited V] {P : Key → V → Prop}

/-- Every entry of a heap has the property `P`. -/
def HeapHolds (P : Key → V → Prop) (heap : Array (CacheEntry V)) : Prop :=
  ∀ e ∈ heap.toList, P e.key e.block

omit [Inhabited V] in
theorem HeapHolds.of_perm {heap heap' : Array (CacheEntry V)} (h : HeapHolds P heap)
    (hperm : heap'.toList ~ heap.toList) : HeapHolds P heap' :=
  fun e he => h e (hperm.mem_iff.mp he)

theorem HeapHolds.getElem! {heap : Array (CacheEntry V)} (h : HeapHolds P heap) {i : ℕ}
    (hi : i < heap.size) : P heap[i]!.key heap[i]!.block :=
  h _ (getElem!_mem hi)

namespace Shard

theorem heapFix_perm (heap : Array (CacheEntry V)) (i : ℕ) :
    (heapFix heap i).toList ~ heap.toList :=
  (siftUp_perm _ _ _).trans (siftDown_perm _ _ _)

theorem holds_heapPush {heap : Array (CacheEntry V)} {e : CacheEntry V} (h : HeapHolds P heap)
    (he : P e.key e.block) : HeapHolds P (heapPush heap e) := by
  refine HeapHolds.of_perm ?_ (siftUp_perm _ _ _)
  intro e' he'
  rw [Array.toList_push, List.mem_append, List.mem_singleton] at he'
  obtain he' | rfl := he'
  · exact h e' he'
  · exact he

theorem holds_heapRemoveAt {heap : Array (CacheEntry V)} (h : HeapHolds P heap) (i : ℕ) :
    HeapHolds P (heapRemoveAt heap i) := by
  have hswap : HeapHolds P (if i ≠ heap.size - 1 then heap.swapIfInBounds i (heap.size - 1)
      else heap) := by
    split_ifs
    · exact h.of_perm (swapIfInBounds_perm heap i _)
    · exact h
  have hpop : HeapHolds P
      (if i ≠ heap.size - 1 then heap.swapIfInBounds i (heap.size - 1) else heap).pop := by
    intro e he
    rw [Array.toList_pop] at he
    exact hswap e (List.dropLast_subset _ he)
  simp only [heapRemoveAt]
  generalize (if i ≠ heap.size - 1 then heap.swapIfInBounds i (heap.size - 1) else heap).pop = rest
    at hpop ⊢
  split_ifs
  · exact hpop.of_perm (heapFix_perm _ _)
  · exact hpop

/-- Every entry of a shard has the property `P`. -/
def Holds (P : Key → V → Prop) (s : Shard V) : Prop := HeapHolds P s.heap

variable {s : Shard V}

theorem Holds.removeAt (h : s.Holds P) (i : ℕ) (e : CacheEntry V) : (s.removeAt i e).Holds P :=
  holds_heapRemoveAt h i

theorem Holds.cleanByTimeout (deadline n : ℕ) (h : s.Holds P) :
    (s.cleanByTimeout deadline n).2.Holds P := by
  fun_induction Shard.cleanByTimeout deadline n s with
  | case1 => exact h
  | case2 => exact h
  | case3 => exact h
  | case4 s e _ _ n ih => exact ih (h.removeAt 0 _)

theorem Holds.maybeClean (h : s.Holds P) (now : ℕ) : (s.maybeClean now).Holds P := by
  rw [Shard.maybeClean]
  split_ifs
  · exact h.cleanByTimeout _ _
  · exact h.cleanByTimeout _ _
  · exact h
  · exact h

theorem Holds.evict (maxShardBytes n : ℕ) (h : s.Holds P) : (s.evict maxShardBytes n).Holds P := by
  fun_induction Shard.evict maxShardBytes n s with
  | case1 => exact h
  | case2 => exact h
  | case3 s n e _ _ ih => exact ih (h.removeAt 0 e)
  | case4 => exact h

theorem Holds.removeEntries (partId : UInt64) (n : ℕ) (h : s.Holds P) :
    (s.removeEntries partId n).Holds P := by
  fun_induction Shard.removeEntries partId n s with
  | case1 => exact h
  | case2 => exact h
  | case3 s n i _ ih => exact ih (h.removeAt i _)

/-- A block that is found is that of an entry with its key. -/
theorem Holds.getBlock (h : s.Holds P) (k : Key) (now : ℕ) :
    (∀ b, (s.getBlock k now).1 = some b → P k b) ∧ (s.getBlock k now).2.Holds P := by
  have hclean := h.maybeClean now
  rw [Shard.getBlock]
  generalize s.maybeClean now = s at hclean ⊢
  cases hfind : s.heap.findIdx? fun e => e.key = k with
  | none => exact ⟨fun b hb => (nomatch hb), hclean⟩
  | some i =>
    obtain ⟨hi, hkey, -⟩ := Array.findIdx?_eq_some_iff_getElem.mp hfind
    have hkey : s.heap[i]!.key = k := by simpa [hi] using hkey
    have hblock : P k s.heap[i]!.block := hkey ▸ HeapHolds.getElem! hclean hi
    simp only
    split_ifs
    · exact ⟨fun b hb => Option.some.inj hb ▸ hblock, hclean⟩
    · refine ⟨fun b hb => Option.some.inj hb ▸ hblock, HeapHolds.of_perm ?_ (heapFix_perm _ _)⟩
      intro e he
      rw [Array.toList_setIfInBounds] at he
      obtain he | rfl := List.mem_or_eq_of_mem_set he
      · exact hclean e he
      · rw [hkey]
        exact hblock

theorem Holds.tryPutBlock (h : s.Holds P) {k : Key} {b : V} (hb : P k b)
    (size maxShardBytes now : ℕ) : (s.tryPutBlock k b size maxShardBytes now).2.Holds P := by
  have hclean := h.maybeClean now
  simp only [Shard.tryPutBlock]
  split_ifs
  · exact hclean
  · exact hclean
  · exact Holds.evict _ _ (holds_heapPush hclean hb)

end Shard

namespace Cache

variable {c : Cache V}

/-- Every entry of a cache has the property `P`. -/
def Holds (P : Key → V → Prop) (c : Cache V) : Prop := ∀ i, (c.shards.get i).Holds P

omit [Inhabited V] in
theorem holds_new (shardsLog now : ℕ) : (Cache.new shardsLog now : Cache V).Holds P := by
  intro i e he
  simp [Cache.new, Shard.new, Vector.get] at he

omit [Inhabited V] in
theorem Holds.set (h : c.Holds P) (i : Fin (2 ^ c.shardsLog)) {s : Shard V} (hs : s.Holds P) :
    ({ c with shards := c.shards.set i s } : Cache V).Holds P := by
  intro j
  simp only [Vector.get_eq_getElem, Vector.getElem_set]
  split_ifs
  · exact hs
  · exact h j

theorem Holds.getBlock (h : c.Holds P) (k : Key) (now : ℕ) :
    (∀ b, (c.getBlock k now).1 = some b → P k b) ∧ (c.getBlock k now).2.Holds P :=
  ⟨((h _).getBlock k now).1, h.set _ ((h _).getBlock k now).2⟩

theorem Holds.tryPutBlock (h : c.Holds P) {k : Key} {b : V} (hb : P k b)
    (size maxSizeBytes now : ℕ) : (c.tryPutBlock k b size maxSizeBytes now).2.Holds P :=
  h.set _ ((h _).tryPutBlock hb _ _ _)

theorem Holds.removeBlocksForPart (h : c.Holds P) (partId : UInt64) :
    (c.removeBlocksForPart partId).Holds P := by
  intro i
  have hmap : (c.removeBlocksForPart partId).shards.get i =
      (c.shards.get i).removeBlocksForPart partId := Vector.getElem_map _ _
  rw [hmap]
  exact (h i).removeEntries _ _

end Cache

end Holds

/-! ### Reading blocks through the cache -/

instance : Inhabited InmemoryBlock := ⟨.reset⟩

/-- The caches of the blocks of all parts: that of sparse searches and that of the others. -/
structure IbCaches where
  ibCache : Cache InmemoryBlock
  ibSparseCache : Cache InmemoryBlock

namespace IbCaches

def new (shardsLog now : ℕ) : IbCaches := ⟨.new shardsLog now, .new shardsLog now⟩

/-- The cache of a search. -/
def cache (cs : IbCaches) (sparse : Bool) : Cache InmemoryBlock :=
  if sparse then cs.ibSparseCache else cs.ibCache

def setCache (cs : IbCaches) (sparse : Bool) (c : Cache InmemoryBlock) : IbCaches :=
  if sparse then { cs with ibSparseCache := c } else { cs with ibCache := c }

end IbCaches

/-- The key of the block of a header. -/
def BlockHeader.ibKey (bh : BlockHeader) (partId : UInt64) : Key := ⟨partId, bh.itemsBlockOffset⟩

/-- What a search reads from the cache when it is asked for a block, and when. -/
structure Lookup where
  sparse : Bool
  /-- When the cache is asked. -/
  now : ℕ
  /-- When the block is put into the cache, if it was not there. -/
  putNow : ℕ
  maxSizeBytes : ℕ

section Read

variable (z : Zstd) (sizeBytes : InmemoryBlock → ℕ)

/-- The block of a header, from the cache or from the files of the part. -/
def getCachedBlock (cs : IbCaches) (l : Lookup) (partId : UInt64) (p : Part) (bh : BlockHeader) :
    Outcome InmemoryBlock × IbCaches :=
  if bh.itemsCount = 1 then (p.getInmemoryBlock z bh, cs)
  else
    match (cs.cache l.sparse).getBlock (bh.ibKey partId) l.now with
    | (some ib, c) => (.ok ib, cs.setCache l.sparse c)
    | (none, c) =>
      match p.readInmemoryBlock z bh with
      | .ok ib =>
        let (_, c) := c.tryPutBlock (bh.ibKey partId) ib (sizeBytes ib) l.maxSizeBytes l.putNow
        (.ok ib, cs.setCache l.sparse c)
      | .err e => (.err e, cs.setCache l.sparse c)
      | .panic msg => (.panic msg, cs.setCache l.sparse c)

/-- What happens to the caches while a part with the headers `bhs` is searched. Searches ask for
blocks and put what they have read, each at its own time; blocks of other parts come and go. -/
inductive IbCaches.Step (partId : UInt64) (p : Part) (bhs : List BlockHeader) :
    IbCaches → IbCaches → Prop
  | get (cs : IbCaches) (sparse : Bool) (k : Key) (now : ℕ) :
      Step partId p bhs cs (cs.setCache sparse ((cs.cache sparse).getBlock k now).2)
  | put (cs : IbCaches) (sparse : Bool) {bh : BlockHeader} {ib : InmemoryBlock}
      (hbh : bh ∈ bhs) (hcount : bh.itemsCount ≠ 1) (hread : p.readInmemoryBlock z bh = .ok ib)
      (maxSizeBytes now : ℕ) :
      Step partId p bhs cs (cs.setCache sparse
        ((cs.cache sparse).tryPutBlock (bh.ibKey partId) ib (sizeBytes ib) maxSizeBytes now).2)
  | putOther (cs : IbCaches) (sparse : Bool) {k : Key} (hk : k.partId ≠ partId) (ib : InmemoryBlock)
      (maxSizeBytes now : ℕ) :
      Step partId p bhs cs (cs.setCache sparse
        ((cs.cache sparse).tryPutBlock k ib (sizeBytes ib) maxSizeBytes now).2)
  | removeBlocksForPart (cs : IbCaches) (sparse : Bool) (partId' : UInt64) :
      Step partId p bhs cs (cs.setCache sparse ((cs.cache sparse).removeBlocksForPart partId'))

/-- The caches that a history of steps leads to. -/
def IbCaches.Reachable (partId : UInt64) (p : Part) (bhs : List BlockHeader)
    (cs : IbCaches) : Prop :=
  ∃ shardsLog now, Relation.ReflTransGen (IbCaches.Step z sizeBytes partId p bhs)
    (IbCaches.new shardsLog now) cs

/-- The blocks that are read through the cache have different keys. -/
def KeysIdentify (partId : UInt64) (bhs : List BlockHeader) : Prop :=
  bhs.Pairwise fun bh bh' =>
    bh.itemsCount ≠ 1 → bh'.itemsCount ≠ 1 → bh.ibKey partId ≠ bh'.ibKey partId

/-- After every history of the caches, a block is read as without them. -/
def Transparent (partId : UInt64) (p : Part) (bhs : List BlockHeader) : Prop :=
  ∀ cs, IbCaches.Reachable z sizeBytes partId p bhs cs → ∀ bh ∈ bhs, ∀ l,
    (getCachedBlock z sizeBytes cs l partId p bh).1 = p.getInmemoryBlock z bh

end Read

section Transparent

variable {z : Zstd} {sizeBytes : InmemoryBlock → ℕ} {partId : UInt64} {p : Part}
  {bhs : List BlockHeader} {cs cs' : IbCaches}

/-- A key of the part stands for a block that was read from its files. -/
def IsRead (z : Zstd) (partId : UInt64) (p : Part) (bhs : List BlockHeader) (k : Key)
    (ib : InmemoryBlock) : Prop :=
  k.partId = partId → ∃ bh ∈ bhs, bh.itemsCount ≠ 1 ∧ k = bh.ibKey partId ∧
    p.readInmemoryBlock z bh = .ok ib

/-- Every entry of the caches has the property `P`. -/
def IbCaches.Holds (P : Key → InmemoryBlock → Prop) (cs : IbCaches) : Prop :=
  ∀ sparse, (cs.cache sparse).Holds P

theorem IbCaches.Holds.setCache {P : Key → InmemoryBlock → Prop} (h : cs.Holds P) (sparse : Bool)
    {c : Cache InmemoryBlock} (hc : c.Holds P) : (cs.setCache sparse c).Holds P := by
  intro sparse'
  cases sparse <;> cases sparse' <;> first | exact hc | exact h false | exact h true

@[simp] theorem IbCaches.cache_setCache (cs : IbCaches) (sparse : Bool) (c : Cache InmemoryBlock) :
    (cs.setCache sparse c).cache sparse = c := by
  cases sparse <;> rfl

@[simp] theorem IbCaches.setCache_setCache (cs : IbCaches) (sparse : Bool)
    (c c' : Cache InmemoryBlock) :
    (cs.setCache sparse c).setCache sparse c' = cs.setCache sparse c' := by
  cases sparse <;> rfl

theorem IbCaches.Step.holds (hstep : IbCaches.Step z sizeBytes partId p bhs cs cs')
    (h : cs.Holds (IsRead z partId p bhs)) : cs'.Holds (IsRead z partId p bhs) := by
  cases hstep with
  | get sparse k now => exact h.setCache sparse ((h sparse).getBlock k now).2
  | put sparse hbh hcount hread maxSizeBytes now =>
    exact h.setCache sparse
      ((h sparse).tryPutBlock (fun _ => ⟨_, hbh, hcount, rfl, hread⟩) _ _ _)
  | putOther sparse hk ib maxSizeBytes now =>
    exact h.setCache sparse ((h sparse).tryPutBlock (fun hpart => absurd hpart hk) _ _ _)
  | removeBlocksForPart sparse partId' =>
    exact h.setCache sparse ((h sparse).removeBlocksForPart partId')

theorem IbCaches.Reachable.holds (h : cs.Reachable z sizeBytes partId p bhs) :
    cs.Holds (IsRead z partId p bhs) := by
  obtain ⟨shardsLog, now, hsteps⟩ := h
  induction hsteps with
  | refl =>
    intro sparse
    cases sparse <;> exact Cache.holds_new shardsLog now
  | tail _ hstep ih => exact hstep.holds ih

theorem KeysIdentify.ne (hkeys : KeysIdentify partId bhs) {bh bh' : BlockHeader} (hbh : bh ∈ bhs)
    (hbh' : bh' ∈ bhs) (hne : bh ≠ bh') (hcount : bh.itemsCount ≠ 1)
    (hcount' : bh'.itemsCount ≠ 1) :
    bh.ibKey partId ≠ bh'.ibKey partId := by
  have hsymm : Std.Symm fun bh bh' : BlockHeader =>
      bh.itemsCount ≠ 1 → bh'.itemsCount ≠ 1 → bh.ibKey partId ≠ bh'.ibKey partId :=
    ⟨fun _ _ h hc hc' => (h hc' hc).symm⟩
  exact List.Pairwise.forall hkeys hbh hbh' hne hcount hcount'

/-- Blocks with different keys are read through the caches as without them. -/
theorem KeysIdentify.transparent (hkeys : KeysIdentify partId bhs) :
    Transparent z sizeBytes partId p bhs := by
  intro cs hcs bh hbh l
  rw [getCachedBlock, Part.getInmemoryBlock]
  split_ifs with hcount
  · rfl
  · have hget := ((hcs.holds l.sparse).getBlock (bh.ibKey partId) l.now).1
    revert hget
    cases (cs.cache l.sparse).getBlock (bh.ibKey partId) l.now with
    | mk b c =>
      intro hget
      cases b with
      | none => cases p.readInmemoryBlock z bh <;> rfl
      | some ib =>
        obtain ⟨bh', hbh', hcount', hkey, hread⟩ := hget ib rfl rfl
        by_cases heq : bh = bh'
        · rw [heq, hread]
        · exact absurd hkey (hkeys.ne hbh hbh' heq hcount hcount')

/-- Asking for a block is a history of the caches. -/
theorem IbCaches.Reachable.getCachedBlock (h : cs.Reachable z sizeBytes partId p bhs) (l : Lookup)
    {bh : BlockHeader} (hbh : bh ∈ bhs) :
    (getCachedBlock z sizeBytes cs l partId p bh).2.Reachable z sizeBytes partId p bhs := by
  rw [Mergeset.getCachedBlock]
  split_ifs with hcount
  · exact h
  · obtain ⟨shardsLog, now, hsteps⟩ := h
    have hget := hsteps.tail (IbCaches.Step.get cs l.sparse (bh.ibKey partId) l.now)
    revert hget
    cases (cs.cache l.sparse).getBlock (bh.ibKey partId) l.now with
    | mk b c =>
      intro hget
      cases b with
      | some ib => exact ⟨shardsLog, now, hget⟩
      | none =>
        cases hread : p.readInmemoryBlock z bh with
        | err e => exact ⟨shardsLog, now, hget⟩
        | panic msg => exact ⟨shardsLog, now, hget⟩
        | ok ib =>
          have hput := hget.tail
            (IbCaches.Step.put _ l.sparse hbh hcount hread l.maxSizeBytes l.putNow)
          simp only [cache_setCache, setCache_setCache] at hput
          exact ⟨shardsLog, now, hput⟩

end Transparent

/-! ### The blocks that a writer stores -/

/-- Writes blocks one after the other; returns the writer and the headers of the blocks. -/
def BlockStreamWriter.writeBlocks (z : Zstd) :
    BlockStreamWriter → List InmemoryBlock → Outcome (BlockStreamWriter × List BlockHeader)
  | w, [] => .ok (w, [])
  | w, ib :: blocks => do
    let (w', m, _) ← w.writeBlock z ib
    let (w'', bhs) ← w'.writeBlocks z blocks
    .ok (w'', w.blockHeader m :: bhs)

namespace InmemoryBlock

theorem allEqual_of_prefixDeltas {prevItem : Bytes} {prev : UInt64} {items : List Bytes}
    (hsorted : (prevItem :: items).Pairwise (· ≤ ·))
    (h : (prefixDeltas prevItem prev items).1 = []) :
    ∀ item ∈ items, item = prevItem := by
  induction items generalizing prevItem prev with
  | nil => simp
  | cons item items ih =>
    simp only [prefixDeltas, List.append_eq_nil_iff] at h
    obtain ⟨hle, hrest⟩ := List.pairwise_cons.mp hsorted
    have hitem : item = prevItem := by
      have htake := take_append_drop_commonPrefixLen prevItem item
      rw [h.1, List.append_nil] at htake
      refine le_antisymm ?_ (hle item List.mem_cons_self)
      conv_rhs => rw [← List.take_append_drop (commonPrefixLen prevItem item) prevItem, htake]
      exact le_append_right _ _
    intro item' hitem'
    obtain rfl | hitem' := List.mem_cons.mp hitem'
    · exact hitem
    · exact (ih hrest h.2 item' hitem').trans hitem

/-- Sorted items behind their longest common prefix: nothing is left of them if they are all the
same. -/
theorem flatten_suffixes_eq_nil_iff {first : Bytes} {suffixes : List Bytes}
    (hsorted : (first :: suffixes).Pairwise (· ≤ ·))
    (hlongest : suffixes ≠ [] → ∀ q : Bytes, (∀ s ∈ first :: suffixes, q <+: s) → q = []) :
    suffixes.flatten = [] ↔ ∀ s ∈ suffixes, s = first := by
  by_cases hne : suffixes = []
  · simp [hne]
  · rw [List.flatten_eq_nil_iff]
    constructor
    · intro h s hs
      have hle := (List.pairwise_cons.mp hsorted).1 s hs
      rw [h s hs] at hle ⊢
      exact le_antisymm (le_append_right [] first) hle
    · intro h s hs
      have hfirst : first = [] := by
        refine hlongest hne first fun s hs => ?_
        obtain rfl | hs := List.mem_cons.mp hs
        · exact List.prefix_rfl
        · rw [h s hs]
      rw [h s hs, hfirst]

theorem lt_mul_ofRat {size len : ℕ} (hsize : size ≤ maxInmemoryBlockSize) (hlen : 2 ^ 32 ≤ len) :
    F64.lt (F64.mul (.ofRat (9 / 10)) (.ofRat size)) (.ofRat len) = true := by
  have hlen' : ((2 : ℚ) ^ 32) ≤ len := by exact_mod_cast hlen
  have hlow := (half_le_roundF64_le_two (q := len) (by linarith)).1
  have hsize' : (size : ℚ) ≤ 65536 := by exact_mod_cast hsize
  have hnine := half_le_roundF64_le_two (q := 9 / 10) (by norm_num)
  simp only [F64.lt, F64.mul, F64.ofRat, decide_eq_true_eq]
  obtain rfl | hpos := Nat.eq_zero_or_pos size
  · have hzero : roundF64 0 = 0 := if_pos rfl
    rw [Nat.cast_zero, hzero, mul_zero, hzero]
    linarith
  · have hpos' : (0 : ℚ) < size := by exact_mod_cast hpos
    have hround := half_le_roundF64_le_two hpos'
    have hprod : 0 < roundF64 (9 / 10) * roundF64 size :=
      mul_pos (roundF64_pos (by norm_num)) (roundF64_pos hpos')
    have hle : roundF64 (9 / 10) * roundF64 size ≤ (2 * (9 / 10)) * (2 * 65536) :=
      mul_le_mul hnine.2 (by linarith [hround.2]) (roundF64_pos hpos').le (by norm_num)
    have hmul := (half_le_roundF64_le_two hprod).2
    linarith

/-- All items of the block are the same. -/
def AllEqual (ib : InmemoryBlock) : Prop := ∃ item, ∀ item' ∈ ib.items, item' = item

/-- What the code knows of a block that it writes: it has items in their order, and they fit. -/
structure Writable (ib : InmemoryBlock) : Prop where
  ne_nil : ib.items ≠ []
  sorted : ib.items.Pairwise (· ≤ ·)
  size_le : ib.dataLen ≤ maxInmemoryBlockSize

/-- The items of a block behind its common prefix. -/
theorem Ready.exists_suffixes {ib : InmemoryBlock} (h : ib.Ready) (hne : ib.items ≠ []) :
    ∃ first suffixes, ib.items = (first :: suffixes).map (ib.commonPrefix ++ ·) ∧
      (first :: suffixes).Pairwise (· ≤ ·) := by
  obtain ⟨cp, items⟩ := ib
  have hmap : (items.map (List.drop cp.length)).map (cp ++ ·) = items := by
    rw [List.map_map]
    refine (List.map_congr_left fun item hitem => ?_).trans (List.map_id items)
    obtain ⟨suffix, rfl⟩ := h.isPrefix item hitem
    simp
  obtain ⟨first, suffixes, hcons⟩ := List.exists_cons_of_ne_nil
    (mt List.map_eq_nil_iff.mp hne : items.map (List.drop cp.length) ≠ [])
  rw [hcons] at hmap
  refine ⟨first, suffixes, hmap.symm, ?_⟩
  have hsorted := h.sorted
  simp only [← hmap, List.pairwise_map, append_le_append_iff] at hsorted
  exact hsorted

/-- What is stored of the items of a block: nothing exactly if all of them are the same. -/
theorem itemsData_marshalData {z : Zstd} (hz : z.RoundTrips) {ib : InmemoryBlock}
    (hready : ib.Ready)
    (hsize : ib.dataLen ≤ maxInmemoryBlockSize)
    (hlongest : 1 < ib.items.length → IsLongestCommonPrefix ib.commonPrefix ib.items)
    {m : Marshaled} {compressLevel : ℤ} (hm : ib.marshalData z compressLevel = .ok m) :
    (m.itemsCount = 1 ↔ ib.items.length = 1) ∧ (m.sb.itemsData = [] ↔ ib.AllEqual) ∧
      m.sb.itemsData.length < 2 ^ 32 := by
  simp only [marshalData] at hm
  obtain ⟨_, hne, hrest⟩ := Outcome.bind_eq_ok_iff.mp hm
  obtain ⟨_, hlen, hstored⟩ := Outcome.bind_eq_ok_iff.mp hrest
  clear hm hrest
  replace hne := Outcome.of_assert hne
  replace hlen := Outcome.of_assert hlen
  obtain ⟨first, suffixes, hitems, hsorted⟩ := hready.exists_suffixes hne
  have hdata : ib.dataLen = ib.commonPrefix.length * ib.items.length +
      ((first :: suffixes).map List.length).sum := by
    rw [dataLen, hitems, sum_length_map_append, List.length_map]
  have htail : ib.items.tail.map (List.drop ib.commonPrefix.length) = suffixes := by
    rw [hitems, List.map_cons, List.tail_cons, List.map_map]
    exact (List.map_congr_left fun s _ => List.drop_left).trans (List.map_id suffixes)
  have hhead : ib.items.head? = some (ib.commonPrefix ++ first) := by simp [hitems]
  have hcount : (UInt32.ofNat ib.items.length = 1) ↔ ib.items.length = 1 := by
    rw [← UInt32.toNat_inj, UInt32.toNat_ofNat', Nat.mod_eq_of_lt hlen]
    rfl
  have hequal : ib.AllEqual ↔ ∀ s ∈ suffixes, s = first := by
    rw [AllEqual, hitems]
    simp only [List.map_cons, List.mem_cons, forall_eq_or_imp, List.mem_map,
      forall_exists_index, and_imp, forall_apply_eq_imp_iff₂]
    constructor
    · rintro ⟨item, rfl, h⟩ s hs
      exact List.append_cancel_left (h s hs)
    · intro h
      exact ⟨_, rfl, fun s hs => by rw [h s hs]⟩
  have hplain : (suffixes.flatten = [] ↔ ib.AllEqual) ∧ suffixes.flatten.length < 2 ^ 32 := by
    refine ⟨?_, ?_⟩
    · rw [hequal]
      refine flatten_suffixes_eq_nil_iff hsorted fun hne q hq => ?_
      have hmany : 1 < ib.items.length := by
        rw [hitems]
        simpa using List.length_pos_iff.mpr hne
      have hle := (hlongest hmany).2 (ib.commonPrefix ++ q) fun item hitem => by
        rw [hitems] at hitem
        obtain ⟨s, hs, rfl⟩ := List.mem_map.mp hitem
        exact (List.prefix_append_right_inj _).mpr (hq s hs)
      have hle := hle.length_le
      rw [List.length_append] at hle
      exact List.eq_nil_of_length_eq_zero (by omega)
    · rw [List.length_flatten]
      rw [List.map_cons, List.sum_cons] at hdata
      rw [maxInmemoryBlockSize] at hsize
      omega
  rw [htail, hhead, Outcome.index_some, Outcome.ok_bind, List.drop_left] at hstored
  split_ifs at hstored with hsmall hratio
  · obtain rfl := Outcome.ok.inj hstored
    exact ⟨hcount, hplain⟩
  · obtain rfl := Outcome.ok.inj hstored
    exact ⟨hcount, hplain⟩
  · obtain rfl := Outcome.ok.inj hstored
    refine ⟨hcount, ?_, ?_⟩
    · have hnot : ¬ ib.AllEqual := by
        intro h
        have hnil := List.flatten_eq_nil_iff.mp (hplain.1.mpr h)
        have hfirst := hequal.mp h
        rw [not_or, not_lt, not_lt, hdata, Nat.add_sub_cancel_left] at hsmall
        obtain ⟨s, suffixes, rfl⟩ : ∃ s rest, suffixes = s :: rest := by
          refine List.exists_cons_of_ne_nil fun hnil => ?_
          rw [hitems, hnil] at hsmall
          simp at hsmall
        have hzero : ((first :: s :: suffixes).map List.length).sum = 0 := by
          refine List.sum_eq_zero fun n hn => ?_
          obtain ⟨t, ht, rfl⟩ := List.mem_map.mp hn
          obtain rfl | ht := List.mem_cons.mp ht
          · rw [← hfirst s List.mem_cons_self, hnil s List.mem_cons_self, List.length_nil]
          · rw [hnil t ht, List.length_nil]
        omega
      refine iff_of_false (fun h => hnot (hequal.mpr ?_)) hnot
      have hround := hz (prefixDeltas first 0 suffixes).1 compressLevel
      have hcompress : compressZstdLevel z [] (prefixDeltas first 0 suffixes).1
          compressLevel = [] := h
      rw [hcompress] at hround
      exact allEqual_of_prefixDeltas hsorted (Outcome.ok.inj hround).symm
    · by_contra hbig
      exact hratio (lt_mul_ofRat (by omega) (not_lt.mp hbig))

/-- What is stored of a sorted block. -/
theorem marshalSortedData_spec {z : Zstd} (hz : z.RoundTrips) {ib ib' : InmemoryBlock}
    (h : ib.Writable)
    {m : Marshaled} {compressLevel : ℤ} (hm : ib.marshalSortedData z compressLevel = .ok (m, ib')) :
    (m.itemsCount = 1 ↔ ib.items.length = 1) ∧ (m.sb.itemsData = [] ↔ ib.AllEqual) ∧
      m.sb.itemsData.length < 2 ^ 32 := by
  obtain ⟨hitems, hready, -, hmany⟩ := updateCommonPrefixSorted_spec h.sorted
  have hsize : ib.updateCommonPrefixSorted.dataLen ≤ maxInmemoryBlockSize := by
    rw [dataLen, hitems]
    exact h.size_le
  rw [marshalSortedData] at hm
  obtain ⟨m', hm', heq⟩ := Outcome.bind_eq_ok_iff.mp hm
  obtain ⟨rfl, -⟩ := Prod.mk.inj (Outcome.ok.inj heq)
  have hspec := itemsData_marshalData hz hready hsize (by rwa [hitems]) hm'
  rwa [AllEqual, hitems] at hspec

/-- The block repeats one item. -/
def IsRepeated (ib : InmemoryBlock) : Prop := ib.items.length ≠ 1 ∧ ib.AllEqual

end InmemoryBlock

namespace BlockStreamWriter

variable {z : Zstd} {w w' : BlockStreamWriter}

theorem items_flushIndexData (w : BlockStreamWriter) :
    (w.flushIndexData z).itemsWriter = w.itemsWriter ∧
      (w.flushIndexData z).itemsBlockOffset = w.itemsBlockOffset := by
  rw [flushIndexData]
  split_ifs
  · exact ⟨rfl, rfl⟩
  · exact ⟨rfl, rfl⟩

/-- Writing a block adds its items data to the items of the part. -/
theorem items_writeMarshaled (w : BlockStreamWriter) (m : InmemoryBlock.Marshaled) :
    (w.writeMarshaled z m).itemsWriter = w.itemsWriter ++ m.sb.itemsData ∧
      (w.writeMarshaled z m).itemsBlockOffset =
        w.itemsBlockOffset + (w.blockHeader m).itemsBlockSize.toUInt64 := by
  simp only [writeMarshaled]
  split_ifs
  · exact items_flushIndexData _
  · exact items_flushIndexData _
  · exact ⟨rfl, rfl⟩
  · exact ⟨rfl, rfl⟩

/-- Blocks with their headers, laid from an offset of the items on. -/
def Laid : ℕ → List InmemoryBlock → List BlockHeader → Prop
  | _, [], [] => True
  | off, ib :: blocks, bh :: bhs =>
    bh.itemsBlockOffset.toNat = off ∧ (bh.itemsCount = 1 ↔ ib.items.length = 1) ∧
      (bh.itemsBlockSize.toNat = 0 ↔ ib.AllEqual) ∧ Laid (off + bh.itemsBlockSize.toNat) blocks bhs
  | _, _, _ => False

variable {blocks : List InmemoryBlock}

theorem length_le_of_writeBlocks {bhs : List BlockHeader}
    (hw : w.writeBlocks z blocks = .ok (w', bhs)) :
    w.itemsWriter.length ≤ w'.itemsWriter.length := by
  induction blocks generalizing w bhs with
  | nil =>
    obtain ⟨rfl, -⟩ := Prod.mk.inj (Outcome.ok.inj hw)
    exact le_rfl
  | cons ib blocks ih =>
    rw [writeBlocks] at hw
    obtain ⟨⟨w₁, m, ib'⟩, hwrite, hw⟩ := Outcome.bind_eq_ok_iff.mp hw
    obtain ⟨⟨w₂, bhs'⟩, hrest, heq⟩ := Outcome.bind_eq_ok_iff.mp hw
    obtain ⟨rfl, -⟩ := Prod.mk.inj (Outcome.ok.inj heq)
    obtain ⟨⟨m', ib''⟩, -, heq⟩ := Outcome.bind_eq_ok_iff.mp hwrite
    obtain ⟨rfl, heq⟩ := Prod.mk.inj (Outcome.ok.inj heq)
    refine le_trans ?_ (ih hrest)
    rw [(items_writeMarshaled w m').1, List.length_append]
    exact Nat.le_add_right _ _

/-- Written blocks are laid behind the items that are already there. -/
theorem laid_writeBlocks (hz : z.RoundTrips) {bhs : List BlockHeader}
    (hblocks : ∀ ib ∈ blocks, ib.Writable)
    (hoff : w.itemsBlockOffset.toNat = w.itemsWriter.length)
    (hw : w.writeBlocks z blocks = .ok (w', bhs))
    (hsize : w'.itemsWriter.length < 2 ^ 64) :
    Laid w.itemsWriter.length blocks bhs := by
  induction blocks generalizing w bhs with
  | nil =>
    obtain ⟨-, rfl⟩ := Prod.mk.inj (Outcome.ok.inj hw)
    trivial
  | cons ib blocks ih =>
    rw [writeBlocks] at hw
    obtain ⟨⟨w₁, m, ib'⟩, hwrite, hw⟩ := Outcome.bind_eq_ok_iff.mp hw
    obtain ⟨⟨w₂, bhs'⟩, hrest, heq⟩ := Outcome.bind_eq_ok_iff.mp hw
    obtain ⟨rfl, rfl⟩ := Prod.mk.inj (Outcome.ok.inj heq)
    obtain ⟨⟨m', ib''⟩, hm, heq⟩ := Outcome.bind_eq_ok_iff.mp hwrite
    obtain ⟨rfl, hpair⟩ := Prod.mk.inj (Outcome.ok.inj heq)
    obtain ⟨rfl, rfl⟩ := Prod.mk.inj hpair
    obtain ⟨hcount, hnil, hlen⟩ :=
      InmemoryBlock.marshalSortedData_spec hz (hblocks ib List.mem_cons_self) hm
    obtain ⟨hitems, hoffset⟩ := items_writeMarshaled (z := z) w m'
    have hblock : (w.blockHeader m').itemsBlockSize.toNat = m'.sb.itemsData.length := by
      rw [blockHeader, UInt32.toNat_ofNat', Nat.mod_eq_of_lt hlen]
    have hle := length_le_of_writeBlocks hrest
    rw [hitems, List.length_append] at hle
    have hoff' : (w.writeMarshaled z m').itemsBlockOffset.toNat =
        (w.writeMarshaled z m').itemsWriter.length := by
      rw [hoffset, hitems, UInt64.toNat_add, UInt32.toNat_toUInt64, hblock, hoff,
        List.length_append]
      exact Nat.mod_eq_of_lt (by omega)
    have hlaid := ih (fun ib hib => hblocks ib (List.mem_cons_of_mem _ hib)) hoff' hrest
    rw [hitems, List.length_append] at hlaid
    refine ⟨hoff, hcount, ?_, ?_⟩
    · rw [hblock, List.length_eq_zero_iff, hnil]
    · rwa [hblock]

/-- Headers stand at their offset or behind it. -/
theorem Laid.le {off : ℕ} {bhs : List BlockHeader} (h : Laid off blocks bhs) :
    ∀ bh ∈ bhs, off ≤ bh.itemsBlockOffset.toNat := by
  fun_induction Laid off blocks bhs with
  | case1 => simp
  | case2 off ib blocks bh bhs ih =>
    intro bh' hbh'
    obtain rfl | hbh' := List.mem_cons.mp hbh'
    · exact h.1.ge
    · exact le_trans (Nat.le_add_right _ _) (ih h.2.2.2 bh' hbh')
  | case3 => exact h.elim

/-- The first block with more than one item stands at the offset itself: single items before it are
stored in their headers only. -/
theorem Laid.exists_at {off : ℕ} {bhs : List BlockHeader} (h : Laid off blocks bhs) :
    (∀ ib ∈ blocks, ib.items.length = 1) ∧ (∀ bh ∈ bhs, bh.itemsCount = 1) ∨
      (∃ ib ∈ blocks, ib.items.length ≠ 1) ∧
        ∃ bh ∈ bhs, bh.itemsCount ≠ 1 ∧ bh.itemsBlockOffset.toNat = off := by
  fun_induction Laid off blocks bhs with
  | case1 => simp
  | case2 off ib blocks bh bhs ih =>
    obtain ⟨hoff, hcount, hsize, hrest⟩ := h
    by_cases hone : ib.items.length = 1
    · obtain ⟨item, hitem⟩ := List.length_eq_one_iff.mp hone
      have hzero : bh.itemsBlockSize.toNat = 0 :=
        hsize.mpr ⟨item, by rw [hitem]; exact fun _ => List.mem_singleton.mp⟩
      rw [hzero, Nat.add_zero] at ih hrest
      obtain ⟨hblocks, hbhs⟩ | ⟨⟨ib', hib', hne⟩, bh', hbh', hne', hoff'⟩ := ih hrest
      · refine .inl ⟨List.forall_mem_cons.mpr ⟨hone, hblocks⟩, ?_⟩
        exact List.forall_mem_cons.mpr ⟨hcount.mpr hone, hbhs⟩
      · exact .inr ⟨⟨ib', List.mem_cons_of_mem _ hib', hne⟩, bh', List.mem_cons_of_mem _ hbh',
          hne', hoff'⟩
    · exact .inr ⟨⟨ib, List.mem_cons_self, hone⟩, bh, List.mem_cons_self, mt hcount.mp hone, hoff⟩
  | case3 => exact h.elim

/-- The blocks that repeat an item are followed by blocks of a single item only. -/
def RepeatedLast (blocks : List InmemoryBlock) : Prop :=
  blocks.Pairwise fun ib ib' => ib.IsRepeated → ib'.items.length = 1

theorem Laid.keysIdentify_iff {off : ℕ} {bhs : List BlockHeader} (h : Laid off blocks bhs)
    (partId : UInt64) : KeysIdentify partId bhs ↔ RepeatedLast blocks := by
  fun_induction Laid off blocks bhs with
  | case1 => simp [KeysIdentify, RepeatedLast]
  | case2 off ib blocks bh bhs ih =>
    obtain ⟨hoff, hcount, hsize, hrest⟩ := h
    rw [KeysIdentify, RepeatedLast, List.pairwise_cons, List.pairwise_cons]
    refine and_congr ?_ (ih hrest)
    have hkey : ∀ bh' : BlockHeader, bh.ibKey partId = bh'.ibKey partId ↔
        bh'.itemsBlockOffset.toNat = off := by
      intro bh'
      rw [← hoff, UInt64.toNat_inj, BlockHeader.ibKey, BlockHeader.ibKey, Key.mk.injEq]
      exact (and_iff_right rfl).trans eq_comm
    simp only [hkey, ne_eq, hcount]
    by_cases hone : ib.items.length = 1
    · simp [hone, InmemoryBlock.IsRepeated]
    · by_cases hequal : ib.AllEqual
      · rw [hsize.mpr hequal, Nat.add_zero] at hrest
        have hrepeated : ib.IsRepeated := ⟨hone, hequal⟩
        obtain ⟨hblocks, hbhs⟩ | ⟨⟨ib', hib', hne⟩, bh', hbh', hne', hoff'⟩ := hrest.exists_at
        · exact iff_of_true (fun bh' hbh' _ hne => absurd (hbhs bh' hbh') hne)
            fun ib' hib' _ => hblocks ib' hib'
        · exact iff_of_false (fun hall => hall bh' hbh' hone hne' hoff')
            fun hall => hne (hall ib' hib' hrepeated)
      · have hpos := Nat.pos_of_ne_zero (mt hsize.mp hequal)
        refine iff_of_true (fun bh' hbh' _ _ hoff' => ?_) fun _ _ hrepeated =>
          absurd hrepeated.2 hequal
        have hle := hrest.le bh' hbh'
        omega
  | case3 => exact h.elim

end BlockStreamWriter

/-- **The keys of cached blocks.** The blocks of a part that are read through the cache have
different keys, and are then read as without it, if and only if those that repeat one item are
followed by single items only. -/
theorem writeBlocks_iff {z : Zstd} (hz : z.RoundTrips) {blocks : List InmemoryBlock}
    (hblocks : ∀ ib ∈ blocks, ib.Writable) {compressLevel : ℤ} {w : BlockStreamWriter}
    {bhs : List BlockHeader}
    (hw : (BlockStreamWriter.new compressLevel).writeBlocks z blocks = .ok (w, bhs))
    (hsize : w.itemsWriter.length < 2 ^ 64) (sizeBytes : InmemoryBlock → ℕ) (partId : UInt64)
    (p : Part) :
    (KeysIdentify partId bhs ∧ Transparent z sizeBytes partId p bhs) ↔
      BlockStreamWriter.RepeatedLast blocks := by
  have hlaid := BlockStreamWriter.laid_writeBlocks hz hblocks rfl hw hsize
  rw [← hlaid.keysIdentify_iff partId]
  exact ⟨And.left, fun h => ⟨h, h.transparent⟩⟩

/-- Two blocks, and none of them repeats an item. -/
theorem writeBlocks_iff_two :
    ∃ w bhs, (BlockStreamWriter.new 1).writeBlocks Zstd.stored [⟨[], [[1], [2]]⟩,
      ⟨[], [[3], [4]]⟩] =
        .ok (w, bhs) ∧
      KeysIdentify 7 bhs ∧
        Transparent Zstd.stored (fun _ => 100) 7 ⟨default, "", [], [], w.itemsWriter,
          w.lensWriter⟩ bhs := by
  have hblocks : ∀ ib ∈ [(⟨[], [[1], [2]]⟩ : InmemoryBlock), ⟨[], [[3], [4]]⟩], ib.Writable := by
    intro ib hib
    simp only [List.mem_cons, List.not_mem_nil, or_false] at hib
    obtain rfl | rfl := hib <;> exact ⟨by decide, by decide, by decide⟩
  obtain ⟨⟨w, bhs⟩, hw⟩ : ∃ r, (BlockStreamWriter.new 1).writeBlocks Zstd.stored
      [⟨[], [[1], [2]]⟩, ⟨[], [[3], [4]]⟩] = .ok r := ⟨_, rfl⟩
  have hsize : w.itemsWriter.length < 2 ^ 64 := by
    obtain ⟨rfl, -⟩ := Prod.mk.inj (Outcome.ok.inj hw)
    decide +kernel
  refine ⟨w, bhs, hw,
    (writeBlocks_iff Zstd.roundTrips_stored hblocks hw hsize (fun _ => 100) 7 _).mpr ?_⟩
  refine List.pairwise_pair.mpr fun h => ?_
  obtain ⟨item, hitem⟩ := h.2
  exact absurd ((hitem [1] (by simp)).trans (hitem [2] (by simp)).symm) (by decide)

/-- The header of a block of the item 1, twice. -/
def repeatedHeader : BlockHeader := ⟨[1], [1], .plain, 2, 0, 0, 0, 8⟩

/-- The header of the block behind it. -/
def nextHeader : BlockHeader := ⟨[], [2], .plain, 2, 0, 8, 1, 8⟩

/-- The part of these two blocks. -/
def repeatedPart : Part where
  ph := ⟨4, 2, [1], [3]⟩
  path := ""
  mrs := []
  indexFile := []
  itemsFile := [3]
  lensFile := marshalUint64 (marshalUint64 [] 0) 1

/-- Asks for the blocks of headers, one after the other. -/
def lookups (z : Zstd) (sizeBytes : InmemoryBlock → ℕ) (l : Lookup) (partId : UInt64) (p : Part) :
    List BlockHeader → IbCaches → IbCaches
  | [], cs => cs
  | bh :: bhs, cs => lookups z sizeBytes l partId p bhs
    (getCachedBlock z sizeBytes cs l partId p bh).2

theorem reachable_lookups {z : Zstd} {sizeBytes : InmemoryBlock → ℕ} (l : Lookup) {partId : UInt64}
    {p : Part} {bhs : List BlockHeader} {cs : IbCaches} (h : cs.Reachable z sizeBytes partId p bhs)
    {asked : List BlockHeader} (hasked : ∀ bh ∈ asked, bh ∈ bhs) :
    (lookups z sizeBytes l partId p asked cs).Reachable z sizeBytes partId p bhs := by
  induction asked generalizing cs with
  | nil => exact h
  | cons bh asked ih =>
    obtain ⟨hbh, hasked⟩ := List.forall_mem_cons.mp hasked
    exact ih (h.getCachedBlock l hbh) hasked

/-- A block that repeats an item, and one behind it with the same key: once the first one is in the
cache, it is read in place of the other one. -/
theorem writeBlocks_repeated :
    ∃ w, (BlockStreamWriter.new 1).writeBlocks Zstd.stored [⟨[], [[1], [1]]⟩, ⟨[], [[2], [3]]⟩] =
        .ok (w, [repeatedHeader, nextHeader]) ∧
      repeatedPart.itemsFile = w.itemsWriter ∧ repeatedPart.lensFile = w.lensWriter ∧
      ¬ KeysIdentify 7 [repeatedHeader, nextHeader] ∧
      ∃ cs l, IbCaches.Reachable Zstd.stored (fun _ => 100) 7 repeatedPart [repeatedHeader,
        nextHeader] cs ∧
        (getCachedBlock Zstd.stored (fun _ => 100) cs l 7 repeatedPart nextHeader).1 =
          .ok ⟨[1], [[1], [1]]⟩ ∧
        repeatedPart.getInmemoryBlock Zstd.stored nextHeader = .ok ⟨[], [[2], [3]]⟩ := by
  let l : Lookup := ⟨false, 0, 0, 1000⟩
  obtain ⟨w, hw⟩ : ∃ w, (BlockStreamWriter.new 1).writeBlocks Zstd.stored
      [⟨[], [[1], [1]]⟩, ⟨[], [[2], [3]]⟩] = .ok (w, [repeatedHeader, nextHeader]) := ⟨_, rfl⟩
  obtain ⟨hitems, hlens⟩ : repeatedPart.itemsFile = w.itemsWriter ∧
      repeatedPart.lensFile = w.lensWriter := by
    obtain ⟨rfl, -⟩ := Prod.mk.inj (Outcome.ok.inj hw)
    exact ⟨rfl, rfl⟩
  refine ⟨w, hw, hitems, hlens, fun h => ?_, lookups Zstd.stored (fun _ => 100) l 7 repeatedPart
    (List.replicate 3 repeatedHeader) (.new 0 0), l, ?_, ?_, ?_⟩
  · exact List.pairwise_pair.mp h (by decide) (by decide) rfl
  · refine reachable_lookups l ⟨0, 0, .refl⟩ fun bh hbh => ?_
    rw [List.eq_of_mem_replicate hbh]
    exact List.mem_cons_self
  · decide +kernel
  · decide +kernel

end Esmetrics.Mergeset
