import Esmetrics.Common.Decimal
import Esmetrics.Lib.GroupFold
import Esmetrics.Lib.Leb128
import Esmetrics.Lib.StableSort
import Esmetrics.Lib.Utf8
import Esmetrics.Relabel.Label

/-!
# Streaming deduplication

Model of `esm-streamaggr/src/dedup.rs`, of `Inner` of `deduplicator.rs`, and of the keys of `key.rs`
that it uses. Of the samples of a series one is kept between two flushes: the rule for two samples
is applied to the one that is kept and each new one. A value is an `f64`, given by its bits.

The rule keeps a sample that no other outranks (`IsLatest.step`), so that what is flushed is the
latest sample of each series with the greatest of its values (`flush_emits`). Latest samples of the
same samples are the same but for the sign of a zero (`IsLatest.unique`), whatever the order they
came in (`deduplicator_same`).
-/

namespace Esmetrics.Streamaggr.Dedup

open List

/-! ### Floats by their bits -/

/-- The bits without the sign. -/
def magnitude (v : UInt64) : ℕ := v.toNat % 2 ^ 63

def isNan (v : UInt64) : Bool := decide (0x7ff0000000000000 < magnitude v)

/-- The place of a number in the order of the numbers; that of both zeros is zero. -/
def floatKey (v : UInt64) : ℤ := if v.toNat < 2 ^ 63 then magnitude v else -magnitude v

/-- The operator `>` of `f64`. -/
def floatGt (a b : UInt64) : Bool := !isNan a && !isNan b && decide (floatKey b < floatKey a)

/-- The bits are the same, or both are those of a zero. -/
def SameFloat (a b : UInt64) : Prop := a = b ∨ magnitude a = 0 ∧ magnitude b = 0

theorem SameFloat.symm {a b : UInt64} (h : SameFloat a b) : SameFloat b a := h.imp Eq.symm And.symm

theorem floatKey_inj {a b : UInt64} : floatKey a = floatKey b ↔ SameFloat a b := by
  have ha := a.toNat_lt
  have hb := b.toNat_lt
  rw [SameFloat, ← UInt64.toNat_inj, floatKey, floatKey, magnitude, magnitude]
  split_ifs <;> omega

/-! ### The rule for two samples -/

def isStaleNan (v : UInt64) : Bool := v == staleNanBits

/-- What is kept of two samples of one series. -/
def deduplicateSamples (oldT newT : ℤ) (oldV newV : UInt64) : ℤ × UInt64 :=
  if newT > oldT then (newT, newV)
  else if newT = oldT then
    if isStaleNan oldV then (newT, newV)
    else if floatGt newV oldV then (newT, newV)
    else (oldT, oldV)
  else (oldT, oldV)

structure KeyedSample where
  key : Bytes
  value : UInt64
  timestamp : ℤ
deriving DecidableEq

/-! ### The buffers -/

/-- A buffer, with the value and the timestamp that are kept for each key. -/
abbrev Buffer := List (Bytes × (UInt64 × ℤ))

structure DedupAggr where
  blue : Buffer
  green : Buffer
  /-- The counter of the dropped samples. -/
  dropped : UInt64

namespace DedupAggr

def new : DedupAggr := ⟨[], [], 0⟩

def state (da : DedupAggr) (isGreen : Bool) : Buffer := if isGreen then da.green else da.blue

def setState (da : DedupAggr) (isGreen : Bool) (m : Buffer) : DedupAggr :=
  if isGreen then { da with green := m } else { da with blue := m }

/-- The entry of a key after another sample. -/
def updateEntry (entry : Option (UInt64 × ℤ)) (s : KeyedSample) : UInt64 × ℤ :=
  match entry with
  | some entry => (deduplicateSamples entry.2 s.timestamp entry.1 s.value).swap
  | none => (s.value, s.timestamp)

/-- A turn of the loop of `push_samples`. -/
def pushSample (isGreen : Bool) (da : DedupAggr) (s : KeyedSample) : DedupAggr :=
  let m := da.state isGreen
  let da := if (mapLookup s.key m).isSome then { da with dropped := da.dropped + 1 } else da
  da.setState isGreen (groupInsert updateEntry s.key s m)

def pushSamples (da : DedupAggr) (samples : List KeyedSample) (isGreen : Bool) : DedupAggr :=
  samples.foldl (pushSample isGreen) da

/-- What is handed on, if anything, in the order in which the map is drained. -/
def flush (order : IterOrder (Bytes × (UInt64 × ℤ))) (da : DedupAggr) (isGreen : Bool) :
    DedupAggr × Option (List KeyedSample) :=
  let drained := da.state isGreen
  (da.setState isGreen [],
    if drained.isEmpty then none
    else some ((order.visit drained).map fun entry => ⟨entry.1, entry.2.1, entry.2.2⟩))

@[simp]
theorem state_setState (da : DedupAggr) (g g' : Bool) (m : Buffer) :
    (da.setState g m).state g' = if g' = g then m else da.state g' := by
  cases g <;> cases g' <;> rfl

@[simp]
theorem state_dropped (da : DedupAggr) (n : UInt64) (g : Bool) :
    { da with dropped := n }.state g = da.state g := rfl

theorem state_pushSample (g g' : Bool) (da : DedupAggr) (s : KeyedSample) :
    (pushSample g da s).state g' =
      if g' = g then groupInsert updateEntry s.key s (da.state g') else da.state g' := by
  rw [pushSample, state_setState]
  by_cases hg : g' = g
  · rw [if_pos hg, if_pos hg, hg]
  · rw [if_neg hg, if_neg hg]
    split_ifs <;> rfl

/-- The samples with their keys. -/
def withKeys (samples : List KeyedSample) : List (Bytes × KeyedSample) :=
  samples.map fun s => (s.key, s)

/-- A push folds the samples into the buffer. -/
theorem state_pushSamples (da : DedupAggr) (samples : List KeyedSample) (g g' : Bool) :
    (da.pushSamples samples g).state g' =
      if g' = g then groupFold updateEntry (da.state g') (withKeys samples) else da.state g' := by
  rw [pushSamples]
  induction samples generalizing da with
  | nil => exact (ite_self _).symm
  | cons s samples ih =>
    rw [foldl_cons, ih, state_pushSample]
    split_ifs <;> rfl

end DedupAggr

/-! ### The latest sample -/

/-- The values that a series may have. -/
def IsSampleValue (v : UInt64) : Prop := isNan v = false ∨ isStaleNan v = true

/-- The value and the timestamp of a sample that no other outranks: its timestamp is the greatest,
and each value at that time is a staleness mark, or not above the value, which is then no staleness
mark. -/
structure IsLatest (samples : List KeyedSample) (value : UInt64) (timestamp : ℤ) : Prop where
  mem : ∃ s ∈ samples, s.timestamp = timestamp ∧ s.value = value
  timestamp_le : ∀ s ∈ samples, s.timestamp ≤ timestamp
  value_le : ∀ s ∈ samples, s.timestamp = timestamp →
    isStaleNan s.value = true ∨ isStaleNan value = false ∧ floatKey s.value ≤ floatKey value

variable {samples samples' : List KeyedSample} {value value' : UInt64} {timestamp timestamp' : ℤ}

theorem IsSampleValue.isNan_eq_false {v : UInt64} (h : IsSampleValue v)
    (hstale : isStaleNan v = false) :
    isNan v = false :=
  h.resolve_right (by rw [hstale]; exact Bool.false_ne_true)

theorem isLatest_singleton (s : KeyedSample) : IsLatest [s] s.value s.timestamp where
  mem := ⟨s, mem_singleton_self s, rfl, rfl⟩
  timestamp_le t ht := by rw [mem_singleton.mp ht]
  value_le t ht _ := by
    rw [mem_singleton.mp ht]
    cases hstale : isStaleNan s.value with
    | false => exact .inr ⟨rfl, le_rfl⟩
    | true => exact .inl rfl

variable {s : KeyedSample}

/-- A new sample that outranks what was kept. -/
theorem IsLatest.replace (h : IsLatest samples value timestamp)
    (htimestamp : timestamp ≤ s.timestamp)
    (hvalue : s.timestamp = timestamp → isStaleNan value = true ∨ isStaleNan s.value = false ∧
      floatKey value ≤ floatKey s.value) :
    IsLatest (samples ++ [s]) s.value s.timestamp where
  mem := ⟨s, mem_append_right _ (mem_singleton_self s), rfl, rfl⟩
  timestamp_le t ht := by
    obtain ht | ht := mem_append.mp ht
    · exact (h.timestamp_le t ht).trans htimestamp
    · rw [mem_singleton.mp ht]
  value_le t ht heq := by
    obtain ht | ht := mem_append.mp ht
    · have hsame : s.timestamp = timestamp := le_antisymm (heq ▸ h.timestamp_le t ht) htimestamp
      obtain hstale | ⟨hold, hle⟩ := h.value_le t ht (heq.trans hsame)
      · exact .inl hstale
      · obtain hstale | ⟨hnew, hle'⟩ := hvalue hsame
        · rw [hold] at hstale
          exact absurd hstale Bool.false_ne_true
        · exact .inr ⟨hnew, hle.trans hle'⟩
    · exact (isLatest_singleton s).value_le t ht heq

/-- A new sample that does not outrank what was kept. -/
theorem IsLatest.keep (h : IsLatest samples value timestamp) (htimestamp : s.timestamp ≤ timestamp)
    (hvalue : s.timestamp = timestamp → isStaleNan s.value = true ∨ isStaleNan value = false ∧
      floatKey s.value ≤ floatKey value) :
    IsLatest (samples ++ [s]) value timestamp where
  mem := by
    obtain ⟨t, ht, heq⟩ := h.mem
    exact ⟨t, mem_append_left _ ht, heq⟩
  timestamp_le t ht := by
    obtain ht | ht := mem_append.mp ht
    · exact h.timestamp_le t ht
    · rwa [mem_singleton.mp ht]
  value_le t ht heq := by
    obtain ht | ht := mem_append.mp ht
    · exact h.value_le t ht heq
    · rw [mem_singleton.mp ht] at heq ⊢
      exact hvalue heq

/-- **The rule keeps the latest sample.** -/
theorem IsLatest.step (h : IsLatest samples value timestamp) (hvalue : IsSampleValue value)
    (hs : IsSampleValue s.value) :
    IsLatest (samples ++ [s]) (DedupAggr.updateEntry (some (value, timestamp)) s).1
      (DedupAggr.updateEntry (some (value, timestamp)) s).2 := by
  rw [DedupAggr.updateEntry, deduplicateSamples]
  split_ifs with hlater heq hstale hgt
  · exact h.replace hlater.le fun heq => absurd heq hlater.ne'
  · exact h.replace heq.ge fun _ => .inl hstale
  · -- `>` holds for numbers only
    rw [floatGt, Bool.and_eq_true, Bool.and_eq_true, decide_eq_true_eq] at hgt
    refine h.replace heq.ge fun _ => .inr ⟨?_, hgt.2.le⟩
    by_contra hnew
    rw [Bool.not_eq_false, isStaleNan, beq_iff_eq] at hnew
    rw [hnew] at hgt
    exact absurd hgt.1.1 (by decide)
  · rw [Bool.not_eq_true] at hstale
    refine h.keep heq.le fun _ => ?_
    cases hnew : isStaleNan s.value with
    | true => exact .inl rfl
    | false =>
      refine .inr ⟨hstale, not_lt.mp fun hlt => hgt ?_⟩
      rw [floatGt, hs.isNan_eq_false hnew, hvalue.isNan_eq_false hstale, decide_eq_true hlt]
      rfl
  · exact h.keep (not_lt.mp hlater) fun h' => absurd h' heq

/-- Latest samples of the same samples differ at most in the sign of a zero. -/
theorem IsLatest.unique (h : IsLatest samples value timestamp)
    (h' : IsLatest samples' value' timestamp')
    (hmem : ∀ s, s ∈ samples ↔ s ∈ samples') : timestamp = timestamp' ∧ SameFloat value value' := by
  rw [← floatKey_inj]
  obtain ⟨s, hs, rfl, rfl⟩ := h.mem
  obtain ⟨s', hs', rfl, rfl⟩ := h'.mem
  have htimestamp : s.timestamp = s'.timestamp :=
    le_antisymm (h'.timestamp_le s ((hmem s).mp hs)) (h.timestamp_le s' ((hmem s').mpr hs'))
  refine ⟨htimestamp, ?_⟩
  obtain hstale | ⟨hnew, hle⟩ := h'.value_le s ((hmem s).mp hs) htimestamp
  · obtain hstale' | ⟨hnew', -⟩ := h.value_le s' ((hmem s').mpr hs') htimestamp.symm
    · rw [beq_iff_eq.mp hstale, beq_iff_eq.mp hstale']
    · rw [hnew'] at hstale
      exact absurd hstale Bool.false_ne_true
  · obtain hstale' | ⟨-, hle'⟩ := h.value_le s' ((hmem s').mpr hs') htimestamp.symm
    · rw [hnew] at hstale'
      exact absurd hstale' Bool.false_ne_true
    · exact le_antisymm hle hle'

/-- The entry of a key is the latest of its samples. -/
theorem isLatest_foldl (hne : samples ≠ []) (hvalues : ∀ s ∈ samples, IsSampleValue s.value) :
    ∃ entry, samples.foldl (fun entry s => some (DedupAggr.updateEntry entry s)) none = some entry ∧
      IsLatest samples entry.1 entry.2 := by
  induction samples using List.reverseRecOn with
  | nil => exact absurd rfl hne
  | append_singleton samples s ih =>
    rw [foldl_append]
    by_cases hnil : samples = []
    · subst hnil
      exact ⟨_, rfl, isLatest_singleton s⟩
    · have hprevious := fun t ht => hvalues t (mem_append_left [s] ht)
      obtain ⟨entry, hentry, hlatest⟩ := ih hnil hprevious
      obtain ⟨t, ht, -, hvalue⟩ := hlatest.mem
      rw [hentry]
      exact ⟨_, rfl, hlatest.step (hvalue ▸ hprevious t ht)
        (hvalues s (mem_append_right _ (mem_singleton_self s)))⟩

/-! ### What is flushed -/

/-- Of each series that there is a sample of, one latest sample is handed on. -/
structure Emits (samples emitted : List KeyedSample) : Prop where
  nodup : (emitted.map KeyedSample.key).Nodup
  mem_key : ∀ k, k ∈ emitted.map KeyedSample.key ↔ k ∈ samples.map KeyedSample.key
  latest : ∀ s ∈ emitted, IsLatest (samples.filter fun t => t.key = s.key) s.value s.timestamp

namespace DedupAggr

/-- What a buffer keeps for a key depends on the samples with that key. -/
theorem mapLookup_samples (samples : List KeyedSample) (k : Bytes) :
    mapLookup k (groupFold updateEntry [] (withKeys samples)) =
      (samples.filter fun s => s.key = k).foldl (fun entry s =>
        some (updateEntry entry s)) none := by
  rw [mapLookup_groupFold, withKeys, filter_map, foldl_map]
  rfl

theorem nodup_samples (samples : List KeyedSample) :
    (mapKeys (groupFold updateEntry [] (withKeys samples))).Nodup :=
  nodup_mapKeys_groupFold _ _ nodup_nil

theorem exists_mapLookup_samples (samples : List KeyedSample) (k : Bytes) :
    (∃ entry, mapLookup k (groupFold updateEntry [] (withKeys samples)) = some entry) ↔
      (samples.filter fun s => s.key = k) ≠ [] := by
  rw [mapLookup_samples]
  generalize samples.filter (fun s => s.key = k) = matching
  induction matching using List.reverseRecOn with
  | nil => simp
  | append_singleton matching s _ =>
    rw [foldl_append]
    exact iff_of_true ⟨_, rfl⟩ (by simp)

/-- A buffer keeps the latest sample of each series. -/
theorem isLatest_of_mem (hvalues : ∀ s ∈ samples, IsSampleValue s.value) {k : Bytes}
    {entry : UInt64 × ℤ}
    (h : (k, entry) ∈ groupFold updateEntry [] (withKeys samples)) :
    IsLatest (samples.filter fun s => s.key = k) entry.1 entry.2 := by
  rw [mem_iff_mapLookup_eq (nodup_samples samples)] at h
  have hne := (exists_mapLookup_samples samples k).mp ⟨entry, h⟩
  obtain ⟨entry', hentry, hlatest⟩ := isLatest_foldl hne fun s hs =>
    hvalues s (mem_of_mem_filter hs)
  rw [mapLookup_samples, hentry, Option.some_inj] at h
  exact h ▸ hlatest

theorem mem_mapKeys_samples (samples : List KeyedSample) (k : Bytes) :
    k ∈ mapKeys (groupFold updateEntry [] (withKeys samples)) ↔
    k ∈ samples.map KeyedSample.key := by
  have hmem := fun entry => mem_iff_mapLookup_eq (nodup_samples samples) (k := k) (a := entry)
  constructor
  · intro h
    obtain ⟨⟨k', entry⟩, hentry, rfl⟩ := mem_map.mp h
    obtain ⟨s, hs⟩ := exists_mem_of_ne_nil _
      ((exists_mapLookup_samples samples k').mp ⟨entry, (hmem entry).mp hentry⟩)
    obtain ⟨hs, hkey⟩ := mem_filter.mp hs
    exact mem_map.mpr ⟨s, hs, of_decide_eq_true hkey⟩
  · intro h
    obtain ⟨s, hs, rfl⟩ := mem_map.mp h
    have hfilter : s ∈ samples.filter fun t => t.key = s.key := mem_filter.mpr ⟨hs, by simp⟩
    obtain ⟨entry, hentry⟩ := (exists_mapLookup_samples samples s.key).mpr (ne_nil_of_mem hfilter)
    exact mem_map.mpr ⟨(s.key, entry), (hmem entry).mpr hentry, rfl⟩

/-- **What a flush hands on.** -/
theorem flush_emits (order : IterOrder (Bytes × (UInt64 × ℤ))) {da : DedupAggr} {isGreen : Bool}
    (h : da.state isGreen = groupFold updateEntry [] (withKeys samples))
    (hvalues : ∀ s ∈ samples, IsSampleValue s.value) :
    Emits samples ((da.flush order isGreen).2.getD []) := by
  have hemitted : (da.flush order isGreen).2.getD [] =
      (order.visit (groupFold updateEntry [] (withKeys samples))).map fun entry =>
        ⟨entry.1, entry.2.1, entry.2.2⟩ := by
    rw [flush, h]
    dsimp only
    split_ifs with hempty
    · rw [List.isEmpty_iff.mp hempty, perm_nil.mp (order.perm [])]
      rfl
    · rfl
  have hperm := order.perm (groupFold updateEntry [] (withKeys samples))
  have hkeys : ((da.flush order isGreen).2.getD []).map KeyedSample.key =
      mapKeys (order.visit (groupFold updateEntry [] (withKeys samples))) := by
    rw [hemitted, map_map]
    rfl
  refine ⟨?_, fun k => ?_, fun s hs => ?_⟩
  · rw [hkeys]
    exact (hperm.map Prod.fst).nodup_iff.mpr (nodup_samples samples)
  · rw [hkeys, ← mem_mapKeys_samples]
    exact (hperm.map Prod.fst).mem_iff
  · rw [hemitted] at hs
    obtain ⟨⟨k, entry⟩, hentry, rfl⟩ := mem_map.mp hs
    exact isLatest_of_mem hvalues (hperm.mem_iff.mp hentry)

end DedupAggr

/-- What is handed on of the same samples differs at most in the signs of zeros. -/
theorem Emits.exists_same {emitted emitted' : List KeyedSample} (h : Emits samples emitted)
    (h' : Emits samples' emitted') (hperm : samples.Perm samples') (hs : s ∈ emitted) :
    ∃ s' ∈ emitted', s.key = s'.key ∧ s.timestamp = s'.timestamp ∧ SameFloat s.value s'.value := by
  have hkey : s.key ∈ emitted'.map KeyedSample.key := by
    rw [h'.mem_key, ← (hperm.map KeyedSample.key).mem_iff, ← h.mem_key]
    exact mem_map_of_mem hs
  obtain ⟨s', hs', heq⟩ := mem_map.mp hkey
  have hlatest := h'.latest s' hs'
  rw [heq] at hlatest
  exact ⟨s', hs', heq.symm, (h.latest s hs).unique hlatest fun t => (hperm.filter _).mem_iff⟩

/-! ### Runs -/

inductive Op
  | push (samples : List KeyedSample) (isGreen : Bool)
  | flush (isGreen : Bool)

/-- The samples that are pushed to a buffer. -/
def Op.pushed (isGreen : Bool) : Op → List KeyedSample
  | .push samples g => if isGreen = g then samples else []
  | .flush _ => []

namespace DedupAggr

variable (order : IterOrder (Bytes × (UInt64 × ℤ)))

def step (da : DedupAggr) : Op → DedupAggr
  | .push samples isGreen => da.pushSamples samples isGreen
  | .flush isGreen => (da.flush order isGreen).1

def run (da : DedupAggr) (ops : List Op) : DedupAggr := ops.foldl (step order) da

/-- A buffer holds what was pushed to it since its last flush. -/
theorem state_run {isGreen : Bool} {ops : List Op} (hops : .flush isGreen ∉ ops) (da : DedupAggr) :
    (da.run order ops).state isGreen =
      groupFold updateEntry (da.state isGreen) (withKeys (ops.flatMap (Op.pushed isGreen))) := by
  rw [run]
  induction ops generalizing da with
  | nil => rfl
  | cons op ops ih =>
    rw [mem_cons, not_or] at hops
    obtain ⟨hop, hops⟩ := hops
    rw [foldl_cons, ih hops, flatMap_cons, withKeys, withKeys, map_append, groupFold, groupFold,
      foldl_append]
    refine congrArg (List.foldl _ · _) ?_
    cases op with
    | push samples g =>
      rw [step, state_pushSamples, Op.pushed]
      split_ifs <;> rfl
    | flush g =>
      rw [step, flush, state_setState, if_neg fun heq => hop (by rw [heq])]
      rfl

/-- A buffer is empty at first and after its flush. -/
theorem state_run_flushed {isGreen : Bool} {before : List Op}
    (h : before = [] ∨ before.getLast? = some (.flush isGreen)) :
    (new.run order before).state isGreen = [] := by
  obtain rfl | hlast := h
  · cases isGreen <;> rfl
  · obtain ⟨before, rfl⟩ := getLast?_eq_some_iff.mp hlast
    rw [run, foldl_append, foldl_cons, foldl_nil, step, flush, state_setState, if_pos rfl]

/-- **A flush hands on the latest samples of what was pushed since the last one.** -/
theorem flush_run_emits {isGreen : Bool} {before ops : List Op}
    (hbefore : before = [] ∨ before.getLast? = some (.flush isGreen)) (hops : .flush isGreen ∉ ops)
    (hvalues : ∀ s ∈ ops.flatMap (Op.pushed isGreen), IsSampleValue s.value) :
    Emits (ops.flatMap (Op.pushed isGreen))
    (((new.run order (before ++ ops)).flush order isGreen).2.getD []) := by
  refine flush_emits order ?_ hvalues
  have hrun : new.run order (before ++ ops) = (new.run order before).run order ops := foldl_append
  rw [hrun, state_run order hops, state_run_flushed order hbefore]

end DedupAggr

/-! ### Keys -/

/-- The labels one after another, each text with its length. -/
def encodePlain (labels : List Relabel.Label) : Bytes :=
  labels.flatMap fun l => leb128 l.name.length ++ l.name ++ leb128 l.value.length ++ l.value

/-- The loop of `get_uvarint` at index `i`. -/
def getUvarintFrom : Bytes → UInt64 → ℕ → ℕ → UInt64 × ℕ
  | [], _, _, _ => (0, 0)
  | b :: src, result, shift, i =>
    let result := result ||| ((b &&& 0x7f).toUInt64 <<< UInt64.ofNat shift)
    if b &&& 0x80 = 0 then (result, i + 1)
    else if shift + 7 ≥ 64 then (0, 0)
    else getUvarintFrom src result (shift + 7) (i + 1)

def getUvarint (src : Bytes) : UInt64 × ℕ := getUvarintFrom src 0 0 0

/-- The labels of a key; the rest of one that is cut off is left out. -/
def decodeLabels (src : Bytes) : List Relabel.Label :=
  if _ : src = [] then []
  else
    let (nlen, n1) := getUvarint src
    if _ : n1 = 0 then []
    else
      let src1 := src.drop n1
      if src1.length < nlen.toNat then []
      else
        let name := fromUtf8Lossy (src1.take nlen.toNat)
        let src2 := src1.drop nlen.toNat
        let (vlen, n2) := getUvarint src2
        if n2 = 0 then []
        else
          let src3 := src2.drop n2
          if src3.length < vlen.toNat then []
          else ⟨name, fromUtf8Lossy (src3.take vlen.toNat)⟩ :: decodeLabels (src3.drop vlen.toNat)
termination_by src.length
decreasing_by
  have hlength := length_pos_iff.mpr ‹src ≠ []›
  simp only [length_drop]
  omega

/-! ### The deduplicator -/

/-- A sample with the bits of its value: the rule for two samples tells NaNs and zeros apart. -/
structure Sample where
  value : UInt64
  timestamp : ℤ

structure TimeSeries where
  labels : List Relabel.Label
  samples : List Sample

structure Inner where
  da : DedupAggr
  dropLabels : List Bytes

def keptLabels (dropLabels : List Bytes) (labels : List Relabel.Label) : List Relabel.Label :=
  if dropLabels.isEmpty then labels else labels.filter fun l => l.name ∉ dropLabels

/-- The samples of a series with the key of its labels. -/
def keyedSamples (dropLabels : List Bytes) (ts : TimeSeries) : List KeyedSample :=
  let labels := keptLabels dropLabels ts.labels
  if labels.isEmpty then []
  else
    let key := encodePlain (sortByKey Relabel.Label.name labels)
    ts.samples.map fun s => ⟨key, s.value, s.timestamp⟩

namespace Inner

def new (dropLabels : List Bytes) : Inner := ⟨.new, dropLabels⟩

def push (inner : Inner) (tss : List TimeSeries) : Inner :=
  let samples := tss.flatMap (keyedSamples inner.dropLabels)
  if samples.isEmpty then inner else { inner with da := inner.da.pushSamples samples false }

/-- What `push_func` is called with, if it is. -/
def flush (order : IterOrder (Bytes × (UInt64 × ℤ))) (inner : Inner) :
    Inner × Option (List TimeSeries) :=
  let (da, samples) := inner.da.flush order false
  ({ inner with da := da },
    samples.map fun samples => samples.map fun ps =>
      ⟨decodeLabels ps.key, [⟨ps.value, ps.timestamp⟩]⟩)

end Inner

inductive InnerOp
  | push (tss : List TimeSeries)
  | flush

/-- The series that are received. -/
def InnerOp.received : InnerOp → List TimeSeries
  | .push tss => tss
  | .flush => []

/-- The samples of the series, each with the labels of its own. -/
def labelledSamples (tss : List TimeSeries) : List (List Relabel.Label × Sample) :=
  tss.flatMap fun ts => ts.samples.map (Prod.mk ts.labels)

namespace Inner

variable (order : IterOrder (Bytes × (UInt64 × ℤ)))

def step (inner : Inner) : InnerOp → Inner
  | .push tss => inner.push tss
  | .flush => (inner.flush order).1

def run (inner : Inner) (ops : List InnerOp) : Inner := ops.foldl (step order) inner

/-- The operation of the buffers. -/
def dedupOp (dropLabels : List Bytes) : InnerOp → Op
  | .push tss => .push (tss.flatMap (keyedSamples dropLabels)) false
  | .flush => .flush false

theorem step_eq (inner : Inner) (op : InnerOp) :
    inner.step order op = ⟨inner.da.step order (dedupOp inner.dropLabels op),
      inner.dropLabels⟩ := by
  cases op with
  | push tss =>
    rw [step, push, dedupOp, DedupAggr.step]
    split_ifs with hempty
    · rw [List.isEmpty_iff.mp hempty]
      rfl
    · rfl
  | flush => rfl

theorem run_eq (inner : Inner) (ops : List InnerOp) :
    inner.run order ops = ⟨inner.da.run order (ops.map (dedupOp inner.dropLabels)),
      inner.dropLabels⟩ := by
  rw [run, DedupAggr.run]
  induction ops generalizing inner with
  | nil => rfl
  | cons op ops ih => rw [foldl_cons, ih, step_eq, map_cons, foldl_cons]

/-- The samples that reach the buffer. -/
def pushedSamples (dropLabels : List Bytes) (ops : List InnerOp) : List KeyedSample :=
  (ops.flatMap InnerOp.received).flatMap (keyedSamples dropLabels)

theorem flatMap_dedupOp (dropLabels : List Bytes) (ops : List InnerOp) :
    (ops.map (dedupOp dropLabels)).flatMap (Op.pushed false) = pushedSamples dropLabels ops := by
  rw [pushedSamples, flatMap_map, flatMap_assoc]
  refine flatMap_congr fun op _ => ?_
  cases op <;> rfl

/-- A sample reaches the buffer with the labels of its own. -/
theorem pushedSamples_eq (dropLabels : List Bytes) (ops : List InnerOp) :
    pushedSamples dropLabels ops =
      (labelledSamples (ops.flatMap InnerOp.received)).flatMap fun l =>
      keyedSamples dropLabels ⟨l.1, [l.2]⟩ := by
  rw [pushedSamples]
  generalize ops.flatMap InnerOp.received = tss
  rw [labelledSamples, flatMap_assoc]
  refine flatMap_congr fun ts _ => ?_
  rw [flatMap_map]
  simp only [keyedSamples]
  split_ifs
  · rw [flatMap_eq_nil_iff.mpr fun _ _ => rfl]
  · rw [map_eq_flatMap]
    rfl

theorem sampleValue_of_pushed {dropLabels : List Bytes} {ops : List InnerOp}
    (h : ∀ l ∈ labelledSamples (ops.flatMap InnerOp.received), IsSampleValue l.2.value) :
    ∀ s ∈ pushedSamples dropLabels ops, IsSampleValue s.value := by
  intro s hs
  rw [pushedSamples_eq] at hs
  obtain ⟨l, hl, hs⟩ := mem_flatMap.mp hs
  simp only [keyedSamples] at hs
  split_ifs at hs
  · exact absurd hs not_mem_nil
  · rw [map_singleton, mem_singleton] at hs
    exact hs ▸ h l hl

theorem flush_getD (inner : Inner) :
    (inner.flush order).2.getD [] =
      ((inner.da.flush order false).2.getD []).map fun ps =>
        ⟨decodeLabels ps.key, [⟨ps.value, ps.timestamp⟩]⟩ := by
  rw [flush]
  obtain ⟨da, samples⟩ := inner.da.flush order false
  cases samples <;> rfl

/-- What a flush of the deduplicator hands on, before the keys are decoded. -/
theorem flush_run (dropLabels : List Bytes) {before ops : List InnerOp}
    (hbefore : before = [] ∨ before.getLast? = some .flush) (hops : .flush ∉ ops)
    (hvalues : ∀ l ∈ labelledSamples (ops.flatMap InnerOp.received), IsSampleValue l.2.value) :
    ∃ emitted, Emits (pushedSamples dropLabels ops) emitted ∧
      (((new dropLabels).run order (before ++ ops)).flush order).2.getD [] =
        emitted.map fun ps => ⟨decodeLabels ps.key, [⟨ps.value, ps.timestamp⟩]⟩ := by
  have hbefore' : before.map (dedupOp dropLabels) = [] ∨
      (before.map (dedupOp dropLabels)).getLast? = some (.flush false) := by
    obtain rfl | hlast := hbefore
    · exact .inl rfl
    · exact .inr (by rw [getLast?_map, hlast]; rfl)
  have hops' : .flush false ∉ ops.map (dedupOp dropLabels) := by
    intro hmem
    obtain ⟨op, hop, heq⟩ := mem_map.mp hmem
    cases op with
    | push tss => exact Op.noConfusion heq
    | flush => exact hops hop
  have hemits := DedupAggr.flush_run_emits order hbefore' hops'
    (by rw [flatMap_dedupOp]; exact sampleValue_of_pushed hvalues)
  rw [flatMap_dedupOp, ← map_append] at hemits
  refine ⟨_, hemits, ?_⟩
  rw [run_eq]
  exact flush_getD order _

end Inner

/-! ### The order of arrival -/

/-- One series and one sample of it, but for the sign of a zero. -/
def SameSeries (ts ts' : TimeSeries) : Prop :=
  ts.labels = ts'.labels ∧
    List.Forall₂ (fun s s' => s.timestamp = s'.timestamp ∧ SameFloat s.value s'.value)
    ts.samples ts'.samples

/-- Each of the one has one that is the same in the other. -/
def SameSets (tss tss' : List TimeSeries) : Prop :=
  (∀ ts ∈ tss, ∃ ts' ∈ tss', SameSeries ts ts') ∧ ∀ ts' ∈ tss', ∃ ts ∈ tss, SameSeries ts ts'

/-- **Deduplication does not depend on the order of arrival**: what a flush of a buffer hands on are
the latest samples of what was pushed to it since it was last flushed, and two deduplicators that
receive the same samples between two flushes hand on the same sets. -/
theorem dedup_order_independent :
    (∀ (order : IterOrder (Bytes × (UInt64 × ℤ))) (before ops : List Op) (isGreen : Bool),
      (before = [] ∨ before.getLast? = some (.flush isGreen)) → .flush isGreen ∉ ops →
      (∀ s ∈ ops.flatMap (Op.pushed isGreen), IsSampleValue s.value) →
      Emits (ops.flatMap (Op.pushed isGreen))
        (((DedupAggr.new.run order (before ++ ops)).flush order isGreen).2.getD [])) ∧
    ∀ (order order' : IterOrder (Bytes × (UInt64 × ℤ))) (dropLabels : List Bytes)
      (before ops before' ops' : List InnerOp),
      (before = [] ∨ before.getLast? = some .flush) → .flush ∉ ops →
      (before' = [] ∨ before'.getLast? = some .flush) → .flush ∉ ops' →
      (labelledSamples (ops.flatMap InnerOp.received)).Perm
      (labelledSamples (ops'.flatMap InnerOp.received)) →
      (∀ l ∈ labelledSamples (ops.flatMap InnerOp.received), IsSampleValue l.2.value) →
      SameSets ((((Inner.new dropLabels).run order (before ++ ops)).flush order).2.getD [])
        ((((Inner.new dropLabels).run order' (before' ++ ops')).flush order').2.getD []) := by
  refine ⟨fun order before ops isGreen hbefore hops hvalues =>
    DedupAggr.flush_run_emits order hbefore hops hvalues, ?_⟩
  intro order order' dropLabels before ops before' ops' hbefore hops hbefore' hops' hperm hvalues
  obtain ⟨emitted, hemits, heq⟩ := Inner.flush_run order dropLabels hbefore hops hvalues
  obtain ⟨emitted', hemits', heq'⟩ := Inner.flush_run order' dropLabels hbefore' hops'
    fun l hl => hvalues l (hperm.mem_iff.mpr hl)
  have hpushed : (Inner.pushedSamples dropLabels ops).Perm
      (Inner.pushedSamples dropLabels ops') := by
    rw [Inner.pushedSamples_eq, Inner.pushedSamples_eq]
    exact hperm.flatMap_right _
  rw [heq, heq']
  constructor
  · intro ts hts
    obtain ⟨s, hs, rfl⟩ := mem_map.mp hts
    obtain ⟨s', hs', hkey, htimestamp, hvalue⟩ := hemits.exists_same hemits' hpushed hs
    exact ⟨_, mem_map_of_mem hs', congrArg decodeLabels hkey, .cons ⟨htimestamp, hvalue⟩ .nil⟩
  · intro ts hts
    obtain ⟨s, hs, rfl⟩ := mem_map.mp hts
    obtain ⟨s', hs', hkey, htimestamp, hvalue⟩ := hemits'.exists_same hemits hpushed.symm hs
    exact ⟨_, mem_map_of_mem hs', congrArg decodeLabels hkey.symm,
      .cons ⟨htimestamp.symm, hvalue.symm⟩ .nil⟩

theorem dedup_order_independent_two :
    SameSets
      ((((Inner.new []).run ⟨id, fun _ => .refl _⟩
        ([] ++ [.push [⟨[⟨ascii "a", ascii "b"⟩], [⟨1, 5⟩, ⟨2, 5⟩]⟩]])).flush
        ⟨id, fun _ => .refl _⟩).2.getD [])
      ((((Inner.new []).run ⟨id, fun _ => .refl _⟩
        ([] ++ [.push [⟨[⟨ascii "a", ascii "b"⟩], [⟨2, 5⟩]⟩],
          .push [⟨[⟨ascii "a", ascii "b"⟩], [⟨1, 5⟩]⟩]])).flush
        ⟨id, fun _ => .refl _⟩).2.getD []) :=
  dedup_order_independent.2 _ _ [] [] _ [] _ (.inl rfl) (by simp) (.inl rfl) (by simp)
    (Perm.swap _ _ [])
    (by simp [labelledSamples, InnerOp.received, IsSampleValue, isNan, magnitude])

end Esmetrics.Streamaggr.Dedup
