import Esmetrics.Lib.MergeJoin
import Esmetrics.Lib.StableSort
import Esmetrics.Storage.Dedup
import Esmetrics.Storage.MetricName
import Esmetrics.Storage.PartFiles

/-!
# Merging the blocks of a series

Model of `unpack_series` of `esm-storage/src/parallel_search.rs`, with its k-way merge, and of the
serial path of `next_series` of `search.rs`, which sorts.

Both read the same series (`unpackSeries_eq_nextSeries`) as long as no timestamp is `i64::MAX`,
which the merge takes for the absence of a bound.
-/

namespace Esmetrics

open List

/-- Samples of a series. -/
abbrev Samples (V : Type) := List (Int64 × V)

/-- Sorted samples before `i64::MAX`, which stands for the absence of a bound. -/
structure Samples.Mergeable {V : Type} (l : Samples V) : Prop where
  sorted : l.Pairwise fun a b => a.1 ≤ b.1
  lt_max : ∀ s ∈ l, s.1 < Int64.maxValue

variable {V : Type} {dst : Samples V} {sbs : List (Samples V)}

/-! ### Samples without duplicates -/

/-- Adds a sample, unless its timestamp is that of the last one. -/
def pushSample (dst : Samples V) (s : Int64 × V) : Samples V :=
  if dst.getLast?.map Prod.fst = some s.1 then dst else dst ++ [s]

def pushAll (dst run : Samples V) : Samples V := run.foldl pushSample dst

theorem pushAll_append (dst a b : Samples V) : pushAll dst (a ++ b) = pushAll (pushAll dst a) b :=
  foldl_append

/-- Adds a sorted run, as a whole if it has no duplicates. -/
def appendRun (dst run : Samples V) : Samples V :=
  if run.IsChain (fun a b => a.1 < b.1) ∧ ∀ l ∈ dst.getLast?, ∀ s ∈ run.head?,
    l.1 < s.1 then dst ++ run
  else pushAll dst run

theorem appendRun_eq (dst run : Samples V) : appendRun dst run = pushAll dst run := by
  rw [appendRun]
  split_ifs with h
  · obtain ⟨hrun, hlast⟩ := h
    induction run generalizing dst with
    | nil => exact append_nil dst
    | cons s run ih =>
      obtain ⟨hhead, hrun⟩ := isChain_cons.mp hrun
      have hpush : pushSample dst s = dst ++ [s] := by
        refine if_neg fun heq => ?_
        obtain ⟨l, hl, hls⟩ := Option.map_eq_some_iff.mp heq
        exact (hlast l hl s rfl).ne hls
      rw [pushAll, foldl_cons, hpush, ← pushAll, ← ih _ hrun, append_assoc, singleton_append]
      intro l hl
      rw [getLast?_concat] at hl
      exact Option.some.inj hl ▸ hhead
  · rfl

/-! ### The merge -/

/-- The search for the block that samples are taken from. -/
structure HeadScan where
  /-- The first block with the smallest current timestamp. -/
  minI : Option ℕ
  minTs : Int64
  /-- The smallest current timestamp of the other blocks. -/
  bound : Int64

/-- Visits the block `i`. -/
def HeadScan.visit (c : HeadScan) (sb : Samples V) (i : ℕ) : HeadScan :=
  match sb with
  | [] => c
  | (ts, _) :: _ =>
    if c.minI = none ∨ ts < c.minTs then ⟨some i, ts, c.minTs⟩
    else if ts < c.bound then { c with bound := ts }
    else c

def scanHeads (sbs : List (Samples V)) : HeadScan :=
  sbs.zipIdx.foldl (fun c sb => c.visit sb.1 sb.2) ⟨none, Int64.maxValue, Int64.maxValue⟩

/-- Takes samples from one of the blocks, as long as there are any. -/
def mergeStep (dst : Samples V) (sbs : List (Samples V)) :
    Option (Samples V × List (Samples V)) :=
  let c := scanHeads sbs
  match c.minI with
  | none => none
  | some i =>
    let sb := sbs.getD i []
    let n := if c.bound = Int64.maxValue then sb.length
      else partitionPoint (fun s => s.1 < c.bound) sb
    -- the head ties with another block: a single sample is taken
    if n = 0 then some (pushAll dst (sb.take 1), sbs.set i (sb.drop 1))
    else some (appendRun dst (sb.take n), sbs.set i (sb.drop n))

/-- The current timestamps of the blocks that are not exhausted. -/
def heads (sbs : List (Samples V)) : List Int64 := sbs.filterMap fun sb => sb.head?.map Prod.fst

theorem heads_append (sbs sbs' : List (Samples V)) : heads (sbs ++ sbs') =
    heads sbs ++ heads sbs' :=
  filterMap_append

/-- What the scan finds in blocks that are not all exhausted. -/
def HeadScan.Finds (c : HeadScan) (sbs : List (Samples V)) : Prop :=
  ∃ pre s rest post, sbs = pre ++ (s :: rest) :: post ∧ c.minI = some pre.length ∧ c.minTs = s.1 ∧
    s.1 ≤ c.bound ∧ (∀ t ∈ heads pre, s.1 < t ∧ c.bound ≤ t) ∧ ∀ t ∈ heads post, c.bound ≤ t

theorem scanHeads_append (sbs : List (Samples V)) (sb : Samples V) :
    scanHeads (sbs ++ [sb]) = (scanHeads sbs).visit sb sbs.length := by
  rw [scanHeads, zipIdx_append, foldl_append, ← scanHeads]
  simp only [zipIdx_singleton, foldl_cons, foldl_nil, zero_add]

theorem scanHeads_spec (sbs : List (Samples V)) :
    (scanHeads sbs = ⟨none, Int64.maxValue, Int64.maxValue⟩ ∧ heads sbs = []) ∨
    (scanHeads sbs).Finds sbs := by
  induction sbs using List.reverseRecOn with
  | nil => exact .inl ⟨rfl, rfl⟩
  | append_singleton sbs sb ih =>
    rw [scanHeads_append]
    obtain _ | ⟨⟨t, v⟩, ts⟩ := sb
    · -- an exhausted block is skipped
      rw [heads_append]
      rcases ih with ⟨hc, hnil⟩ | ⟨pre, s, rest, post, hsbs, hi, hts, hle, hpre, hpost⟩
      · exact .inl ⟨hc, by rw [hnil]; rfl⟩
      · exact .inr ⟨pre, s, rest, post ++ [[]], by simp [hsbs], hi, hts, hle, hpre, by
          rwa [heads_append, show heads [[]] = [] from rfl, append_nil]⟩
    · right
      rw [HeadScan.visit]
      rcases ih with ⟨hc, hnil⟩ | ⟨pre, s, rest, post, hsbs, hi, hts, hle, hpre, hpost⟩
      · rw [hc, if_pos (.inl rfl)]
        exact ⟨sbs, (t, v), ts, [], rfl, rfl, rfl, Int64.le_iff_toInt_le.mpr (Int64.toInt_le _),
          by simp [hnil], by simp [heads]⟩
      · by_cases hlt : t < s.1
        · -- the heads of the blocks so far are not below `s`
          have hheads : ∀ q ∈ heads sbs, s.1 ≤ q := by
            rw [hsbs, heads_append]
            exact forall_mem_append.mpr ⟨fun q hq => (hpre q hq).1.le,
              forall_mem_cons.mpr ⟨le_rfl, fun q hq => hle.trans (hpost q hq)⟩⟩
          rw [if_pos (.inr (hts ▸ hlt)), hts]
          exact ⟨sbs, (t, v), ts, [], rfl, rfl, rfl, hlt.le,
            fun q hq => ⟨hlt.trans_le (hheads q hq), hheads q hq⟩, by simp [heads]⟩
        · -- a tie goes to the earlier block
          rw [if_neg (not_or.mpr ⟨by simp [hi], hts ▸ hlt⟩)]
          have hpost' : ∀ b ≤ (scanHeads sbs).bound, b ≤ t →
              ∀ q ∈ heads (post ++ [(t, v) :: ts]), b ≤ q := by
            intro b hb ht
            rw [heads_append]
            exact forall_mem_append.mpr ⟨fun q hq => hb.trans (hpost q hq),
              forall_mem_singleton.mpr ht⟩
          split_ifs with hbound
          · exact ⟨pre, s, rest, post ++ [(t, v) :: ts], by simp [hsbs], hi, hts, not_lt.mp hlt,
              fun q hq => ⟨(hpre q hq).1, hbound.le.trans (hpre q hq).2⟩, hpost' t hbound.le le_rfl⟩
          · exact ⟨pre, s, rest, post ++ [(t, v) :: ts], by simp [hsbs], hi, hts, hle, hpre,
              hpost' _ le_rfl (not_lt.mp hbound)⟩

/-- In sorted blocks the heads are the least samples. -/
theorem forall_mem_flatten_of_heads (P : Int64 → Prop) (hP : ∀ a b, a ≤ b → P a → P b)
    (hsbs : ∀ sb ∈ sbs, sb.Mergeable) (h : ∀ t ∈ heads sbs, P t) : ∀ q ∈ sbs.flatten, P q.1 := by
  intro q hq
  obtain ⟨sb, hsb, hq⟩ := mem_flatten.mp hq
  obtain ⟨a, sb, rfl⟩ := exists_cons_of_ne_nil (ne_nil_of_mem hq)
  have ha := h a.1 (mem_filterMap.mpr ⟨_, hsb, rfl⟩)
  rcases mem_cons.mp hq with rfl | hq
  · exact ha
  · exact hP _ _ ((pairwise_cons.mp (hsbs _ hsb).sorted).1 _ hq) ha

theorem mergeStep_eq_none {dst : Samples V} (h : mergeStep dst sbs = none) : heads sbs = [] := by
  rcases scanHeads_spec sbs with ⟨-, hnil⟩ | ⟨pre, s, rest, post, -, hi, -⟩
  · exact hnil
  · simp only [mergeStep, hi] at h
    split_ifs at h

/-- A step takes samples that are not above any other, and below those of the blocks before. -/
theorem mergeStep_eq_some {dst' : Samples V} {sbs' : List (Samples V)}
    (h : mergeStep dst sbs = some (dst', sbs')) :
    ∃ pre run rest post, sbs = pre ++ (run ++ rest) :: post ∧
    sbs' = pre ++ rest :: post ∧ run ≠ [] ∧
      dst' = pushAll dst run ∧ ((∀ sb ∈ sbs, sb.Mergeable) →
        ∀ r ∈ run, (∀ q ∈ pre.flatten, r.1 < q.1) ∧ ∀ q ∈ post.flatten, r.1 ≤ q.1) := by
  rcases scanHeads_spec sbs with ⟨hc, -⟩ | ⟨pre, s, rest, post, rfl, hi, -, hle, hpre, hpost⟩
  · rw [mergeStep, hc] at h
    cases h
  · have hget : (pre ++ (s :: rest) :: post).getD pre.length [] = s :: rest := by simp
    have hset : ∀ sb, (pre ++ (s :: rest) :: post).set pre.length sb = pre ++ sb :: post := by simp
    simp only [mergeStep, hi, hget, hset] at h
    generalize (scanHeads _).bound = bound at hle hpre hpost h
    generalize hn : (if bound = Int64.maxValue then _ else _) = n at h
    -- the samples of a block are not below its head
    have hfrom : ∀ {l : List (Samples V)} {b : Int64}, (∀ sb ∈ l, sb.Mergeable) →
        (∀ t ∈ heads l, b ≤ t) → ∀ q ∈ l.flatten, b ≤ q.1 :=
      forall_mem_flatten_of_heads _ fun a b hab h => h.trans hab
    split_ifs at h with hzero <;> obtain ⟨rfl, rfl⟩ := Prod.mk.inj (Option.some.inj h)
    · refine ⟨pre, [s], rest, post, rfl, rfl, cons_ne_nil _ _, rfl, fun hsbs r hr => ?_⟩
      obtain rfl := mem_singleton.mp hr
      rw [forall_mem_append, forall_mem_cons] at hsbs
      exact ⟨forall_mem_flatten_of_heads _ (fun a b hab h => h.trans_le hab) hsbs.1 fun t ht =>
        (hpre t ht).1, hfrom hsbs.2.2 fun t ht => hle.trans (hpost t ht)⟩
    · refine ⟨pre, (s :: rest).take n, (s :: rest).drop n, post, by rw [take_append_drop], rfl, ?_,
        appendRun_eq _ _, fun hsbs r hr => ?_⟩
      · rw [Ne, take_eq_nil_iff, not_or]
        exact ⟨hzero, cons_ne_nil _ _⟩
      · rw [forall_mem_append, forall_mem_cons] at hsbs
        have hlt : ∀ {l : List (Samples V)}, (∀ sb ∈ l, sb.Mergeable) → (∀ t ∈ heads l, bound ≤ t) →
            ∀ q ∈ l.flatten, r.1 < q.1 := by
          intro l hl hheads q hq
          have hbound := hfrom hl hheads q hq
          obtain ⟨sb, hsb, hq⟩ := mem_flatten.mp hq
          split_ifs at hn with hnone
          · -- no other block has samples
            exact absurd ((hl sb hsb).lt_max q hq) (not_lt.mpr (hnone ▸ hbound))
          · subst hn
            exact (lt_of_mem_take_partitionPoint (fun _ _ => decide_eq_true_iff) hr).trans_le hbound
        exact ⟨hlt hsbs.1 fun t ht => (hpre t ht).2, fun q hq => (hlt hsbs.2.2 hpost q hq).le⟩

/-- Merges sorted blocks; of the samples with one timestamp the first in block order is kept. -/
def mergeSortBlocks (dst : Samples V) (sbs : List (Samples V)) : Samples V :=
  match _h : mergeStep dst sbs with
  | none => dst
  | some (dst', sbs') => mergeSortBlocks dst' sbs'
termination_by sbs.flatten.length
decreasing_by
  obtain ⟨pre, run, rest, post, rfl, rfl, hrun, -⟩ := mergeStep_eq_some _h
  have hpos := length_pos_iff.mpr hrun
  simp only [flatten_append, flatten_cons, length_append]
  omega

/-- **The merge is a stable sort.** -/
theorem mergeSortBlocks_eq (hsbs : ∀ sb ∈ sbs, sb.Mergeable) :
    mergeSortBlocks dst sbs = pushAll dst (sortByKey Prod.fst sbs.flatten) := by
  fun_induction mergeSortBlocks dst sbs with
  | case1 dst sbs h =>
    have hnil := forall_mem_flatten_of_heads (fun _ => False) (fun _ _ _ h => h) hsbs
      (by simp [mergeStep_eq_none h])
    rw [eq_nil_iff_forall_not_mem.mpr hnil]
    rfl
  | case2 dst sbs dst' sbs' h ih =>
    obtain ⟨pre, run, rest, post, rfl, rfl, -, rfl, hrel⟩ := mergeStep_eq_some h
    specialize hrel hsbs
    rw [forall_mem_append, forall_mem_cons] at hsbs ih
    obtain ⟨hsorted, hmax⟩ := hsbs.2.1
    rw [ih ⟨hsbs.1, ⟨(pairwise_append.mp hsorted).2.1,
      fun s hs => hmax s (mem_append_right _ hs)⟩, hsbs.2.2⟩, ← pushAll_append]
    simp only [flatten_append, flatten_cons, append_assoc]
    rw [sortByKey_take_middle _ hsorted (fun r hr => (hrel r hr).1) fun r hr => (hrel r hr).2]

/-! ### The series -/

/-- The index range of the samples inside `tr`. -/
def trimRange (samples : Samples V) (tr : TimeRange) : ℕ × ℕ :=
  (partitionPoint (fun s => s.1 < tr.minTimestamp) samples,
    partitionPoint (fun s => s.1 ≤ tr.maxTimestamp) samples)

/-- The samples of a block inside `tr`, if there are any. -/
def trimmedRun (tr : TimeRange) (db : Samples V) : Option (Samples V) :=
  let (lo, hi) := trimRange db tr
  if lo ≥ hi then none else some ((db.take hi).drop lo)

/-- The samples of a block inside `tr`, looked at one by one. -/
def trimmed (tr : TimeRange) (db : Samples V) : Samples V :=
  db.filter fun s => ¬ (s.1 < tr.minTimestamp ∨ s.1 > tr.maxTimestamp)

/-- A block of a part. -/
structure BlockRef where
  part : PartFiles
  header : BlockHeader

/-- The blocks of a series and its marshaled name. -/
structure SeriesRefs where
  metricName : Bytes
  brs : List BlockRef

/-- A series with its samples. -/
structure SeriesBlock (V : Type) where
  metricName : MetricName
  samples : Samples V

variable (z : Zstd) (toFloat : Int16 → Int64 → V)

/-- The decoded samples of blocks. -/
def decodeBlocks : List BlockRef → Outcome (List (Samples V))
  | [] => .ok []
  | br :: brs => do
    let b ← br.part.readBlock z br.header
    let dbs ← decodeBlocks brs
    .ok (b.timestamps.zip (b.values.map (toFloat b.bh.scale)) :: dbs)

section Unpack

variable [LT V] [DecidableLT V] (isStaleNan : V → Bool) (sr : SeriesRefs) (tr : TimeRange)
  (dedupInterval : Int64)

/-- A series whose samples are collected from its decoded blocks, and deduplicated. -/
def readSeries (collect : List (Samples V) → Samples V) : Outcome (SeriesBlock V) := do
  let metricName ← (Outcome.ofExcept (MetricName.unmarshal sr.metricName)).mapErr
    fun err => s!"cannot unmarshal metricName: {err}"
  let samples := collect (← decodeBlocks z toFloat sr.brs)
  if dedupInterval > 0 then
    let (samples, n) := deduplicateInPlace isStaleNan samples dedupInterval
    .ok ⟨metricName, samples.take n⟩
  else .ok ⟨metricName, samples⟩

/-- Unpacks a series; its blocks are merged if they overlap. -/
def unpackSeries : Outcome (SeriesBlock V) :=
  readSeries z toFloat isStaleNan sr dedupInterval fun dbs =>
    let runs := dbs.filterMap (trimmedRun tr)
    if sr.brs.IsChain fun a b =>
      a.header.maxTimestamp < b.header.minTimestamp then runs.foldl appendRun []
    else mergeSortBlocks [] runs

/-- Reads a series as `next_series` does: all the samples are sorted. -/
def nextSeries : Outcome (SeriesBlock V) :=
  readSeries z toFloat isStaleNan sr dedupInterval fun dbs =>
    pushAll [] (sortByKey Prod.fst (dbs.flatMap (trimmed tr)))

end Unpack

/-- The samples of a block can be merged, and are in the range of its header. -/
structure BlockRef.Holds (br : BlockRef) (db : Samples V) : Prop where
  mergeable : db.Mergeable
  minTimestamp_le : br.header.minTimestamp ≤ br.header.maxTimestamp
  range : ∀ s ∈ db, br.header.minTimestamp ≤ s.1 ∧ s.1 ≤ br.header.maxTimestamp

variable {z toFloat} (tr : TimeRange) {brs : List BlockRef} {dbs : List (Samples V)}

/-- Trimming keeps the samples inside the range. -/
theorem trimmedRun_toList {l : Samples V} (h : l.Pairwise fun a b => a.1 ≤ b.1) :
    (trimmedRun tr l).toList.flatten = trimmed tr l := by
  have hslice : (l.take (trimRange l tr).2).drop (trimRange l tr).1 = trimmed tr l := by
    simp only [trimRange, partitionPoint, trimmed]
    induction l with
    | nil => rfl
    | cons s l ih =>
      obtain ⟨hs, hl⟩ := pairwise_cons.mp h
      specialize ih hl
      by_cases hmax : s.1 ≤ tr.maxTimestamp
      · by_cases hmin : s.1 < tr.minTimestamp
        · simpa [takeWhile_cons, hmin, hmax] using ih
        · -- nothing after `s` is before the range
          have hzero : l.takeWhile (fun s => s.1 < tr.minTimestamp) = [] := by
            obtain _ | ⟨q, l⟩ := l
            · rfl
            · exact takeWhile_cons_of_neg
                (by simpa using (not_lt.mp hmin).trans (hs q mem_cons_self))
          simp only [hzero, length_nil, drop_zero] at ih
          simp [filter_cons, hmin, hmax, ih]
      · have hafter : ∀ q ∈ s :: l, tr.maxTimestamp < q.1 := forall_mem_cons.mpr
          ⟨not_le.mp hmax, fun q hq => (not_le.mp hmax).trans_le (hs q hq)⟩
        rw [filter_eq_nil_iff.mpr fun q hq => by simp [hafter q hq]]
        simp [takeWhile_cons, hmax]
  simp only [trimmedRun]
  split_ifs with hempty
  · rw [← hslice, drop_eq_nil_of_le ((length_take_le _ _).trans hempty)]
    rfl
  · rw [Option.toList_some, flatten_singleton, hslice]

/-- The samples of blocks that do not overlap are sorted. -/
theorem pairwise_flatMap_trimmed (h : List.Forall₂ BlockRef.Holds brs dbs)
    (hchain : brs.IsChain fun a b => a.header.maxTimestamp < b.header.minTimestamp) :
    (dbs.flatMap (trimmed tr)).Pairwise (fun a b => a.1 ≤ b.1) ∧
      ∀ br ∈ brs.head?, ∀ s ∈ dbs.flatMap (trimmed tr), br.header.minTimestamp ≤ s.1 := by
  induction h with
  | nil => simp
  | @cons br db brs dbs hbr h ih =>
    obtain ⟨hhead, hchain⟩ := isChain_cons.mp hchain
    obtain ⟨hsorted, hmin⟩ := ih hchain
    -- the later blocks begin after the end of `br`
    have hafter : ∀ s ∈ dbs.flatMap (trimmed tr), br.header.maxTimestamp < s.1 := by
      intro s hs
      cases h with
      | nil => cases hs
      | cons hb h => exact (hhead _ rfl).trans_le (hmin _ rfl s hs)
    have hrange : ∀ s ∈ trimmed tr db, _ := fun s hs => hbr.range s (mem_of_mem_filter hs)
    rw [flatMap_cons]
    refine ⟨pairwise_append.mpr ⟨hbr.mergeable.sorted.sublist filter_sublist, hsorted,
      fun a ha s hs => (hrange a ha).2.trans (hafter s hs).le⟩,
      fun b hb => forall_mem_append.mpr ?_⟩
    obtain rfl := Option.some.inj hb
    exact ⟨fun s hs => (hrange s hs).1, fun s hs => hbr.minTimestamp_le.trans (hafter s hs).le⟩

/-- The runs are the samples inside the range. -/
theorem filterMap_trimmedRun (h : ∀ db ∈ dbs, db.Mergeable) :
    (∀ run ∈ dbs.filterMap (trimmedRun tr), run.Mergeable) ∧
      (dbs.filterMap (trimmedRun tr)).flatten = dbs.flatMap (trimmed tr) := by
  constructor
  · intro run hrun
    obtain ⟨db, hdb, heq⟩ := mem_filterMap.mp hrun
    have hrun' := trimmedRun_toList tr (h db hdb).sorted
    rw [heq, Option.toList_some, flatten_singleton] at hrun'
    rw [hrun']
    exact ⟨(h db hdb).sorted.sublist filter_sublist,
      fun s hs => (h db hdb).lt_max s (mem_of_mem_filter hs)⟩
  · induction dbs with
    | nil => rfl
    | cons db dbs ih =>
      obtain ⟨hdb, hdbs⟩ := forall_mem_cons.mp h
      rw [flatMap_cons, ← ih hdbs, ← trimmedRun_toList tr hdb.sorted, filterMap_cons]
      cases trimmedRun tr db <;> simp

theorem foldl_appendRun (dst : Samples V) (runs : List (Samples V)) :
    runs.foldl appendRun dst = pushAll dst runs.flatten := by
  induction runs generalizing dst with
  | nil => rfl
  | cons run runs ih => rw [foldl_cons, ih, appendRun_eq, flatten_cons, pushAll_append]

/-- **The merge reads what the serial path reads.** -/
theorem unpackSeries_eq_nextSeries [LT V] [DecidableLT V] (isStaleNan : V → Bool) {sr : SeriesRefs}
    (hsr : ∀ dbs, decodeBlocks z toFloat sr.brs = .ok dbs → List.Forall₂ BlockRef.Holds sr.brs dbs)
    (dedupInterval : Int64) :
    unpackSeries z toFloat isStaleNan sr tr dedupInterval =
      nextSeries z toFloat isStaleNan sr tr dedupInterval := by
  rw [unpackSeries, nextSeries, readSeries, readSeries]
  cases hdbs : decodeBlocks z toFloat sr.brs with
  | err msg => rfl
  | panic msg => rfl
  | ok dbs =>
    have hholds := hsr dbs hdbs
    obtain ⟨hruns, hflat⟩ := filterMap_trimmedRun tr fun db hdb =>
      (exists_of_mem_left hholds.flip hdb).elim fun br hbr => hbr.2.mergeable
    by_cases hchain : sr.brs.IsChain fun a b => a.header.maxTimestamp < b.header.minTimestamp
    · have hsorted := sortByKey_eq_self _ (pairwise_flatMap_trimmed tr hholds hchain).1
      simp only [Outcome.ok_bind, if_pos hchain, foldl_appendRun, hflat, hsorted]
    · simp only [Outcome.ok_bind, if_neg hchain, mergeSortBlocks_eq hruns, hflat]

/-- Two blocks that overlap. -/
theorem unpackSeries_eq_nextSeries_overlap :
    let br : Int64 → BlockRef := fun v =>
      ⟨⟨⟨default, [], []⟩, [], []⟩, { (default : BlockHeader) with
      minTimestamp := 10, maxTimestamp := 10, firstValue := v, rowsCount :=
        1, timestampsMarshalType := 3,
      valuesMarshalType := 3, precisionBits := 64 }⟩
    unpackSeries Zstd.stored (fun _ v => v) (fun _ => false) ⟨[97, 1], [br 5, br 6]⟩ ⟨0, 99⟩ 0 =
      nextSeries Zstd.stored (fun _ v => v) (fun _ => false) ⟨[97, 1], [br 5, br 6]⟩ ⟨0, 99⟩ 0 := by
  intro br
  have hholds : ∀ v, (br v).Holds [(10, v)] := fun v =>
    ⟨⟨pairwise_singleton _ _, forall_mem_singleton.mpr (by decide : (10 : Int64) < Int64.maxValue)⟩,
      le_rfl, forall_mem_singleton.mpr ⟨le_rfl, le_rfl⟩⟩
  have hdecode : decodeBlocks Zstd.stored (fun _ v => v) [br 5, br 6] =
      .ok [[(10, 5)], [(10, 6)]] := rfl
  refine unpackSeries_eq_nextSeries _ _ (fun dbs hdbs => ?_) _
  obtain rfl := Outcome.ok.inj (hdecode.symm.trans hdbs)
  exact .cons (hholds 5) (.cons (hholds 6) .nil)

end Esmetrics
