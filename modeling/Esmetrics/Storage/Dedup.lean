import Esmetrics.Lib.BucketMax
import Esmetrics.Storage.Block

/-!
# Deduplication of samples

Model of `esm-storage/src/dedup.rs`: samples sorted by timestamp are divided into buckets that end
at multiples of the deduplication interval, and of every bucket only the last sample is kept;
among samples with the same timestamp one that is no staleness mark is preferred, then the
largest. The code compacts the samples in place; the two slices of the source are one list of
samples here.

What is kept are the best samples of the buckets in the sense of `IsBucketMax`
(`isBucketMax_deduplicate`): one sample for every bucket that has any (`deduplicate_buckets`).
Deduplication may be applied to parts before they are merged, any number of times and in any
grouping (`deduplicate_confluent`).
-/

namespace Esmetrics

open List

/-- The decimal form of the staleness mark. -/
def vStaleNan : Int64 := 9223372036854775806

def isStaleNanInt64 (v : Int64) : Bool := v == vStaleNan

/-! ### The algorithm -/

section Algorithm

variable {T : Type} [LT T] [DecidableLT T] (isStaleNan : T → Bool)

/-- The better of the value `v` and the value chosen so far. -/
def betterValue (v vPrev : T) : T :=
  if isStaleNan v then vPrev
  else if isStaleNan vPrev then v
  else if v > vPrev then v
  else vPrev

/-- The sample at index `j`, with the best value of the samples with the same timestamp just
before it. -/
def pickSampleAt (samples : List (Int64 × T)) (j : ℕ) : Option (Int64 × T) :=
  samples[j]?.map fun s =>
    let ties := (samples.take j).reverse.takeWhile fun t => t.1 == s.1
    (s.1, ties.foldl (fun vPrev t => betterValue isStaleNan t.2 vPrev) s.2)

/-- The end of the bucket of a timestamp. -/
def bucketEnd (dedupInterval ts : Int64) : Int64 :=
  let tsNext := ts + dedupInterval - 1
  tsNext - tsNext % dedupInterval

/-- The end of the bucket of `ts`, which is past the bucket that ends at `tsNext`. -/
def nextBucketEnd (dedupInterval tsNext ts : Int64) : Int64 :=
  let tsNext := tsNext + dedupInterval
  if tsNext < ts then bucketEnd dedupInterval ts else tsNext

/-- The loop of `needsDedup`. -/
def needsDedupLoop (dedupInterval tsNext : Int64) : List Int64 → Bool
  | [] => false
  | ts :: timestamps =>
    if ts ≤ tsNext then true
    else needsDedupLoop dedupInterval (nextBucketEnd dedupInterval tsNext ts) timestamps

/-- Some samples are closer to each other than the interval. -/
def needsDedup (timestamps : List Int64) (dedupInterval : Int64) : Bool :=
  match timestamps with
  | first :: second :: rest =>
    if dedupInterval ≤ 0 then false
    else needsDedupLoop dedupInterval (bucketEnd dedupInterval first) (second :: rest)
  | _ => false

/-- The samples, compacted in place up to `dstLen`, and the end of the current bucket. -/
structure DedupState (T : Type) where
  samples : List (Int64 × T)
  dstLen : ℕ
  tsNext : Int64

/-- The loop body of `deduplicateInPlace` at index `i`. -/
def dedupStep (dedupInterval : Int64) (st : DedupState T) (i : ℕ) : DedupState T :=
  match st.samples[i]?, pickSampleAt isStaleNan st.samples (i - 1) with
  | some (ts, _), some s =>
    if ts ≤ st.tsNext then st
    else
      { samples := st.samples.set st.dstLen s
        dstLen := st.dstLen + 1
        tsNext := nextBucketEnd dedupInterval st.tsNext ts }
  | _, _ => st

/-- Compacts the kept samples to the front; returns the samples and the number of those kept. -/
def deduplicateInPlace (samples : List (Int64 × T)) (dedupInterval : Int64) :
    List (Int64 × T) × ℕ :=
  if ¬ needsDedup (samples.map Prod.fst) dedupInterval then (samples, samples.length)
  else
    match samples with
    | [] => (samples, 0)
    | first :: _ =>
      let st := (List.range' 1 (samples.length - 1)).foldl (dedupStep isStaleNan dedupInterval)
        ⟨samples, 0, bucketEnd dedupInterval first.1⟩
      match pickSampleAt isStaleNan st.samples (samples.length - 1) with
      | some s => (st.samples.set st.dstLen s, st.dstLen + 1)
      | none => (st.samples, st.dstLen)

end Algorithm

/-- Merge-time deduplication, on decimal values. -/
def deduplicateSamplesDuringMerge (samples : List (Int64 × Int64)) (dedupInterval : Int64) :
    List (Int64 × Int64) :=
  let (samples, n) := deduplicateInPlace isStaleNanInt64 samples dedupInterval
  samples.take n

/-- Applies the global interval to the unpacked rows of a block that are still to be read. -/
def Block.deduplicateSamplesDuringMerge (z : Zstd) (dedupInterval : Int64) (b : Block) :
    Outcome Block :=
  if ¬ dedupInterval > 0 then .ok b
  else
    match b.unmarshalData z with
    | .ok b =>
      if b.timestamps.length - b.nextIdx < 2 then .ok b
      else
        let rows := (b.timestamps.zip b.values).drop b.nextIdx
        let kept := Esmetrics.deduplicateSamplesDuringMerge rows dedupInterval
        .ok { b with
          timestamps := b.timestamps.take b.nextIdx ++ kept.map Prod.fst
          values := b.values.take b.nextIdx ++ kept.map Prod.snd }
    | .err err => .panic s!"FATAL: cannot unmarshal block: {err}"
    | .panic msg => .panic msg

/-! ### Buckets in machine arithmetic -/

/-- The number of the bucket of a timestamp. -/
def bucket (d ts : Int64) : ℤ := (ts.toInt + d.toInt - 1) / d.toInt

/-- The timestamps for which the arithmetic of the source does not overflow. -/
def InRange (d ts : Int64) : Prop := 0 ≤ ts.toInt ∧ ts.toInt + d.toInt < 2 ^ 63

section Buckets

variable {d ts ts' tsNext : Int64}

theorem bucket_le_iff (hd : 0 < d.toInt) {k : ℤ} : bucket d ts ≤ k ↔ ts.toInt ≤ d.toInt * k := by
  rw [bucket, ← Int.lt_add_one_iff, Int.ediv_lt_iff_lt_mul hd]
  have hmul : (k + 1) * d.toInt = d.toInt * k + d.toInt := by ring
  rw [hmul]
  omega

theorem bucket_mono (hd : 0 < d.toInt) (h : ts ≤ ts') : bucket d ts ≤ bucket d ts' := by
  have hle := Int64.le_iff_toInt_le.mp h
  exact Int.ediv_le_ediv hd (by omega)

/-- The end of a bucket is a multiple of the interval. -/
theorem toInt_bucketEnd (hd : 0 < d.toInt) (hts : InRange d ts) :
    (bucketEnd d ts).toInt = d.toInt * bucket d ts := by
  obtain ⟨hlo, hhi⟩ := hts
  have hone : (1 : Int64).toInt = 1 := rfl
  have hsum : (ts + d - 1).toInt = ts.toInt + d.toInt - 1 := by
    have hadd := toInt_add_of_lt (a := ts) (b := d) (by omega) (by omega)
    rw [toInt_sub_of_lt (by omega) (by omega), hadd, hone]
  have hmod : ((ts + d - 1) % d).toInt = (ts.toInt + d.toInt - 1) % d.toInt := by
    rw [Int64.toInt_mod, hsum, Int.tmod_eq_emod_of_nonneg (by omega)]
  have hrem := Int.emod_nonneg (ts.toInt + d.toInt - 1) hd.ne'
  have hremlt := Int.emod_lt_of_pos (ts.toInt + d.toInt - 1) hd
  have hdiv := Int.mul_ediv_add_emod (ts.toInt + d.toInt - 1) d.toInt
  rw [bucketEnd]
  rw [toInt_sub_of_lt (by omega) (by omega), hsum, hmod, bucket]
  omega

/-- The end of the next bucket, found by adding the interval or by aligning again. -/
theorem toInt_nextBucketEnd (hd : 0 < d.toInt) {k : ℤ} (hk : tsNext.toInt = d.toInt * k)
    (hk0 : 0 ≤ tsNext.toInt) (hts : InRange d ts) (hlt : k < bucket d ts) :
    (nextBucketEnd d tsNext ts).toInt = d.toInt * bucket d ts := by
  have hpast : ¬ ts.toInt ≤ d.toInt * k := fun h => absurd ((bucket_le_iff hd).mpr h) (by omega)
  have hsum : (tsNext + d).toInt = d.toInt * (k + 1) := by
    rw [toInt_add_of_lt (by omega) (by have := hts.2; omega), hk]
    ring
  rw [nextBucketEnd]
  split_ifs with hagain
  · exact toInt_bucketEnd hd hts
  · have hle : ts.toInt ≤ d.toInt * (k + 1) := by
      rw [← hsum]
      exact Int64.le_iff_toInt_le.mp (Int64.not_lt.mp hagain)
    have hbucket : bucket d ts = k + 1 := by
      have := (bucket_le_iff hd).mpr hle
      omega
    rw [hsum, hbucket]

theorem bucket_nonneg (hd : 0 < d.toInt) (hts : InRange d ts) : 0 ≤ bucket d ts :=
  Int.ediv_nonneg (by have := hts.1; omega) hd.le

/-- The comparison of the loops: a timestamp is in the current bucket, or past it. -/
theorem le_bucketEnd_iff (hd : 0 < d.toInt) {k : ℤ} (hk : tsNext.toInt = d.toInt * k) :
    ts ≤ tsNext ↔ bucket d ts ≤ k := by
  rw [bucket_le_iff hd, Int64.le_iff_toInt_le, hk]

end Buckets

/-! ### The kept samples are the best of their buckets -/

section Correct

variable {T : Type} [LinearOrder T] (isStaleNan : T → Bool)

/-- The rank of a value: staleness marks are below all the others. -/
def valueRank (v : T) : WithBot T := if isStaleNan v then ⊥ else v

/-- The rank of a sample: by timestamp, then by value. -/
def sampleRank (s : Int64 × T) : Int64 ×ₗ WithBot T := toLex (s.1, valueRank isStaleNan s.2)

/-- There is one staleness mark. -/
def StaleUnique : Prop := ∀ a b, isStaleNan a → isStaleNan b → a = b

variable {isStaleNan}

omit [LinearOrder T] in
theorem sampleRank_injective (h : StaleUnique isStaleNan) :
    Function.Injective (sampleRank isStaleNan) := by
  intro s t hst
  simp only [sampleRank, EmbeddingLike.apply_eq_iff_eq, Prod.mk.injEq, valueRank] at hst
  refine Prod.ext hst.1 ?_
  have hrank := hst.2
  split_ifs at hrank with hs ht
  · exact h _ _ hs ht
  · cases hrank
  · cases hrank
  · exact WithBot.coe_injective hrank

theorem sampleRank_le_iff {s t : Int64 × T} : sampleRank isStaleNan s ≤ sampleRank isStaleNan t ↔
    s.1 < t.1 ∨ s.1 = t.1 ∧ valueRank isStaleNan s.2 ≤ valueRank isStaleNan t.2 :=
  Prod.Lex.toLex_le_toLex

/-- The better of two values is one of them, and no worse than either. -/
theorem betterValue_spec (isStaleNan : T → Bool) (v vPrev : T) :
    (betterValue isStaleNan v vPrev = v ∨ betterValue isStaleNan v vPrev = vPrev) ∧
      valueRank isStaleNan v ≤ valueRank isStaleNan (betterValue isStaleNan v vPrev) ∧
      valueRank isStaleNan vPrev ≤ valueRank isStaleNan (betterValue isStaleNan v vPrev) := by
  rw [betterValue]
  split_ifs with hv hprev hlt
  · exact ⟨.inr rfl, by simp [valueRank, hv], le_rfl⟩
  · exact ⟨.inl rfl, le_rfl, by simp [valueRank, hprev]⟩
  · exact ⟨.inl rfl, le_rfl, by simpa [valueRank, hv, hprev] using hlt.le⟩
  · exact ⟨.inr rfl, by simpa [valueRank, hv, hprev] using hlt, le_rfl⟩

/-- The walk over the ties chooses one of the values, no worse than any of them. -/
theorem foldl_betterValue_spec (isStaleNan : T → Bool) (ties : List (Int64 × T)) (v : T) :
    let w := ties.foldl (fun vPrev t => betterValue isStaleNan t.2 vPrev) v
    (w = v ∨ ∃ t ∈ ties, w = t.2) ∧ valueRank isStaleNan v ≤ valueRank isStaleNan w ∧
      ∀ t ∈ ties, valueRank isStaleNan t.2 ≤ valueRank isStaleNan w := by
  induction ties generalizing v with
  | nil => simp
  | cons t ties ih =>
    obtain ⟨hmem, hle, hall⟩ := ih (betterValue isStaleNan t.2 v)
    obtain ⟨hone, ht, hv⟩ := betterValue_spec isStaleNan t.2 v
    refine ⟨?_, hv.trans hle, fun s hs => ?_⟩
    · rcases hmem with h | ⟨s, hs, h⟩
      · rcases hone with h' | h'
        · exact .inr ⟨t, mem_cons_self, h.trans h'⟩
        · exact .inl (h.trans h')
      · exact .inr ⟨s, mem_cons_of_mem _ hs, h⟩
    · rcases mem_cons.mp hs with rfl | hs
      · exact ht.trans hle
      · exact hall s hs

omit [LinearOrder T] in
/-- In a list sorted downwards the samples of the largest timestamp come first. -/
theorem mem_takeWhile_of_sorted {l : List (Int64 × T)} {t : Int64}
    (hsorted : l.Pairwise fun x y => y.1 ≤ x.1) (hle : ∀ x ∈ l, x.1 ≤ t) {y : Int64 × T}
    (hy : y ∈ l) (hyt : y.1 = t) : y ∈ l.takeWhile fun x => x.1 == t := by
  induction l with
  | nil => simp at hy
  | cons x l ih =>
    obtain ⟨hx, hl⟩ := pairwise_cons.mp hsorted
    have hxt : x.1 = t := by
      rcases mem_cons.mp hy with rfl | hy
      · exact hyt
      · exact le_antisymm (hle x mem_cons_self) (hyt ▸ hx y hy)
    rw [takeWhile_cons_of_pos (by simpa using hxt)]
    rcases mem_cons.mp hy with rfl | hy
    · exact mem_cons_self
    · exact mem_cons_of_mem _ (ih hl (fun z hz => hle z (mem_cons_of_mem _ hz)) hy)

/-- The sample picked at the end of a run of sorted samples is the best of the run, whatever other
timestamps stand before the run. -/
theorem pickSampleAt_spec (isStaleNan : T → Bool) {junk c : List (Int64 × T)}
    (rest : List (Int64 × T)) {x : Int64 × T}
    (hsorted : (c ++ [x]).Pairwise fun s t => s.1 ≤ t.1) (hjunk : ∀ s ∈ junk, s.1 ≠ x.1) :
    ∃ w, pickSampleAt isStaleNan (junk ++ (c ++ x :: rest)) (junk.length + c.length) = some w ∧
      w ∈ c ++ [x] ∧ ∀ y ∈ c ++ [x], sampleRank isStaleNan y ≤ sampleRank isStaleNan w := by
  obtain ⟨hc, -, hcx⟩ := pairwise_append.mp hsorted
  have hget : (junk ++ (c ++ x :: rest))[junk.length + c.length]? = some x := by
    rw [getElem?_append_right (by omega), Nat.add_sub_cancel_left,
      getElem?_append_right (by omega), Nat.sub_self, getElem?_cons_zero]
  have htake : (junk ++ (c ++ x :: rest)).take (junk.length + c.length) = junk ++ c := by
    rw [← append_assoc, take_left' (length_append)]
  -- the walk stops before the junk
  have hties : (junk ++ c).reverse.takeWhile (fun t => t.1 == x.1) =
      c.reverse.takeWhile fun t => t.1 == x.1 := by
    rw [reverse_append, takeWhile_append]
    have hnone : junk.reverse.takeWhile (fun t => t.1 == x.1) = [] := by
      rw [takeWhile_eq_nil_iff]
      intro hlen
      have hmem := getElem_mem hlen
      simpa using hjunk _ (mem_reverse.mp hmem)
    rw [hnone]
    split_ifs with hall
    · rw [append_nil, (List.takeWhile_prefix _).eq_of_length hall]
    · rfl
  simp only [pickSampleAt, hget, Option.map_some, htake, hties]
  obtain ⟨hone, hx, hall⟩ := foldl_betterValue_spec isStaleNan
    (c.reverse.takeWhile fun t => t.1 == x.1) x.2
  refine ⟨_, rfl, ?_, fun y hy => ?_⟩
  · rcases hone with h | ⟨t, ht, h⟩
    · rw [h]
      simp
    · have htc : t ∈ c := mem_reverse.mp ((takeWhile_subset _) ht)
      have htx : t.1 = x.1 := by simpa using mem_takeWhile_imp ht
      rw [h, ← htx]
      exact mem_append_left _ htc
  · rw [sampleRank_le_iff]
    rcases mem_append.mp hy with hyc | hyx
    · rcases (hcx y hyc x (by simp)).lt_or_eq with hlt | heq
      · exact .inl hlt
      · refine .inr ⟨heq, hall y (mem_takeWhile_of_sorted (pairwise_reverse.mpr hc)
          (fun z hz => hcx z (mem_reverse.mp hz) x (by simp)) (mem_reverse.mpr hyc)
          heq)⟩
    · rw [mem_singleton.mp hyx]
      exact .inr ⟨rfl, hx⟩

/-- The state of the compaction of `pre ++ cur ++ rest` in the middle of a bucket: the best samples
`out` of the closed buckets `pre` stand at the front, the samples of the open bucket `cur` and the
ones to come are still in their places. -/
structure DedupInv (isStaleNan : T → Bool) (d : Int64) (pre cur rest out : List (Int64 × T))
    (st : DedupState T) : Prop where
  cur_ne : cur ≠ []
  length_le : out.length ≤ pre.length
  dstLen_eq : st.dstLen = out.length
  samples_eq : st.samples = out ++ (pre.drop out.length ++ (cur ++ rest))
  isMax : IsBucketMax (fun s => bucket d s.1) (sampleRank isStaleNan) pre out
  exists_bucket : ∃ k : ℤ, (∀ s ∈ pre, bucket d s.1 < k) ∧ (∀ s ∈ cur, bucket d s.1 = k) ∧
    st.tsNext.toInt = d.toInt * k

variable {d : Int64} {pre cur rest out : List (Int64 × T)} {st : DedupState T}

/-- The sample picked in the open bucket is its best one. -/
theorem DedupInv.pick (h : DedupInv isStaleNan d pre cur rest out st)
    (hsorted : cur.Pairwise fun s t => s.1 ≤ t.1) :
    ∃ w, pickSampleAt isStaleNan st.samples (pre.length + cur.length - 1) = some w ∧ w ∈ cur ∧
      ∀ y ∈ cur, sampleRank isStaleNan y ≤ sampleRank isStaleNan w := by
  obtain ⟨c, x, rfl⟩ := eq_nil_or_concat' cur |>.resolve_left h.cur_ne
  obtain ⟨k, hpre, hcur, -⟩ := h.exists_bucket
  have hjunk : ∀ s ∈ out ++ pre.drop out.length, s.1 ≠ x.1 := by
    intro s hs heq
    have hs' : s ∈ pre := by
      rcases mem_append.mp hs with hs | hs
      · exact h.isMax.subset hs
      · exact mem_of_mem_drop hs
    have := hpre s hs'
    rw [heq, hcur x (by simp)] at this
    exact lt_irrefl k this
  have hlen : (out ++ pre.drop out.length).length = pre.length := by
    have := h.length_le
    rw [length_append, length_drop]
    omega
  obtain ⟨w, hpick, hw, hmax⟩ := pickSampleAt_spec isStaleNan rest hsorted hjunk
  refine ⟨w, ?_, hw, hmax⟩
  rw [h.samples_eq, length_append, length_singleton, ← Nat.add_assoc, Nat.add_sub_cancel,
    ← hlen, ← hpick]
  simp

/-- Closing the open bucket writes its best sample behind the others. -/
theorem DedupInv.close (hrank : StaleUnique isStaleNan)
    (h : DedupInv isStaleNan d pre cur rest out st) {w : Int64 × T} (hw : w ∈ cur)
    (hmax : ∀ y ∈ cur, sampleRank isStaleNan y ≤ sampleRank isStaleNan w) :
    IsBucketMax (fun s => bucket d s.1) (sampleRank isStaleNan) (pre ++ cur) (out ++ [w]) ∧
      st.samples.set st.dstLen w =
        (out ++ [w]) ++ ((pre ++ cur).drop (out ++ [w]).length ++ rest) := by
  obtain ⟨k, hpre, hcur, -⟩ := h.exists_bucket
  refine ⟨h.isMax.concat (sampleRank_injective hrank) hpre hcur hw hmax, ?_⟩
  have hlen : out.length < (pre ++ cur).length := by
    have := h.length_le
    have := length_pos_iff.mpr h.cur_ne
    rw [length_append]
    omega
  have hsamples : st.samples = out ++ ((pre ++ cur).drop out.length ++ rest) := by
    rw [h.samples_eq, drop_append_of_le_length h.length_le]
    simp
  rw [h.dstLen_eq, hsamples, set_append_right _ _ le_rfl, Nat.sub_self,
    drop_eq_getElem_cons hlen, cons_append, set_cons_zero, length_append,
    length_singleton]
  simp

/-- One step of the loop: the sample joins the open bucket, or closes it and opens the next. -/
theorem DedupInv.step (hrank : StaleUnique isStaleNan) (hd : 0 < d.toInt) {x : Int64 × T}
    (h : DedupInv isStaleNan d pre cur (x :: rest) out st)
    (hsorted : (pre ++ cur ++ x :: rest).Pairwise fun s t => s.1 ≤ t.1)
    (hrange : ∀ s ∈ pre ++ cur ++ x :: rest, InRange d s.1) :
    ∃ pre' cur' out', pre' ++ cur' = pre ++ cur ++ [x] ∧
      DedupInv isStaleNan d pre' cur' rest out'
        (dedupStep isStaleNan d st (pre.length + cur.length)) := by
  obtain ⟨k, hpre, hcur, hnext⟩ := h.exists_bucket
  obtain ⟨hleft, -, hcross⟩ := pairwise_append.mp hsorted
  obtain ⟨-, hcursorted, -⟩ := pairwise_append.mp hleft
  obtain ⟨w, hpick, hw, hmax⟩ := h.pick hcursorted
  have hget : st.samples[pre.length + cur.length]? = some x := by
    have hlen := h.length_le
    rw [h.samples_eq, getElem?_append_right (by omega), getElem?_append_right (by
      rw [length_drop]; omega), getElem?_append_right (by rw [length_drop]; omega),
      length_drop]
    have hzero : pre.length + cur.length - out.length - (pre.length - out.length) -
        cur.length = 0 := by
      omega
    rw [hzero, getElem?_cons_zero]
  -- the bucket of `x` is the open one or a later one
  obtain ⟨y, hy⟩ := exists_mem_of_ne_nil cur h.cur_ne
  have hk : k ≤ bucket d x.1 := by
    rw [← hcur y hy]
    exact bucket_mono hd (hcross y (mem_append_right _ hy) x mem_cons_self)
  have hk0 : 0 ≤ k := by
    rw [← hcur y hy]
    exact bucket_nonneg hd (hrange y (by simp [hy]))
  have hxrange := hrange x (by simp)
  simp only [dedupStep, hget, hpick]
  split_ifs with hle
  · have hxk : bucket d x.1 = k := le_antisymm ((le_bucketEnd_iff hd hnext).mp hle) hk
    refine ⟨pre, cur ++ [x], out, by simp, by simp, h.length_le, h.dstLen_eq, ?_, h.isMax, k, hpre,
      ?_, hnext⟩
    · rw [h.samples_eq]
      simp
    · intro s hs
      rcases mem_append.mp hs with hs | hs
      · exact hcur s hs
      · rw [mem_singleton.mp hs, hxk]
  · have hlt : k < bucket d x.1 := not_le.mp fun hcon => hle ((le_bucketEnd_iff hd hnext).mpr hcon)
    obtain ⟨hbest, hset⟩ := h.close hrank hw hmax
    refine ⟨pre ++ cur, [x], out ++ [w], rfl, by simp, ?_, ?_, ?_, hbest, bucket d x.1, ?_, ?_, ?_⟩
    · have := h.length_le
      have := length_pos_iff.mpr h.cur_ne
      rw [length_append, length_append, length_singleton]
      omega
    · rw [length_append, length_singleton, h.dstLen_eq]
    · rw [hset]
      simp
    · intro s hs
      rcases mem_append.mp hs with hs | hs
      · exact (hpre s hs).trans hlt
      · rw [hcur s hs]
        exact hlt
    · simp
    · exact toInt_nextBucketEnd hd hnext (by rw [hnext]; positivity) hxrange hlt

/-- The whole loop leaves the last bucket open. -/
theorem DedupInv.loop (hrank : StaleUnique isStaleNan) (hd : 0 < d.toInt)
    (h : DedupInv isStaleNan d pre cur rest out st)
    (hsorted : (pre ++ cur ++ rest).Pairwise fun s t => s.1 ≤ t.1)
    (hrange : ∀ s ∈ pre ++ cur ++ rest, InRange d s.1) :
    ∃ pre' cur' out', pre' ++ cur' = pre ++ cur ++ rest ∧
      DedupInv isStaleNan d pre' cur' [] out'
        ((List.range' (pre.length + cur.length) rest.length).foldl
          (dedupStep isStaleNan d) st) := by
  induction rest generalizing pre cur out st with
  | nil => exact ⟨pre, cur, out, by simp, by simpa using h⟩
  | cons x rest ih =>
    obtain ⟨pre', cur', out', heq, h'⟩ := h.step hrank hd hsorted hrange
    have hall : pre ++ cur ++ x :: rest = pre' ++ cur' ++ rest := by
      rw [heq]
      simp
    have hlen : pre'.length + cur'.length = pre.length + cur.length + 1 := by
      have := congrArg List.length heq
      simp only [length_append, length_singleton] at this
      exact this
    rw [hall] at hsorted hrange ⊢
    obtain ⟨pre'', cur'', out'', heq', h''⟩ := ih h' hsorted hrange
    refine ⟨pre'', cur'', out'', heq', ?_⟩
    rw [length_cons, range'_succ, foldl_cons]
    rwa [hlen] at h''

omit [LinearOrder T] in
/-- Without samples to drop, every sample is alone in its bucket. -/
theorem pairwise_of_needsDedupLoop (hd : 0 < d.toInt) {l : List (Int64 × T)} {tsNext : Int64}
    {k : ℤ} (hk : tsNext.toInt = d.toInt * k) (hk0 : 0 ≤ k) (hrange : ∀ s ∈ l, InRange d s.1)
    (h : needsDedupLoop d tsNext (l.map Prod.fst) = false) :
    (∀ s ∈ l, k < bucket d s.1) ∧ l.Pairwise fun s t => bucket d s.1 < bucket d t.1 := by
  induction l generalizing tsNext k with
  | nil => simp
  | cons x l ih =>
    rw [map_cons, needsDedupLoop] at h
    split_ifs at h with hle
    have hlt : k < bucket d x.1 := not_le.mp fun hcon => hle ((le_bucketEnd_iff hd hk).mpr hcon)
    have hnext := toInt_nextBucketEnd hd hk (by rw [hk]; positivity) (hrange x mem_cons_self)
      hlt
    obtain ⟨hall, hpairs⟩ := ih hnext (hk0.trans hlt.le)
      (fun s hs => hrange s (mem_cons_of_mem _ hs)) h
    refine ⟨fun s hs => ?_, pairwise_cons.mpr ⟨hall, hpairs⟩⟩
    rcases mem_cons.mp hs with rfl | hs
    · exact hlt
    · exact hlt.trans (hall s hs)

/-- Deduplication keeps exactly the best sample of every bucket, whether the fast path is taken
or the samples are compacted. -/
theorem isBucketMax_deduplicateInPlace (hrank : StaleUnique isStaleNan) (hd : 0 < d.toInt)
    {l : List (Int64 × T)} (hsorted : l.Pairwise fun s t => s.1 ≤ t.1)
    (hrange : ∀ s ∈ l, InRange d s.1) :
    IsBucketMax (fun s => bucket d s.1) (sampleRank isStaleNan) l
      ((deduplicateInPlace isStaleNan l d).1.take (deduplicateInPlace isStaleNan l d).2) := by
  have hdpos : ¬ d ≤ 0 := by
    rw [Int64.le_iff_toInt_le]
    simpa using hd
  rw [deduplicateInPlace.eq_def]
  cases hneeds : needsDedup (l.map Prod.fst) d with
  | false =>
    simp only [Bool.false_eq_true, not_false_eq_true, if_true, take_length]
    match l with
    | [] => exact .nil
    | [x] => exact .self (pairwise_singleton _ _)
    | x :: y :: l =>
      simp only [map_cons, needsDedup, if_neg hdpos] at hneeds
      have hx := hrange x mem_cons_self
      obtain ⟨hall, hpairs⟩ := pairwise_of_needsDedupLoop (l := y :: l) hd
        (toInt_bucketEnd hd hx) (bucket_nonneg hd hx)
        (fun s hs => hrange s (mem_cons_of_mem _ hs)) hneeds
      exact .self (pairwise_cons.mpr ⟨hall, hpairs⟩)
  | true =>
    match l with
    | [] => exact .nil
    | x :: l =>
      have hinit : DedupInv isStaleNan d [] [x] l [] ⟨x :: l, 0, bucketEnd d x.1⟩ :=
        ⟨by simp, le_rfl, rfl, by simp, .nil, bucket d x.1, by simp, by simp,
          toInt_bucketEnd hd (hrange x mem_cons_self)⟩
      obtain ⟨pre, cur, out, heq, hfinal⟩ := hinit.loop hrank hd hsorted hrange
      simp only [nil_append, singleton_append] at heq
      rw [← heq] at hsorted
      obtain ⟨-, hcursorted, -⟩ := pairwise_append.mp hsorted
      obtain ⟨w, hpick, hw, hmax⟩ := hfinal.pick hcursorted
      obtain ⟨hbest, hset⟩ := hfinal.close hrank hw hmax
      have hlen : pre.length + cur.length - 1 = l.length := by
        rw [← length_append, heq, length_cons, Nat.add_sub_cancel]
      have hdst := hfinal.dstLen_eq
      simp only [length_nil, length_singleton, Nat.zero_add, hlen] at hpick hset hdst
      have htake : ((out ++ [w]) ++ ((pre ++ cur).drop (out ++ [w]).length ++ [])).take
          (out.length + 1) = out ++ [w] := take_left' (by simp)
      simp only [not_true_eq_false, if_false, length_cons, Nat.add_sub_cancel, hpick]
      rw [hset, hdst, htake, ← heq]
      exact hbest

end Correct

/-! ### Deduplication of decimal samples -/

theorem staleUnique_isStaleNanInt64 : StaleUnique isStaleNanInt64 := by
  intro a b ha hb
  rw [isStaleNanInt64, beq_iff_eq] at ha hb
  rw [ha, hb]

/-- Samples that merge-time deduplication can be applied to: sorted by timestamp, with timestamps
from zero on that leave room for the interval. -/
def Mergeable (d : Int64) (l : List (Int64 × Int64)) : Prop :=
  (l.Pairwise fun s t => s.1 ≤ t.1) ∧ ∀ s ∈ l, InRange d s.1

theorem isBucketMax_deduplicate {d : Int64} (hd : 0 < d) {l : List (Int64 × Int64)}
    (h : Mergeable d l) :
    IsBucketMax (fun s => bucket d s.1) (sampleRank isStaleNanInt64) l
      (deduplicateSamplesDuringMerge l d) :=
  isBucketMax_deduplicateInPlace staleUnique_isStaleNanInt64 (Int64.lt_iff_toInt_lt.mp hd) h.1 h.2

/-- What deduplication keeps can be deduplicated again. -/
theorem mergeable_deduplicate {d : Int64} (hd : 0 < d) {l : List (Int64 × Int64)}
    (h : Mergeable d l) : Mergeable d (deduplicateSamplesDuringMerge l d) := by
  have hkept := isBucketMax_deduplicate hd h
  refine ⟨hkept.1.imp fun {s t} hst => le_of_not_ge fun hge => ?_,
    fun s hs => h.2 s (hkept.subset hs)⟩
  exact absurd (bucket_mono (Int64.lt_iff_toInt_lt.mp hd) hge) (not_le.mpr hst)

/-- Deduplication is idempotent. -/
theorem deduplicate_deduplicate {d : Int64} (hd : 0 < d) {l : List (Int64 × Int64)}
    (h : Mergeable d l) :
    deduplicateSamplesDuringMerge (deduplicateSamplesDuringMerge l d) d =
      deduplicateSamplesDuringMerge l d := by
  have hkept := isBucketMax_deduplicate hd h
  exact (isBucketMax_deduplicate hd (mergeable_deduplicate hd h)).unique (.self hkept.1)
    fun _ => Iff.rfl

/-! ### The sample of a bucket -/

/-- The timestamps of the bucket with number `k`, which ends at `k * d` and starts after the end of
the one before. -/
def InBucket (d : Int64) (k : ℤ) (ts : Int64) : Prop :=
  (k - 1) * d.toInt < ts.toInt ∧ ts.toInt ≤ k * d.toInt

instance (d : Int64) (k : ℤ) (ts : Int64) : Decidable (InBucket d k ts) :=
  inferInstanceAs (Decidable (_ ∧ _))

theorem inBucket_iff {d : Int64} (hd : 0 < d) {k : ℤ} {ts : Int64} :
    InBucket d k ts ↔ bucket d ts = k := by
  have hd' := Int64.lt_iff_toInt_lt.mp hd
  have hk : bucket d ts ≤ k ↔ ts.toInt ≤ d.toInt * k := bucket_le_iff hd'
  have hk' : bucket d ts ≤ k - 1 ↔ ts.toInt ≤ d.toInt * (k - 1) := bucket_le_iff hd'
  rw [InBucket, mul_comm (k - 1), mul_comm k]
  omega

/-- The sample that stands for the bucket `k` of `l`: it has the largest timestamp of the bucket,
and the largest of the values at that timestamp that are no staleness marks, or a staleness mark
when there are none. -/
structure IsBucketSample (d : Int64) (k : ℤ) (l : List (Int64 × Int64)) (s : Int64 × Int64) :
    Prop where
  inBucket : InBucket d k s.1
  exists_timestamp : ∃ t ∈ l, t.1 = s.1
  timestamp_le : ∀ t ∈ l, InBucket d k t.1 → t.1 ≤ s.1
  value_of_exists : (∃ t ∈ l, t.1 = s.1 ∧ t.2 ≠ vStaleNan) →
    s ∈ l ∧ s.2 ≠ vStaleNan ∧ ∀ t ∈ l, t.1 = s.1 → t.2 ≠ vStaleNan → t.2 ≤ s.2
  value_of_stale : (∀ t ∈ l, t.1 = s.1 → t.2 = vStaleNan) → s.2 = vStaleNan

/-- The values that are no staleness marks are ranked by their order, above the marks. -/
theorem valueRank_le_iff {v w : Int64} (hv : v ≠ vStaleNan) :
    valueRank isStaleNanInt64 v ≤ valueRank isStaleNanInt64 w ↔ w ≠ vStaleNan ∧ v ≤ w := by
  have hv' : isStaleNanInt64 v = false := by simpa [isStaleNanInt64] using hv
  rcases eq_or_ne w vStaleNan with rfl | hw
  · simp [valueRank, hv, isStaleNanInt64]
  · have hw' : isStaleNanInt64 w = false := by simpa [isStaleNanInt64] using hw
    simp [valueRank, hv', hw', hw]

/-- A kept sample stands for its bucket. -/
theorem isBucketSample_of_mem {d : Int64} (hd : 0 < d) {l : List (Int64 × Int64)}
    (h : Mergeable d l) {s : Int64 × Int64} (hs : s ∈ deduplicateSamplesDuringMerge l d) :
    IsBucketSample d (bucket d s.1) l s := by
  obtain ⟨hmem, hmax⟩ := ((isBucketMax_deduplicate hd h).2 s).mp hs
  -- a sample of the bucket has an earlier timestamp, or the same one and no better value
  have hrank : ∀ t ∈ l, bucket d t.1 = bucket d s.1 →
      t.1 < s.1 ∨ t.1 = s.1 ∧ valueRank isStaleNanInt64 t.2 ≤ valueRank isStaleNanInt64 s.2 :=
    fun t ht hb => sampleRank_le_iff.mp (hmax t ht hb)
  have hvalue : ∀ t ∈ l, t.1 = s.1 → t.2 ≠ vStaleNan → s.2 ≠ vStaleNan ∧ t.2 ≤ s.2 := by
    intro t ht hts hne
    rcases hrank t ht (by rw [hts]) with hlt | ⟨-, hle⟩
    · exact absurd (hts ▸ hlt) (lt_irrefl _)
    · exact (valueRank_le_iff hne).mp hle
  constructor
  · exact (inBucket_iff hd).mpr rfl
  · exact ⟨s, hmem, rfl⟩
  · intro t ht hb
    rcases hrank t ht ((inBucket_iff hd).mp hb) with hlt | ⟨heq, -⟩
    · exact hlt.le
    · exact heq.le
  · rintro ⟨t, ht, hts, hne⟩
    exact ⟨hmem, (hvalue t ht hts hne).1, fun t ht hts hne => (hvalue t ht hts hne).2⟩
  · intro hstale
    exact hstale s hmem rfl

/-- Deduplication keeps one sample of every bucket that has any, the one that stands for it, in the
order of the timestamps, and deduplicating again changes nothing. -/
theorem deduplicate_buckets {d : Int64} (hd : 0 < d) {l : List (Int64 × Int64)}
    (h : Mergeable d l) :
    ((deduplicateSamplesDuringMerge l d).Pairwise fun s t => s.1 < t.1) ∧
      (∀ k, (∃ t ∈ l, InBucket d k t.1) → ∃ s, IsBucketSample d k l s ∧
        ((deduplicateSamplesDuringMerge l d).filter fun t => InBucket d k t.1) = [s]) ∧
      (∀ k, (∀ t ∈ l, ¬ InBucket d k t.1) →
        ((deduplicateSamplesDuringMerge l d).filter fun t => InBucket d k t.1) = []) ∧
      deduplicateSamplesDuringMerge (deduplicateSamplesDuringMerge l d) d =
        deduplicateSamplesDuringMerge l d := by
  have hkept := isBucketMax_deduplicate hd h
  refine ⟨hkept.1.imp fun {s t} hst => lt_of_not_ge fun hge => ?_, fun k hk => ?_, fun k hk => ?_,
    deduplicate_deduplicate hd h⟩
  · exact absurd (bucket_mono (Int64.lt_iff_toInt_lt.mp hd) hge) (not_le.mpr hst)
  · obtain ⟨t, ht, hbt⟩ := hk
    obtain ⟨s, hs, hst, -⟩ := hkept.exists_le ht
    rw [(inBucket_iff hd).mp hbt] at hst
    have hone := hkept.filter_key hs
    simp only [hst] at hone
    refine ⟨s, hst ▸ isBucketSample_of_mem hd h hs, ?_⟩
    simpa only [inBucket_iff hd] using hone
  · rw [filter_eq_nil_iff]
    intro t ht
    simpa using hk t (hkept.subset ht)

/-- The larger of the values at the largest timestamp stands for the bucket. -/
theorem deduplicate_buckets_ten :
    ∃ s, IsBucketSample 10 1 [(1, 5), (10, 4), (10, vStaleNan), (10, 7), (31, vStaleNan)] s ∧
      ((deduplicateSamplesDuringMerge
          [(1, 5), (10, 4), (10, vStaleNan), (10, 7), (31, vStaleNan)] 10).filter
        fun t => InBucket 10 1 t.1) = [s] :=
  (deduplicate_buckets (d := 10) (by decide) ⟨by decide, by simp [InRange]⟩).2.1 1
    ⟨(1, 5), by decide, by decide⟩

/-! ### Confluence -/

/-- The samples stored after background merges of raw samples: parts are deduplicated and merged
in timestamp order, any number of times and in any grouping. -/
inductive Stored (d : Int64) : List (Int64 × Int64) → List (Int64 × Int64) → Prop
  | raw {l : List (Int64 × Int64)} (hl : Mergeable d l) : Stored d l l
  | dedup {raw l : List (Int64 × Int64)} (h : Stored d raw l) :
      Stored d raw (deduplicateSamplesDuringMerge l d)
  | merge {raw₁ raw₂ l₁ l₂ l : List (Int64 × Int64)} (h₁ : Stored d raw₁ l₁)
      (h₂ : Stored d raw₂ l₂) (hsorted : l.Pairwise fun s t => s.1 ≤ t.1)
      (hl : l.Perm (l₁ ++ l₂)) : Stored d (raw₁ ++ raw₂) l

theorem Stored.inRange {d : Int64} {raw l : List (Int64 × Int64)} (h : Stored d raw l) :
    ∀ s ∈ raw, InRange d s.1 := by
  induction h with
  | raw hl => exact hl.2
  | dedup _ ih => exact ih
  | merge _ _ _ _ ih₁ ih₂ =>
    intro s hs
    exact (mem_append.mp hs).elim (ih₁ s) (ih₂ s)

/-- Stored samples have the best samples of the raw ones, and may be deduplicated again. -/
theorem Stored.spec {d : Int64} (hd : 0 < d) {raw l : List (Int64 × Int64)} (h : Stored d raw l) :
    Mergeable d l ∧ IsBucketMax (fun s => bucket d s.1) (sampleRank isStaleNanInt64) raw
      (deduplicateSamplesDuringMerge l d) := by
  induction h with
  | raw hl => exact ⟨hl, isBucketMax_deduplicate hd hl⟩
  | @dedup raw l h ih =>
    obtain ⟨hl, hbest⟩ := ih
    exact ⟨mergeable_deduplicate hd hl, (deduplicate_deduplicate hd hl).symm ▸ hbest⟩
  | @merge raw₁ raw₂ l₁ l₂ l _ _ hsorted hl ih₁ ih₂ =>
    obtain ⟨hl₁, hbest₁⟩ := ih₁
    obtain ⟨hl₂, hbest₂⟩ := ih₂
    have hmergeable : Mergeable d l := by
      refine ⟨hsorted, fun s hs => ?_⟩
      rcases mem_append.mp (hl.mem_iff.mp hs) with hs | hs
      · exact hl₁.2 s hs
      · exact hl₂.2 s hs
    refine ⟨hmergeable, ?_⟩
    -- the best samples of `l` are those of the best samples of `l₁` and `l₂`, and so of the raw
    -- ones
    have hkept := isBucketMax_deduplicate hd hmergeable
    have hparts := IsBucketMax.append_of_parts (isBucketMax_deduplicate hd hl₁)
      (isBucketMax_deduplicate hd hl₂) (fun x => hl.mem_iff.trans mem_append) hkept
    exact hbest₁.append hbest₂ (fun _ => mem_append) hparts

/-- Deduplication commutes with merging. Deduplicating two lists before they are merged in
timestamp order, in whatever way equal timestamps interleave, does not change what the
deduplication of their merge keeps; and neither does any number of background merges and
deduplications, in any grouping. -/
theorem deduplicate_confluent {d : Int64} (hd : 0 < d) :
    (∀ a b m m', Mergeable d a → Mergeable d b →
        (m.Pairwise fun s t => s.1 ≤ t.1) → m.Perm (a ++ b) →
        (m'.Pairwise fun s t => s.1 ≤ t.1) →
        m'.Perm (deduplicateSamplesDuringMerge a d ++ deduplicateSamplesDuringMerge b d) →
        deduplicateSamplesDuringMerge m' d = deduplicateSamplesDuringMerge m d) ∧
      ∀ raw l m, Stored d raw l → (m.Pairwise fun s t => s.1 ≤ t.1) → m.Perm raw →
        deduplicateSamplesDuringMerge l d = deduplicateSamplesDuringMerge m d := by
  have hraw : ∀ raw l m, Stored d raw l → (m.Pairwise fun s t => s.1 ≤ t.1) → m.Perm raw →
      (∀ s ∈ raw, InRange d s.1) →
      deduplicateSamplesDuringMerge l d = deduplicateSamplesDuringMerge m d := by
    intro raw l m hl hsorted hm hrange
    have hm' : Mergeable d m := ⟨hsorted, fun s hs => hrange s (hm.mem_iff.mp hs)⟩
    exact (hl.spec hd).2.unique (isBucketMax_deduplicate hd hm') fun x => hm.mem_iff.symm
  refine ⟨fun a b m m' ha hb hsorted hm hsorted' hm' => ?_, fun raw l m hl hsorted hm => ?_⟩
  · refine hraw (a ++ b) m' m (.merge (.dedup (.raw ha)) (.dedup (.raw hb)) hsorted' hm') hsorted hm
      fun s hs => ?_
    exact (mem_append.mp hs).elim (ha.2 s) (hb.2 s)
  · exact hraw raw l m hl hsorted hm hl.inRange

/-- Two overlapping parts with a staleness mark and a tie, deduplicated before and after the
merge. -/
theorem deduplicate_confluent_ten :
    deduplicateSamplesDuringMerge [(9, 4), (9, 7), (11, 7)] 10 =
      deduplicateSamplesDuringMerge
        [(1, 5), (3, 2), (9, 4), (9, vStaleNan), (9, 7), (11, 7)] 10 :=
  (deduplicate_confluent (d := 10) (by decide)).1 [(1, 5), (9, 4), (9, vStaleNan), (11, 7)]
    [(3, 2), (9, 7)] [(1, 5), (3, 2), (9, 4), (9, vStaleNan), (9, 7), (11, 7)]
    [(9, 4), (9, 7), (11, 7)] ⟨by decide, by simp [InRange]⟩
    ⟨by decide, by simp [InRange]⟩ (by decide)
    (by decide) (by decide) (by decide)

end Esmetrics
