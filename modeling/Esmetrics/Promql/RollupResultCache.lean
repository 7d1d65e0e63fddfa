import Mathlib.Data.Finmap
import Esmetrics.Lib.Readers
import Esmetrics.Promql.Timeseries

/-!
# The rollup result cache

Model of the blobs of `esm-promql/src/rollup_result_cache.rs` and of the cache of bytes that keeps
them. Values are bit patterns, and a map of the cache is a finite map. The lengths of vectors in
memory are natural numbers, and memory is always allocated.

A blob stores the timestamps once for all series, and lengths and counts of names in two bytes, to
which `as u16` cuts them without a check. Cached series are read back if and only if none was cut
(`unmarshalTimeseriesFast_eq_iff`). What the cache returns for a key was set for it last
(`ByteCache.get_eq_lastSet`).
-/

namespace Esmetrics.RollupResultCache

open List

/-! ### Blobs -/

/-- A series with the bits of its values. -/
structure Timeseries where
  metricName : MetricName
  values : List UInt64
  timestamps : List Int64
deriving DecidableEq

def marshaledMetricNameSize (mn : MetricName) : ℕ :=
  mn.tags.foldl (fun n tag => n + (2 + tag.key.length + 2 + tag.value.length))
  (2 + mn.metricGroup.length + 2)

def marshalBytesU16 (dst s : Bytes) : Bytes := dst ++ leBytes 2 s.length ++ s

def unmarshalBytesU16 (src : Bytes) : Option (Bytes × Bytes) := do
  let (n, src) ← splitFirst 2 src
  splitFirst (leNat n) src

def marshalMetricNameFast (dst : Bytes) (mn : MetricName) : Bytes :=
  let dst := marshalBytesU16 dst mn.metricGroup
  let dst := dst ++ leBytes 2 mn.tags.length
  mn.tags.foldl (fun dst tag => marshalBytesU16 (marshalBytesU16 dst tag.key) tag.value) dst

/-- A tag of the loop of `unmarshal_metric_name_fast`. -/
def unmarshalTag (src : Bytes) : Option (Tag × Bytes) := do
  let (key, tail) ← unmarshalBytesU16 src
  let (value, tail) ← unmarshalBytesU16 tail
  return (⟨key, value⟩, tail)

def unmarshalMetricNameFast (src : Bytes) : Option (MetricName × Bytes) := do
  let (group, src) ← unmarshalBytesU16 src
  let (tagsLen, src) ← splitFirst 2 src
  let (tags, src) ← readMany unmarshalTag (leNat tagsLen) src
  return (⟨group, tags⟩, src)

/-- The size of the blob. -/
def marshaledSize (tss : List Timeseries) (nPoints : ℕ) : ℕ :=
  tss.foldl (fun size ts => size + marshaledMetricNameSize ts.metricName)
    (16 + 8 * nPoints + 8 * tss.length * nPoints)

/-- Marshals the first `n_points` points of series that share their timestamps. -/
def marshalTimeseriesFast (tss : List Timeseries) (nPoints : ℕ) (maxSize : UInt64) :
    Outcome (Option Bytes) :=
  if marshaledSize tss nPoints > maxSize.toNat then .ok none
  else
    match tss with
    | [] => .panic "index out of bounds: the len is 0 but the index is 0"
    | first :: _ =>
      if nPoints > first.timestamps.length ∨ tss.any (fun ts => nPoints > ts.values.length) then
        .panic "range end index out of range for slice"
      else
        let dst := leBytes 8 tss.length ++ leBytes 8 nPoints
        let dst := (first.timestamps.take nPoints).foldl
          (fun dst ts => dst ++ leBytes 8 ts.toUInt64.toNat) dst
        let dst := tss.foldl (fun dst ts =>
          (ts.values.take nPoints).foldl (fun dst v => dst ++ leBytes 8 v.toNat) dst) dst
        .ok (some (tss.foldl (fun dst ts => marshalMetricNameFast dst ts.metricName) dst))

/-- The words of eight bytes each. -/
def words : ℕ → Bytes → List UInt64
  | 0, _ => []
  | n + 1, src => UInt64.ofNat (leNat (src.take 8)) :: words n (src.drop 8)

def readWords (nPoints : ℕ) (src : Bytes) : Option (List UInt64 × Bytes) := do
  let (chunks, src) ← splitFirst (8 * nPoints) src
  return (words nPoints chunks, src)

def unmarshalTimeseriesFast (src : Bytes) : Option (List Timeseries) := do
  let (tssLen, src) ← splitFirst 8 src
  let (nPoints, src) ← splitFirst 8 src
  let (timestamps, src) ← readWords (leNat nPoints) src
  let (values, src) ← readMany (readWords (leNat nPoints)) (leNat tssLen) src
  let (names, src) ← readMany unmarshalMetricNameFast (leNat tssLen) src
  if src = [] then
    some ((names.zip values).map fun p => ⟨p.1, p.2, timestamps.map UInt64.toInt64⟩)
  else none

/-- The first points of a series. -/
def Timeseries.truncate (nPoints : ℕ) (ts : Timeseries) : Timeseries :=
  ⟨ts.metricName, ts.values.take nPoints, ts.timestamps.take nPoints⟩

/-- No length and no count of the name is cut to two bytes. -/
def FitsU16 (mn : MetricName) : Prop := mn.Fits ∧ mn.tags.length < 65536

instance (mn : MetricName) : Decidable (FitsU16 mn) := inferInstanceAs (Decidable (_ ∧ _))

example : unmarshalMetricNameFast (marshalMetricNameFast [] ⟨ascii "m",
    [⟨ascii "job", ascii "a"⟩]⟩) = some (⟨ascii "m", [⟨ascii "job", ascii "a"⟩]⟩, []) := by decide

/-! ### Names -/

/-- The two bytes of a count stand for it if it was not cut. -/
theorem leNat_leBytes_two (n : ℕ) : leNat (leBytes 2 n) = n % 65536 := leNat_leBytes 2 n

theorem readsBackIff_bytesU16 (s : Bytes) :
    ReadsBackIff unmarshalBytesU16 (leBytes 2 s.length ++ s) s (s.length < 65536) := by
  intro rest rest'
  rw [unmarshalBytesU16, append_assoc, splitFirst_append (length_leBytes 2 _)]
  dsimp only [Option.bind_eq_bind, Option.bind_some]
  rw [leNat_leBytes_two]
  constructor
  · intro h
    have hlen := length_of_splitFirst h
    have hlt : s.length < 65536 := by omega
    rw [splitFirst_append hlen] at h
    exact ⟨hlt, (Prod.mk.inj (Option.some.inj h)).2.symm⟩
  · rintro ⟨hlt, rfl⟩
    exact splitFirst_append (Nat.mod_eq_of_lt hlt).symm _

/-- The bytes of a tag. -/
def tagBytes (tag : Tag) : Bytes :=
  (leBytes 2 tag.key.length ++ tag.key) ++ (leBytes 2 tag.value.length ++ tag.value)

theorem readsBackIff_tag (tag : Tag) :
    ReadsBackIff unmarshalTag (tagBytes tag) tag (tag.key.length < 65536 ∧
      tag.value.length < 65536) := by
  intro rest rest'
  rw [tagBytes, append_assoc]
  constructor
  · intro h
    obtain ⟨⟨key, r⟩, hkey, h⟩ := Option.bind_eq_some_iff.mp h
    obtain ⟨⟨value, r'⟩, hvalue, h⟩ := Option.bind_eq_some_iff.mp h
    obtain ⟨rfl, rfl⟩ := Prod.mk.inj (Option.some.inj h)
    obtain ⟨hk, rfl⟩ := (readsBackIff_bytesU16 _ _ _).mp hkey
    obtain ⟨hv, hrest⟩ := (readsBackIff_bytesU16 _ _ _).mp hvalue
    exact ⟨⟨hk, hv⟩, hrest⟩
  · rintro ⟨⟨hk, hv⟩, rfl⟩
    rw [unmarshalTag, (readsBackIff_bytesU16 _ _ _).mpr ⟨hk, rfl⟩]
    dsimp only [Option.bind_eq_bind, Option.bind_some]
    rw [(readsBackIff_bytesU16 _ _ _).mpr ⟨hv, rfl⟩]
    rfl

/-- The bytes of a name. -/
def nameBytes (mn : MetricName) : Bytes :=
  (leBytes 2 mn.metricGroup.length ++ mn.metricGroup) ++
  (leBytes 2 mn.tags.length ++ mn.tags.flatMap tagBytes)

/-- A name is read back if and only if nothing of it was cut. -/
theorem readsBackIff_metricName (mn : MetricName) :
    ReadsBackIff unmarshalMetricNameFast (nameBytes mn) mn (FitsU16 mn) := by
  intro rest rest'
  have htags := readsBackIff_flatMap (fun tag (_ : tag ∈ mn.tags) => readsBackIff_tag tag)
  rw [nameBytes, append_assoc (_ ++ _), append_assoc (leBytes 2 mn.tags.length)]
  constructor
  · intro h
    obtain ⟨⟨group, r⟩, hgroup, h⟩ := Option.bind_eq_some_iff.mp h
    obtain ⟨⟨tagsLen, r'⟩, hlen, h⟩ := Option.bind_eq_some_iff.mp h
    obtain ⟨⟨tags, r''⟩, hread, h⟩ := Option.bind_eq_some_iff.mp h
    obtain ⟨rfl, rfl⟩ := Prod.mk.inj (Option.some.inj h)
    obtain ⟨hg, rfl⟩ := (readsBackIff_bytesU16 _ _ _).mp hgroup
    rw [splitFirst_append (length_leBytes 2 _)] at hlen
    obtain ⟨rfl, rfl⟩ := Prod.mk.inj (Option.some.inj hlen)
    dsimp only at hread htags hg ⊢
    -- So many tags were read as their cut count says.
    have hcount := length_of_readMany hread
    rw [← hcount] at hread
    obtain ⟨hfits, hrest⟩ := (htags _ _).mp hread
    rw [leNat_leBytes_two] at hcount
    exact ⟨⟨⟨hg, hfits⟩, by dsimp only; omega⟩, hrest⟩
  · rintro ⟨⟨⟨hg, hfits⟩, hlen⟩, rfl⟩
    rw [unmarshalMetricNameFast, (readsBackIff_bytesU16 _ _ _).mpr ⟨hg, rfl⟩]
    dsimp only [Option.bind_eq_bind, Option.bind_some]
    rw [splitFirst_append (length_leBytes 2 _)]
    dsimp only [Option.bind_some]
    rw [leNat_leBytes_two, Nat.mod_eq_of_lt hlen, (htags _ _).mpr ⟨hfits, rfl⟩]
    rfl

theorem marshalMetricNameFast_eq (dst : Bytes) (mn : MetricName) :
    marshalMetricNameFast dst mn = dst ++ nameBytes mn := by
  have hfold (tags : List Tag) (dst : Bytes) :
      tags.foldl (fun dst tag => marshalBytesU16 (marshalBytesU16 dst tag.key) tag.value) dst =
        dst ++ tags.flatMap tagBytes := by
    induction tags generalizing dst with
    | nil => simp
    | cons tag tags ih =>
      rw [foldl_cons, ih, flatMap_cons]
      simp only [marshalBytesU16, tagBytes, append_assoc]
  rw [marshalMetricNameFast, hfold, nameBytes]
  simp only [marshalBytesU16, append_assoc]

/-! ### Points -/

/-- The bytes of a word. -/
def wordBytes (v : UInt64) : Bytes := leBytes 8 v.toNat

theorem words_flatMap (vs : List UInt64) : words vs.length (vs.flatMap wordBytes) = vs := by
  induction vs with
  | nil => rfl
  | cons v vs ih =>
    have hlen : (wordBytes v).length = 8 := length_leBytes 8 _
    have hv : leNat (wordBytes v) = v.toNat := by
      rw [wordBytes, leNat_leBytes]
      exact Nat.mod_eq_of_lt v.toNat_lt
    rw [flatMap_cons, length_cons, words, take_left' hlen, drop_left' hlen, ih, hv,
      UInt64.ofNat_toNat]

/-- Words of eight bytes are read back. -/
theorem readsBackIff_words {n : ℕ} {vs : List UInt64} (h : vs.length = n) :
    ReadsBackIff (readWords n) (vs.flatMap wordBytes) vs True := by
  subst h
  intro rest rest'
  have hlen : (vs.flatMap wordBytes).length = 8 * vs.length := by
    simp [length_flatMap, wordBytes, Nat.mul_comm]
  rw [readWords, splitFirst_append hlen]
  dsimp only [Option.bind_eq_bind, Option.bind_some]
  rw [words_flatMap]
  simp [eq_comm]

/-! ### Series -/

/-- The bytes of the blob. -/
def blobBytes (tss : List Timeseries) (nPoints : ℕ) (timestamps : List Int64) : Bytes :=
  leBytes 8 tss.length ++ (leBytes 8 nPoints ++
    (((timestamps.take nPoints).map Int64.toUInt64).flatMap wordBytes ++
      (((tss.map fun ts => ts.values.take nPoints).flatMap fun vs => vs.flatMap wordBytes) ++
        (tss.map Timeseries.metricName).flatMap nameBytes)))

/-- The series share their timestamps, and each has as many values. -/
def ShareTimestamps (tss : List Timeseries) (timestamps : List Int64) : Prop :=
  ∀ ts ∈ tss, ts.timestamps = timestamps ∧ ts.values.length = timestamps.length

instance (tss : List Timeseries) (timestamps : List Int64) :
    Decidable (ShareTimestamps tss timestamps) :=
  inferInstanceAs (Decidable (∀ _ ∈ _, _))

variable {tss : List Timeseries} {timestamps : List Int64}

theorem marshalTimeseriesFast_eq {nPoints : ℕ} {maxSize : UInt64} (hne : tss ≠ [])
    (hshare : ShareTimestamps tss timestamps) (hn : nPoints ≤ timestamps.length) :
    marshalTimeseriesFast tss nPoints maxSize =
      .ok (if marshaledSize tss nPoints > maxSize.toNat then none
        else some (blobBytes tss nPoints timestamps)) := by
  obtain ⟨first, rest, rfl⟩ := exists_cons_of_ne_nil hne
  have htimestamps := (hshare first mem_cons_self).1
  have hvalues : ¬ (first :: rest).any (fun ts => decide (nPoints > ts.values.length)) := by
    rw [Bool.not_eq_true, any_eq_false]
    intro ts hts
    have := (hshare ts hts).2
    simpa using this ▸ hn
  rw [marshalTimeseriesFast]
  by_cases hsize : marshaledSize (first :: rest) nPoints > maxSize.toNat
  · rw [if_pos hsize, if_pos hsize]
  · rw [if_neg hsize, if_neg hsize]
    dsimp only
    rw [htimestamps, if_neg (not_or.mpr ⟨not_lt.mpr hn, hvalues⟩)]
    simp only [marshalMetricNameFast_eq, foldl_append_eq_append, ← flatMap_def, blobBytes,
      flatMap_map, append_assoc]
    rfl

/-- The counts of a blob in memory fit eight bytes. -/
theorem length_le_marshaledSize (tss : List Timeseries) (nPoints : ℕ) :
    tss.length ≤ marshaledSize tss nPoints ∧ nPoints ≤ marshaledSize tss nPoints := by
  have htag (tags : List Tag) (size : ℕ) :
      size ≤ tags.foldl (fun n tag => n + (2 + tag.key.length + 2 + tag.value.length)) size := by
    induction tags generalizing size with
    | nil => exact le_rfl
    | cons tag tags ih => exact (Nat.le_add_right _ _).trans (ih _)
  have hfold (tss : List Timeseries) (size : ℕ) :
      size + tss.length ≤ tss.foldl (fun size ts => size + marshaledMetricNameSize ts.metricName)
      size := by
    induction tss generalizing size with
    | nil => exact le_rfl
    | cons ts tss ih =>
      have hsize : 2 ≤ marshaledMetricNameSize ts.metricName := le_trans (by omega) (htag _ _)
      have := ih (size + marshaledMetricNameSize ts.metricName)
      rw [foldl_cons, length_cons]
      omega
  have := hfold tss (16 + 8 * nPoints + 8 * tss.length * nPoints)
  rw [marshaledSize]
  omega

/-- **Cached series are read back** if and only if no length and no count of their names was cut. -/
theorem unmarshal_blobBytes {nPoints : ℕ} (hshare : ShareTimestamps tss timestamps)
    (hn : nPoints ≤ timestamps.length) (hlen : tss.length < 2 ^ 64) (hpoints : nPoints < 2 ^ 64) :
    unmarshalTimeseriesFast (blobBytes tss nPoints timestamps) =
    some (tss.map (Timeseries.truncate nPoints)) ↔
      ∀ ts ∈ tss, FitsU16 ts.metricName := by
  have htimestamps := @readsBackIff_words nPoints ((timestamps.take nPoints).map Int64.toUInt64)
    (by simp [hn])
  have hvalues := @readsBackIff_flatMap _ (readWords nPoints) (fun vs => vs.flatMap wordBytes)
    (fun _ => True) (tss.map fun ts => ts.values.take nPoints) fun vs hvs => by
      obtain ⟨ts, hts, rfl⟩ := mem_map.mp hvs
      have := (hshare ts hts).2
      exact readsBackIff_words (length_take_of_le (by omega))
  have hnames := readsBackIff_flatMap fun mn (_ : mn ∈ tss.map Timeseries.metricName) =>
    readsBackIff_metricName mn
  rw [length_map] at hvalues hnames
  have hback : (timestamps.take nPoints).map (UInt64.toInt64 ∘ Int64.toUInt64) =
      timestamps.take nPoints :=
    map_id'' (fun t => Int64.toInt64_toUInt64 t) _
  have hread : unmarshalTimeseriesFast (blobBytes tss nPoints timestamps) =
      (readMany unmarshalMetricNameFast tss.length
        ((tss.map Timeseries.metricName).flatMap nameBytes)).bind fun p =>
        if p.2 = [] then some ((p.1.zip (tss.map fun ts => ts.values.take nPoints)).map fun p =>
          ⟨p.1, p.2, timestamps.take nPoints⟩) else none := by
    rw [unmarshalTimeseriesFast, blobBytes, splitFirst_append (length_leBytes 8 _)]
    dsimp only [Option.bind_eq_bind, Option.bind_some]
    rw [splitFirst_append (length_leBytes 8 _)]
    dsimp only [Option.bind_some]
    rw [leNat_leBytes, leNat_leBytes, Nat.mod_eq_of_lt (show _ < 256 ^ 8 from hlen),
      Nat.mod_eq_of_lt (show _ < 256 ^ 8 from hpoints), (htimestamps _ _).mpr ⟨trivial, rfl⟩]
    dsimp only [Option.bind_some]
    rw [(hvalues _ _).mpr ⟨fun _ _ => trivial, rfl⟩]
    dsimp only [Option.bind_some]
    rw [map_map, hback]
  have hlist : (∀ ts ∈ tss, FitsU16 ts.metricName) ↔ ∀ mn ∈ tss.map Timeseries.metricName,
      FitsU16 mn := by simp
  have hall := hnames [] []
  rw [append_nil, and_iff_left rfl] at hall
  rw [hread, hlist, ← hall]
  constructor
  · intro h
    obtain ⟨⟨names, r⟩, hnames', h⟩ := Option.bind_eq_some_iff.mp h
    dsimp only at h
    split_ifs at h with hr
    subst hr
    -- The names of the series are the names that were read.
    have hmap := congrArg (List.map Timeseries.metricName) (Option.some.inj h)
    have hnamesLen := length_of_readMany hnames'
    rw [map_map, map_map] at hmap
    have hfst : (names.zip (tss.map fun ts => ts.values.take nPoints)).map Prod.fst = names :=
      map_fst_zip (by rw [length_map, hnamesLen])
    rw [hnames', hfst.symm.trans hmap]
    rfl
  · intro h
    rw [h, Option.bind_some, if_pos rfl, zip_map', map_map]
    refine congrArg some (map_congr_left fun ts hts => ?_)
    rw [Timeseries.truncate, (hshare ts hts).1]
    rfl

theorem unmarshalTimeseriesFast_eq_iff {nPoints : ℕ} {maxSize : UInt64} {dst : Bytes}
    (hne : tss ≠ [])
    (hshare : ShareTimestamps tss timestamps) (hn : nPoints ≤ timestamps.length)
    (h : marshalTimeseriesFast tss nPoints maxSize = .ok (some dst)) :
    unmarshalTimeseriesFast dst = some (tss.map (Timeseries.truncate nPoints)) ↔
      ∀ ts ∈ tss, FitsU16 ts.metricName := by
  rw [marshalTimeseriesFast_eq hne hshare hn] at h
  have hsize := maxSize.toNat_lt
  obtain ⟨hlen, hpoints⟩ := length_le_marshaledSize tss nPoints
  split_ifs at h with hle
  · exact nomatch h
  · obtain rfl := Option.some.inj (Outcome.ok.inj h)
    exact unmarshal_blobBytes hshare hn (by omega) (by omega)

/-! ### The cache of bytes -/

/-- The two generations of entries. -/
structure ByteCacheInner where
  curr : Finmap fun _ : Bytes => Bytes
  prev : Finmap fun _ : Bytes => Bytes
  currBytes : ℕ

namespace ByteCacheInner

def new : ByteCacheInner := ⟨∅, ∅, 0⟩

/-- Inserts an entry. When the current generation is full, it becomes the previous one. -/
def insert (inner : ByteCacheInner) (maxSize : ℕ) (key value : Bytes) : ByteCacheInner :=
  let entryBytes := key.length + value.length + 64
  let inner := if inner.currBytes + entryBytes > maxSize / 2 then ⟨∅, inner.curr, 0⟩ else inner
  let currBytes := match inner.curr.lookup key with
    | some old => inner.currBytes - (old.length + 64)
    | none => inner.currBytes
  ⟨inner.curr.insert key value, inner.prev, currBytes + entryBytes⟩

/-- Returns the value of a key. An entry of the previous generation moves to the current one. -/
def get (inner : ByteCacheInner) (maxSize : ℕ) (key : Bytes) : Option Bytes × ByteCacheInner :=
  match inner.curr.lookup key with
  | some v => (some v, inner)
  | none =>
    match inner.prev.lookup key with
    | some v => (some v, { inner with prev := inner.prev.erase key }.insert maxSize key v)
    | none => (none, inner)

end ByteCacheInner

/-- An operation on the cache, which runs under its lock. -/
inductive ByteCacheOp
  | set (key value : Bytes)
  | get (key : Bytes)

namespace ByteCache

def step (maxSize : ℕ) (inner : ByteCacheInner) : ByteCacheOp → ByteCacheInner
  | .set key value => inner.insert maxSize key value
  | .get key => (inner.get maxSize key).2

def run (maxSize : ℕ) (ops : List ByteCacheOp) : ByteCacheInner := ops.foldl (step maxSize) .new

/-- The values that were set last, after an operation. -/
def stepLast (last : Bytes → Option Bytes) : ByteCacheOp → Bytes → Option Bytes
  | .set key value => Function.update last key (some value)
  | .get _ => last

/-- The value that was set last for a key. -/
def lastSet (ops : List ByteCacheOp) : Bytes → Option Bytes := ops.foldl stepLast fun _ => none

/-- An entry of the current generation was set last, and so was one of the previous generation
unless the current generation has another. -/
structure Inv (inner : ByteCacheInner) (last : Bytes → Option Bytes) : Prop where
  curr : ∀ k v, inner.curr.lookup k = some v → last k = some v
  prev : ∀ k v, inner.curr.lookup k = none → inner.prev.lookup k = some v → last k = some v

variable {inner : ByteCacheInner} {last : Bytes → Option Bytes}

theorem Inv.insert (h : Inv inner last) (maxSize : ℕ) (key value : Bytes) :
    Inv (inner.insert maxSize key value) (Function.update last key (some value)) := by
  obtain ⟨inner', heq, hinner'⟩ : ∃ inner',
    inner' = (if inner.currBytes + (key.length + value.length + 64) >
      maxSize / 2 then ⟨∅, inner.curr, 0⟩ else inner : ByteCacheInner) ∧ Inv inner' last := by
    refine ⟨_, rfl, ?_⟩
    split_ifs
    · exact ⟨fun k v hk => (Option.some_ne_none v (hk.symm.trans (Finmap.lookup_empty k))).elim,
        fun k v _ hk => h.curr k v hk⟩
    · exact h
  rw [ByteCacheInner.insert, ← heq]
  constructor
  · intro k v hk
    by_cases hkey : k = key
    · subst hkey
      rw [Function.update_self]
      exact (Finmap.lookup_insert inner'.curr).symm.trans hk
    · rw [Function.update_of_ne hkey]
      exact hinner'.curr k v ((Finmap.lookup_insert_of_ne _ hkey).symm.trans hk)
  · intro k v hcurr hk
    have hkey : k ≠ key := by
      rintro rfl
      exact Option.some_ne_none _ ((Finmap.lookup_insert _).symm.trans hcurr)
    rw [Function.update_of_ne hkey]
    exact hinner'.prev k v ((Finmap.lookup_insert_of_ne _ hkey).symm.trans hcurr) hk

theorem Inv.get_eq (h : Inv inner last) {maxSize : ℕ} {k v : Bytes}
    (hget : (inner.get maxSize k).1 = some v) :
    last k = some v := by
  rw [ByteCacheInner.get] at hget
  split at hget
  · next v' hcurr => exact h.curr k v (hcurr.trans hget)
  · next hcurr =>
    split at hget
    · next v' hprev => exact h.prev k v hcurr (hprev.trans hget)
    · exact nomatch hget

theorem Inv.get (h : Inv inner last) (maxSize : ℕ) (k : Bytes) :
    Inv (inner.get maxSize k).2 last := by
  rw [ByteCacheInner.get]
  split
  · exact h
  · next hcurr =>
    split
    · next v hprev =>
      have herase : Inv { inner with prev := inner.prev.erase k } last := by
        refine ⟨h.curr, fun k' v' hcurr' hprev' => h.prev k' v' hcurr' ?_⟩
        by_cases hk : k' = k
        · subst hk
          exact absurd ((Finmap.lookup_erase _ _).symm.trans hprev') (Option.some_ne_none _).symm
        · exact (Finmap.lookup_erase_ne hk).symm.trans hprev'
      have hsame : Function.update last k (some v) = last := by
        rw [← h.prev k v hcurr hprev, Function.update_eq_self]
      have hinsert := herase.insert maxSize k v
      rwa [hsame] at hinsert
    · exact h

theorem Inv.step (h : Inv inner last) (maxSize : ℕ) (op : ByteCacheOp) :
    Inv (step maxSize inner op) (stepLast last op) := by
  cases op with
  | set key value => exact h.insert maxSize key value
  | get key => exact h.get maxSize key

theorem inv_run (maxSize : ℕ) (ops : List ByteCacheOp) : Inv (run maxSize ops) (lastSet ops) := by
  have hfold {inner : ByteCacheInner} {last : Bytes → Option Bytes} (h : Inv inner last) :
      Inv (ops.foldl (step maxSize) inner) (ops.foldl stepLast last) := by
    induction ops generalizing inner last with
    | nil => exact h
    | cons op ops ih => exact ih (h.step maxSize op)
  refine hfold ⟨fun k v hk => ?_, fun k v _ hk => ?_⟩ <;>
    exact (Option.some_ne_none v (hk.symm.trans (Finmap.lookup_empty k))).elim

/-- **The cache returns what was set last.** -/
theorem get_eq_lastSet {maxSize : ℕ} {ops : List ByteCacheOp} {k v : Bytes}
    (h : ((run maxSize ops).get maxSize k).1 = some v) : lastSet ops k = some v :=
  (inv_run maxSize ops).get_eq h

end ByteCache

/-! ### Cached results -/

/-- **Cached results are read back** if and only if no length and no count of a name was cut to two
bytes, and the cache returns for a key nothing but what was set for it last. -/
theorem cached_iff {nPoints : ℕ} {maxSize : UInt64} {dst : Bytes} (hne : tss ≠ [])
    (hshare : ShareTimestamps tss timestamps) (hn : nPoints ≤ timestamps.length)
    (h : marshalTimeseriesFast tss nPoints maxSize = .ok (some dst)) :
    (unmarshalTimeseriesFast dst = some (tss.map (Timeseries.truncate nPoints)) ↔
        ∀ ts ∈ tss, FitsU16 ts.metricName) ∧
      ∀ (maxSize : ℕ) (ops : List ByteCacheOp) (k : Bytes),
        ((ByteCache.run maxSize ops).get maxSize k).1 = none ∨
          ((ByteCache.run maxSize ops).get maxSize k).1 = ByteCache.lastSet ops k := by
  refine ⟨unmarshalTimeseriesFast_eq_iff hne hshare hn h, fun maxSize ops k => ?_⟩
  cases hget : ((ByteCache.run maxSize ops).get maxSize k).1 with
  | none => exact .inl rfl
  | some v => exact .inr (ByteCache.get_eq_lastSet hget).symm

theorem cached_iff_metric :
    unmarshalTimeseriesFast (blobBytes [⟨⟨ascii "m", []⟩, [7], [1000]⟩] 1 [1000]) =
      some [⟨⟨ascii "m", []⟩, [7], [1000]⟩] :=
  (@cached_iff [⟨⟨ascii "m", []⟩, [7], [1000]⟩] [1000] 1 100 _ (by decide) (by decide) (by decide)
    (by decide)).1.mpr (by decide)

/-- A metric group of 65536 bytes is stored behind the length zero. -/
theorem unmarshalTimeseriesFast_long_group : ∃ dst,
    marshalTimeseriesFast [⟨⟨List.replicate 65536 0, []⟩, [7], [1000]⟩] 1 100000 = .ok (some dst) ∧
      unmarshalTimeseriesFast dst ≠ some [⟨⟨List.replicate 65536 0, []⟩, [7], [1000]⟩] := by
  have hshare : ShareTimestamps [⟨⟨List.replicate 65536 0, []⟩, [7], [1000]⟩] [1000] := by
    rintro ts hts
    obtain rfl := mem_singleton.mp hts
    exact ⟨rfl, rfl⟩
  have hsize : marshaledSize [⟨⟨List.replicate 65536 0, []⟩, [7], [1000]⟩] 1 = 65572 := by
    simp only [marshaledSize, marshaledMetricNameSize, foldl_cons, foldl_nil, length_replicate,
      length_singleton]
  have hmarshal := @marshalTimeseriesFast_eq _ _ _ 100000 (cons_ne_nil _ _) hshare (le_refl 1)
  rw [hsize, if_neg (by decide)] at hmarshal
  refine ⟨_, hmarshal, fun h => ?_⟩
  obtain ⟨⟨hgroup, -⟩, -⟩ := (unmarshalTimeseriesFast_eq_iff (cons_ne_nil _ _) hshare
    (le_refl 1) hmarshal).mp h _ (mem_singleton_self _)
  simp only [length_replicate, lt_self_iff_false] at hgroup

end Esmetrics.RollupResultCache
