import Esmetrics.Encoding.Compress
import Esmetrics.Encoding.NearestDelta

/-!
# Arrays of integers

Model of `esm-encoding/src/encoding.rs`: a block of timestamps or values is written with the
encoding that suits it — a constant, a constant difference, delta encoding for gauges,
delta-of-delta encoding for counters, the last two compressed when that helps.

At full precision the encoding is lossless whatever the classifiers choose
(`unmarshalInt64Array_marshalInt64Array`).
-/

namespace Esmetrics

open List Outcome

/-- Blocks of fewer bytes are not compressed. -/
def minCompressibleBlockSize : ℕ := 128

/-- How a block is encoded. -/
inductive MarshalType where
  | zstdNearestDelta2
  | deltaConst
  | const
  | zstdNearestDelta
  | nearestDelta2
  | nearestDelta
  deriving DecidableEq, Repr

namespace MarshalType

/-- The on-disk discriminant. -/
def asU8 : MarshalType → UInt8
  | zstdNearestDelta2 => 1
  | deltaConst => 2
  | const => 3
  | zstdNearestDelta => 4
  | nearestDelta2 => 5
  | nearestDelta => 6

def fromU8 (v : UInt8) : Option MarshalType :=
  match v with
  | 1 => some zstdNearestDelta2
  | 2 => some deltaConst
  | 3 => some const
  | 4 => some zstdNearestDelta
  | 5 => some nearestDelta2
  | 6 => some nearestDelta
  | _ => none

/-- Compressed data has a checksum, and constants cannot be validated. -/
def needsValidation : MarshalType → Bool
  | nearestDelta2 | nearestDelta => true
  | _ => false

@[simp]
theorem fromU8_asU8 (mt : MarshalType) : fromU8 mt.asU8 = some mt := by
  cases mt <;> rfl

end MarshalType

/-- The raw byte is in range; `0` is unused but accepted. -/
def checkMarshalType (mt : UInt8) : Except String Unit :=
  if mt > 6 then .error s!"MarshalType should be in range [0..6]; got {mt}" else .ok ()

/-! ### Classification -/

def isInt64Zeros (a : List Int64) : Bool := a.all (· == 0)

def isInt64Ones (a : List Int64) : Bool := a.all (· == 1)

/-- All the items are equal. -/
def isConst (a : List Int64) : Bool :=
  match a with
  | [] => false
  | v1 :: _ =>
    if isInt64Zeros a then true
    else if isInt64Ones a then true
    else a.all (· == v1)

/-- The loop of `isDeltaConst` after the items before `prev`. -/
def deltaConstFrom (d1 prev : Int64) : List Int64 → Bool
  | [] => true
  | next :: a => if next - prev ≠ d1 then false else deltaConstFrom d1 next a

/-- The items are a counter with a constant difference. -/
def isDeltaConst (a : List Int64) : Bool :=
  match a with
  | v0 :: v1 :: rest => deltaConstFrom (v1 - v0) v1 rest
  | _ => false

/-- The loop of `isGauge`: `none` as soon as a gauge is detected, else the number of resets. -/
def countResets (vPrev : Int64) (resets : ℕ) : List Int64 → Option ℕ
  | [] => some resets
  | v :: a =>
    if v < vPrev then
      if v < 0 then none
      else if v > vPrev >>> 3 then none
      else countResets v (resets + 1) a
    else countResets v resets a

/-- The items are gauge values: arbitrary changing values. -/
def isGauge (a : List Int64) : Bool :=
  match a with
  | v0 :: v1 :: rest =>
    if v0 < 0 then true
    else
      match countResets v0 0 (v1 :: rest) with
      | none => true
      | some resets => if resets ≤ 2 then false else resets > a.length >>> 3
  | _ => false

def getCompressLevel (itemsCount : ℕ) : ℤ :=
  if itemsCount ≤ 1 <<< 6 then 1
  else if itemsCount ≤ 1 <<< 8 then 2
  else if itemsCount ≤ 1 <<< 10 then 3
  else if itemsCount ≤ 1 <<< 12 then 4
  else 5

/-! ### Writing and reading -/

variable (z : Zstd)

/-- Appends `bb` compressed, or plain when that is no smaller; returns whether it is compressed.
The source compares with `0.9 * bb.len()` in `f64`, which for blocks below `2 ^ 47` bytes decides
as the comparison of integers does. -/
def compressIfEffective (dst bb : Bytes) (itemsCount : ℕ) : Bytes × Bool :=
  if bb.length < minCompressibleBlockSize then (dst ++ bb, false)
  else
    let compressed := compressZstdLevel z dst bb (getCompressLevel itemsCount)
    if 10 * (compressed.length - dst.length) > 9 * bb.length then (dst ++ bb, false)
    else (compressed, true)

/-- Appends the encoded `a`; returns its encoding and its first item. -/
def marshalInt64Array (dst : Bytes) (a : List Int64) (precisionBits : UInt8) :
    Outcome (Bytes × MarshalType × Int64) :=
  match a with
  | [] => .panic "BUG: a must contain at least one item"
  | v0 :: rest =>
    if isConst a then .ok (dst, .const, v0)
    else if isDeltaConst a then
      match rest with
      | [] => .panic "index out of bounds: the len is 1 but the index is 1"
      | v1 :: _ => .ok (marshalVarInt64 dst (v1 - v0), .deltaConst, v0)
    else if isGauge a then do
      -- gauges suffer more from a low precision than counters
      let pb := if precisionBits < 6 then precisionBits + 2 else precisionBits
      let (bb, firstValue) ← marshalInt64NearestDelta [] a pb
      let (dst, compressed) := compressIfEffective z dst bb a.length
      .ok (dst, if compressed then .zstdNearestDelta else .nearestDelta, firstValue)
    else do
      let (bb, firstValue) ← marshalInt64NearestDelta2 [] a precisionBits
      let (dst, compressed) := compressIfEffective z dst bb a.length
      .ok (dst, if compressed then .zstdNearestDelta2 else .nearestDelta2, firstValue)

def appendInt64Zeros (dst : List Int64) (items : ℕ) : List Int64 := dst ++ List.replicate items 0

def appendInt64Ones (dst : List Int64) (items : ℕ) : List Int64 := dst ++ List.replicate items 1

/-- `itemsCount` items from `v` on with the constant difference `d`. -/
def arithmeticSeq (v d : Int64) : ℕ → List Int64
  | 0 => []
  | n + 1 => v :: arithmeticSeq (v + d) d n

/-- Appends the `itemsCount` items encoded in `src`. -/
def unmarshalInt64Array (dst : List Int64) (src : Bytes) (mt : MarshalType) (firstValue : Int64)
    (itemsCount : ℕ) : Outcome (List Int64) :=
  let len := src.length
  match mt with
  | .zstdNearestDelta => do
    let bb ← (decompressZstd z [] src).mapErr fun err => s!"cannot decompress zstd data: {err}"
    (unmarshalInt64NearestDelta dst bb firstValue itemsCount).mapErr fun err =>
      s!"cannot unmarshal nearest delta data after zstd decompression: {err}"
  | .zstdNearestDelta2 => do
    let bb ← (decompressZstd z [] src).mapErr fun err => s!"cannot decompress zstd data: {err}"
    (unmarshalInt64NearestDelta2 dst bb firstValue itemsCount).mapErr fun err =>
      s!"cannot unmarshal nearest delta2 data after zstd decompression: {err}"
  | .nearestDelta =>
    (unmarshalInt64NearestDelta dst src firstValue itemsCount).mapErr fun err =>
      s!"cannot unmarshal nearest delta data: {err}"
  | .nearestDelta2 =>
    (unmarshalInt64NearestDelta2 dst src firstValue itemsCount).mapErr fun err =>
      s!"cannot unmarshal nearest delta2 data: {err}"
  | .const =>
    if src ≠ [] then .err s!"unexpected data left in const encoding: {len} bytes"
    else if firstValue = 0 then .ok (appendInt64Zeros dst itemsCount)
    else if firstValue = 1 then .ok (appendInt64Ones dst itemsCount)
    else .ok (dst ++ List.replicate itemsCount firstValue)
  | .deltaConst =>
    match unmarshalVarInt64 src with
    | none => .err "cannot unmarshal delta value for delta const"
    | some (d, nLen) =>
      if nLen < src.length then
        let left := src.length - nLen
        .err s!"unexpected trailing data after delta const (d={d}): {left} bytes"
      else .ok (dst ++ arithmeticSeq firstValue d itemsCount)

/-- Raises every item to the one before it. -/
def raiseFrom (vPrev : Int64) : List Int64 → List Int64
  | [] => []
  | v :: a =>
    let v := if v < vPrev then vPrev else v
    v :: raiseFrom v a

/-- Lowers the items to `vMax` from the last one on, up to the first that is not above it; the
list is given backwards. -/
def lowerFrom (vMax : Int64) : List Int64 → List Int64
  | [] => []
  | v :: a => if v > vMax then vMax :: lowerFrom vMax a else v :: a

/-- Makes `a` non-decreasing with the first item `vMin` and the last item `vMax`. -/
def ensureNonDecreasingSequence (a : List Int64) (vMin vMax : Int64) : Outcome (List Int64) := do
  Outcome.assert (vMax ≥ vMin) s!"BUG: vMax cannot be smaller than vMin; got {vMax} vs {vMin}"
  match a with
  | [] => .ok []
  | _ :: rest =>
    let a := vMin :: raiseFrom vMin rest
    match a.reverse with
    | [] => .ok a
    | last :: front =>
      if last ≠ vMax then .ok (vMax :: lowerFrom vMax front).reverse else .ok a

def marshalTimestamps (dst : Bytes) (timestamps : List Int64) (precisionBits : UInt8) :
    Outcome (Bytes × MarshalType × Int64) := marshalInt64Array z dst timestamps precisionBits

def unmarshalTimestamps (dst : List Int64) (src : Bytes) (mt : MarshalType)
    (firstTimestamp : Int64) (itemsCount : ℕ) : Outcome (List Int64) :=
  (unmarshalInt64Array z dst src mt firstTimestamp itemsCount).mapErr fun err =>
    let len := src.length
    s!"cannot unmarshal {itemsCount} timestamps from len(src)={len} bytes: {err}"

def marshalValues (dst : Bytes) (values : List Int64) (precisionBits : UInt8) :
    Outcome (Bytes × MarshalType × Int64) := marshalInt64Array z dst values precisionBits

def unmarshalValues (dst : List Int64) (src : Bytes) (mt : MarshalType) (firstValue : Int64)
    (itemsCount : ℕ) : Outcome (List Int64) :=
  (unmarshalInt64Array z dst src mt firstValue itemsCount).mapErr fun err =>
    let len := src.length
    s!"cannot unmarshal {itemsCount} values from len(src)={len} bytes: {err}"

/-! ### The classifiers -/

variable {v v0 v1 : Int64} {a : List Int64}

theorem eq_replicate_of_isConst (h : isConst (v :: a)) :
    v :: a = List.replicate (a.length + 1) v := by
  have hall : ∀ w ∈ v :: a, w = v := by
    rw [isConst] at h
    split_ifs at h with h0 h1
    · rw [isInt64Zeros, all_eq_true] at h0
      exact fun w hw => (beq_iff_eq.mp (h0 w hw)).trans (beq_iff_eq.mp (h0 v mem_cons_self)).symm
    · rw [isInt64Ones, all_eq_true] at h1
      exact fun w hw => (beq_iff_eq.mp (h1 w hw)).trans (beq_iff_eq.mp (h1 v mem_cons_self)).symm
    · exact fun w hw => beq_iff_eq.mp (all_eq_true.mp h w hw)
  exact eq_replicate_iff.mpr ⟨by simp, hall⟩

theorem arithmeticSeq_of_deltaConstFrom {d prev : Int64} (h : deltaConstFrom d prev a) :
    arithmeticSeq prev d (a.length + 1) = prev :: a := by
  induction a generalizing prev with
  | nil => rfl
  | cons next a ih =>
    rw [deltaConstFrom] at h
    split_ifs at h with hd
    have hnext : prev + d = next := by grind
    rw [length_cons, arithmeticSeq, hnext, ih h]

theorem arithmeticSeq_of_isDeltaConst (h : isDeltaConst (v0 :: v1 :: a)) :
    arithmeticSeq v0 (v1 - v0) (a.length + 2) = v0 :: v1 :: a := by
  have hv1 : v0 + (v1 - v0) = v1 := by grind
  rw [arithmeticSeq, hv1, arithmeticSeq_of_deltaConstFrom h]

/-! ### Lossless round trip -/

/-- The stored bytes are the plain bytes, or fewer bytes that decompress to them. -/
theorem compressIfEffective_spec (hz : z.RoundTrips) (bb : Bytes) (itemsCount : ℕ) :
    ∃ enc compressed, (∀ dst, compressIfEffective z dst bb itemsCount = (dst ++ enc, compressed)) ∧
      (if compressed then decompressZstd z [] enc = .ok bb else enc = bb) ∧
      enc.length ≤ bb.length := by
  by_cases hplain : bb.length < minCompressibleBlockSize ∨
      10 * (z.compressToBuffer (getCompressLevel itemsCount) bb).length > 9 * bb.length
  · refine ⟨bb, false, fun dst => ?_, rfl, Nat.le_refl _⟩
    rw [compressIfEffective]
    rcases hplain with h | h
    · rw [if_pos h]
    · simp only [compressZstdLevel, length_append, Nat.add_sub_cancel_left, if_pos h, ite_self]
  · obtain ⟨hsize, heff⟩ := not_or.mp hplain
    refine ⟨z.compressToBuffer (getCompressLevel itemsCount) bb, true, fun dst => ?_, ?_, by omega⟩
    · simp only [compressIfEffective, if_neg hsize, compressZstdLevel, length_append,
        Nat.add_sub_cancel_left, if_neg heff]
    · simpa [compressZstdLevel] using hz bb (getCompressLevel itemsCount)

/-- Writing and reading of one array: what the writer appends does not depend on what stands
before it, takes at most a varint for each item, and the reader appends the array to whatever it
is given. -/
structure ReadsBack (a : List Int64) (enc : Bytes) (mt : MarshalType) (firstValue : Int64) :
    Prop where
  marshal_eq : ∀ dst, marshalInt64Array z dst a 64 = .ok (dst ++ enc, mt, firstValue)
  unmarshal_eq : ∀ dst, unmarshalInt64Array z dst enc mt firstValue a.length = .ok (dst ++ a)
  head_eq : a.head? = some firstValue
  length_le : enc.length ≤ 10 * a.length

theorem readsBack_const (h : isConst (v :: a)) :
    ReadsBack z (v :: a) [] .const v := by
  refine ⟨fun dst => ?_, fun dst => ?_, rfl, Nat.zero_le _⟩
  · simp only [marshalInt64Array, h, if_true, append_nil]
  · have hrep := eq_replicate_of_isConst h
    simp only [unmarshalInt64Array, ne_eq, not_true_eq_false, if_false, length_cons]
    split_ifs with h0 h1
    · rw [appendInt64Zeros, hrep, h0]
    · rw [appendInt64Ones, hrep, h1]
    · rw [← hrep]

theorem readsBack_deltaConst (hc : ¬ isConst (v0 :: v1 :: a)) (h : isDeltaConst (v0 :: v1 :: a)) :
    ∃ enc, ReadsBack z (v0 :: v1 :: a) enc .deltaConst v0 := by
  obtain ⟨e, he, hdst⟩ := marshalVarInt64_spec (v1 - v0)
  refine ⟨e, fun dst => ?_, fun dst => ?_, rfl, ?_⟩
  · simp only [marshalInt64Array, hc, h, Bool.false_eq_true, if_false, if_true, hdst]
  · have hread := unmarshalVarInt64_eq he []
    rw [append_nil] at hread
    simp only [unmarshalInt64Array, hread, Nat.lt_irrefl, if_false, length_cons]
    rw [arithmeticSeq_of_isDeltaConst h]
  · have hlen := he.length_le
    rw [length_cons, length_cons]
    omega

/-- Delta-encoded data is read back from its plain or compressed form. -/
theorem exists_compressed_nearestDelta (hz : z.RoundTrips) {bb : Bytes} {n : ℕ} {r : List Int64}
    (h : ∀ dst, unmarshalInt64NearestDelta dst bb v n = .ok (dst ++ r)) (itemsCount : ℕ) :
    ∃ enc compressed, (∀ dst, compressIfEffective z dst bb itemsCount = (dst ++ enc, compressed)) ∧
      enc.length ≤ bb.length ∧
      ∀ dst, unmarshalInt64Array z dst enc
        (if compressed then .zstdNearestDelta else .nearestDelta) v n = .ok (dst ++ r) := by
  obtain ⟨enc, compressed, hwrite, hread, hlen⟩ := compressIfEffective_spec z hz bb itemsCount
  refine ⟨enc, compressed, hwrite, hlen, fun dst => ?_⟩
  cases compressed with
  | true =>
    simp only [if_true] at hread ⊢
    simp only [unmarshalInt64Array, hread, mapErr_ok, ok_bind, h]
  | false =>
    simp only [Bool.false_eq_true, if_false] at hread ⊢
    simp only [unmarshalInt64Array, hread, h, mapErr_ok]

/-- Delta-of-delta-encoded data is read back from its plain or compressed form. -/
theorem exists_compressed_nearestDelta2 (hz : z.RoundTrips) {bb : Bytes} {n : ℕ} {r : List Int64}
    (h : ∀ dst, unmarshalInt64NearestDelta2 dst bb v n = .ok (dst ++ r)) (itemsCount : ℕ) :
    ∃ enc compressed, (∀ dst, compressIfEffective z dst bb itemsCount = (dst ++ enc, compressed)) ∧
      enc.length ≤ bb.length ∧
      ∀ dst, unmarshalInt64Array z dst enc
        (if compressed then .zstdNearestDelta2 else .nearestDelta2) v n = .ok (dst ++ r) := by
  obtain ⟨enc, compressed, hwrite, hread, hlen⟩ := compressIfEffective_spec z hz bb itemsCount
  refine ⟨enc, compressed, hwrite, hlen, fun dst => ?_⟩
  cases compressed with
  | true =>
    simp only [if_true] at hread ⊢
    simp only [unmarshalInt64Array, hread, mapErr_ok, ok_bind, h]
  | false =>
    simp only [Bool.false_eq_true, if_false] at hread ⊢
    simp only [unmarshalInt64Array, hread, h, mapErr_ok]

private theorem readsBack_gauge (hz : z.RoundTrips) (hc : ¬ isConst (v :: a))
    (hd : ¬ isDeltaConst (v :: a))
    (hg : isGauge (v :: a)) :
    ∃ enc mt, ReadsBack z (v :: a) enc mt v := by
  obtain ⟨enc, compressed, hwrite, hlen, hread⟩ := exists_compressed_nearestDelta z hz
    (fun dst => unmarshalInt64NearestDelta_deltas dst v a) (v :: a).length
  refine ⟨enc, if compressed then .zstdNearestDelta else .nearestDelta, fun dst => ?_,
    hread, rfl, ?_⟩
  · simp only [marshalInt64Array, hc, hd, hg, Bool.false_eq_true, if_false, if_true,
      show ¬ (64 : UInt8) < 6 by decide, marshalInt64NearestDelta_eq, nil_append,
      ok_bind, hwrite]
  · have hvar := (isVarInts_varInts (deltas v a)).length_le
    rw [length_deltas] at hvar
    rw [length_cons]
    omega

private theorem readsBack_counter (hz : z.RoundTrips) (hc : ¬ isConst (v0 :: v1 :: a))
    (hd : ¬ isDeltaConst (v0 :: v1 :: a)) (hg : ¬ isGauge (v0 :: v1 :: a)) :
    ∃ enc mt, ReadsBack z (v0 :: v1 :: a) enc mt v0 := by
  obtain ⟨e, he, hmarshal⟩ := marshalInt64NearestDelta2_spec v0 v1 a
  obtain ⟨enc, compressed, hwrite, hlen, hread⟩ := exists_compressed_nearestDelta2 z hz
    (fun dst => unmarshalInt64NearestDelta2_deltas2 dst v0 v1 a he) (v0 :: v1 :: a).length
  refine ⟨enc, if compressed then .zstdNearestDelta2 else .nearestDelta2, fun dst => ?_, hread, rfl,
    ?_⟩
  · simp only [marshalInt64Array, hc, hd, hg, Bool.false_eq_true, if_false, hmarshal,
      nil_append, ok_bind, hwrite]
  · have hvar := he.length_le
    rw [length_cons, length_deltas2] at hvar
    rw [length_cons, length_cons]
    omega

/-- A single item is constant, so the other encodings see at least two. -/
private theorem isConst_singleton (v : Int64) : isConst [v] := by
  simp [isConst]

/-- Every non-empty array is read back as it was written at full precision. -/
theorem exists_readsBack (hz : z.RoundTrips) (ha : a ≠ []) :
    ∃ enc mt firstValue, ReadsBack z a enc mt firstValue := by
  match a with
  | [v] => exact ⟨[], .const, v, readsBack_const z (isConst_singleton v)⟩
  | v0 :: v1 :: rest =>
    by_cases hc : isConst (v0 :: v1 :: rest)
    · exact ⟨[], .const, v0, readsBack_const z hc⟩
    by_cases hd : isDeltaConst (v0 :: v1 :: rest)
    · obtain ⟨enc, h⟩ := readsBack_deltaConst z hc hd
      exact ⟨enc, .deltaConst, v0, h⟩
    by_cases hg : isGauge (v0 :: v1 :: rest)
    · obtain ⟨enc, mt, h⟩ := readsBack_gauge z hz hc hd hg
      exact ⟨enc, mt, v0, h⟩
    · obtain ⟨enc, mt, h⟩ := readsBack_counter z hz hc hd hg
      exact ⟨enc, mt, v0, h⟩

/-- The lossless round trip: whatever stands in the two destinations, writing `a` at 64 bits
appends bytes that read back as `a`. -/
theorem unmarshalInt64Array_marshalInt64Array (hz : z.RoundTrips) (a : List Int64) (ha : a ≠ [])
    (dst : Bytes) (dst' : List Int64) :
    ∃ enc mt firstValue, marshalInt64Array z dst a 64 = .ok (dst ++ enc, mt, firstValue) ∧
      unmarshalInt64Array z dst' enc mt firstValue a.length = .ok (dst' ++ a) := by
  obtain ⟨enc, mt, firstValue, h⟩ := exists_readsBack z hz ha
  exact ⟨enc, mt, firstValue, h.marshal_eq dst, h.unmarshal_eq dst'⟩

theorem unmarshalInt64Array_marshalInt64Array_minMax :
    ∃ enc mt firstValue,
      marshalInt64Array Zstd.stored [7] [Int64.minValue, Int64.maxValue, 0, -64] 64 =
          .ok ([7] ++ enc, mt, firstValue) ∧
        unmarshalInt64Array Zstd.stored [5] enc mt firstValue 4 =
          .ok ([5] ++ [Int64.minValue, Int64.maxValue, 0, -64]) :=
  unmarshalInt64Array_marshalInt64Array Zstd.stored Zstd.roundTrips_stored
    [Int64.minValue, Int64.maxValue, 0, -64] (by decide) [7] [5]

/-! ### Reachability of a panic in the reader -/

/-- The frame claims more bytes than a `Vec` can hold. -/
def FrameTooBig (src : Bytes) : Prop :=
  src ≠ [] ∧ ∃ n, z.getFrameContentSize src = some n ∧ isizeMax < n.toNat

/-- The data on which the reader of an array aborts: too few items for a delta encoding that is
reached, or a compressed frame of an impossible size. -/
def ArrayAborts (src : Bytes) (mt : MarshalType) (itemsCount : ℕ) : Prop :=
  match mt with
  | .const | .deltaConst => False
  | .nearestDelta => itemsCount < 1
  | .nearestDelta2 => itemsCount < 2
  | .zstdNearestDelta =>
    FrameTooBig z src ∨ (∃ bb, decompressZstd z [] src = .ok bb) ∧ itemsCount < 1
  | .zstdNearestDelta2 =>
    FrameTooBig z src ∨ (∃ bb, decompressZstd z [] src = .ok bb) ∧ itemsCount < 2

theorem panics_unmarshalInt64Array_iff (dst : List Int64) (src : Bytes) (mt : MarshalType)
    (firstValue : Int64) (itemsCount : ℕ) :
    (unmarshalInt64Array z dst src mt firstValue itemsCount).Panics ↔
      ArrayAborts z src mt itemsCount := by
  cases mt with
  | const =>
    simp only [unmarshalInt64Array, ArrayAborts, iff_false]
    split_ifs <;> simp
  | deltaConst =>
    simp only [unmarshalInt64Array, ArrayAborts, iff_false]
    split
    · simp
    · split_ifs <;> simp
  | nearestDelta =>
    rw [unmarshalInt64Array, panics_mapErr, panics_unmarshalInt64NearestDelta_iff,
      ArrayAborts]
  | nearestDelta2 =>
    rw [unmarshalInt64Array, panics_mapErr, panics_unmarshalInt64NearestDelta2_iff,
      ArrayAborts]
  | zstdNearestDelta =>
    simp only [unmarshalInt64Array, ArrayAborts, FrameTooBig, panics_bind_iff,
      panics_mapErr, mapErr_eq_ok_iff, panics_decompressZstd_iff,
      panics_unmarshalInt64NearestDelta_iff, exists_and_right]
  | zstdNearestDelta2 =>
    simp only [unmarshalInt64Array, ArrayAborts, FrameTooBig, panics_bind_iff,
      panics_mapErr, mapErr_eq_ok_iff, panics_decompressZstd_iff,
      panics_unmarshalInt64NearestDelta2_iff, exists_and_right]

@[simp]
theorem panics_ensureNonDecreasingSequence_iff (a : List Int64) (vMin vMax : Int64) :
    (ensureNonDecreasingSequence a vMin vMax).Panics ↔ vMax < vMin := by
  rw [ensureNonDecreasingSequence.eq_def, panics_bind_iff, panics_assert, not_le]
  refine ⟨fun h => h.resolve_right ?_, .inl⟩
  rintro ⟨-, -, h⟩
  match a with
  | [] => exact not_panics_ok _ h
  | _ :: rest =>
    simp only at h
    split at h
    · exact not_panics_ok _ h
    · split_ifs at h <;> exact not_panics_ok _ h

/-- The repair of lossy timestamps succeeds on every array, if the bounds are ordered. -/
theorem exists_ensureNonDecreasingSequence {vMin vMax : Int64} (h : vMin ≤ vMax)
    (a : List Int64) : ∃ a', ensureNonDecreasingSequence a vMin vMax = .ok a' := by
  rw [ensureNonDecreasingSequence.eq_def, assert_of h, ok_bind]
  match a with
  | [] => exact ⟨[], rfl⟩
  | _ :: rest =>
    simp only
    split
    · exact ⟨_, rfl⟩
    · split_ifs
      · exact ⟨_, rfl⟩
      · exact ⟨_, rfl⟩

end Esmetrics
