import Esmetrics.Encoding.Int
import Esmetrics.Lib.Outcome

/-!
# Delta encodings

Model of `esm-encoding/src/nearest_delta.rs` and `nearest_delta2.rs`: an array of integers as its
first item and varints of the differences, or of the differences of the differences, in wrapping
arithmetic. With `precision_bits` below 64 the low bits of the differences are dropped; at 64 the
encodings are lossless (`unmarshalInt64NearestDelta_deltas`,
`unmarshalInt64NearestDelta2_deltas2`).
-/

namespace Esmetrics

/-- `precision_bits` is in the range `[1..64]`. -/
def checkPrecisionBits (precisionBits : UInt8) : Except String Unit :=
  if 1 ≤ precisionBits ∧ precisionBits ≤ 64 then .ok ()
  else .error s!"precisionBits must be in the range [1...64]; got {precisionBits}"

/-- The number of bits up to the highest set one: 64 minus `leading_zeros`. -/
def bitLen (u : UInt64) : ℕ := if u = 0 then 0 else u.toNat.log2 + 1

def decIfNonZero (n : ℕ) : ℕ := n - 1

/-- The absolute value, in wrapping arithmetic. -/
def wrappingAbs (v : Int64) : Int64 := if v < 0 then -v else v

/-- The number of low bits of `v` past the precision. -/
def getTrailingZeros (v : Int64) (precisionBits : ℕ) : ℕ :=
  let vBits := bitLen (wrappingAbs v).toUInt64
  if vBits ≤ precisionBits then 0 else vBits - precisionBits

/-- The difference of `next` and `prev` to the given precision, with the number of trailing zeros
used for it. -/
def nearestDelta (next prev : Int64) (precisionBits prevTrailingZeros : ℕ) : Int64 × ℕ :=
  let d := next - prev
  if d = 0 then (0, decIfNonZero prevTrailingZeros)
  else
    let originBits := bitLen (wrappingAbs next).toUInt64
    if originBits ≤ precisionBits then (d, decIfNonZero prevTrailingZeros)
    else
      let trailingZeros := originBits - precisionBits
      if trailingZeros > prevTrailingZeros + 4 then (d, prevTrailingZeros + 2)
      else if trailingZeros + 4 < prevTrailingZeros then (d, prevTrailingZeros - 2)
      else
        let minus := d < 0
        let nd := ((wrappingAbs d).toUInt64 &&& (0 - 1) <<< UInt64.ofNat trailingZeros).toInt64
        (if minus then -nd else nd, trailingZeros)

/-! ### Delta encoding -/

/-- The differences of neighbours, from `v` on. -/
def deltas (v : Int64) : List Int64 → List Int64
  | [] => []
  | next :: src =>
    let d := next - v
    d :: deltas (v + d) src

/-- The differences of neighbours to the given precision. -/
def lossyDeltas (precisionBits : ℕ) (v : Int64) (trailingZeros : ℕ) : List Int64 → List Int64
  | [] => []
  | next :: src =>
    let (d, tzs) := nearestDelta next v precisionBits trailingZeros
    d :: lossyDeltas precisionBits (v + d) tzs src

/-- Appends the encoded differences of `src` and returns its first item. -/
def marshalInt64NearestDelta (dst : Bytes) (src : List Int64) (precisionBits : UInt8) :
    Outcome (Bytes × Int64) :=
  match src with
  | [] => .panic "BUG: src must contain at least 1 item; got 0 items"
  | v :: src =>
    match checkPrecisionBits precisionBits with
    | .error err => .panic s!"BUG: {err}"
    | .ok () =>
      let is :=
        if precisionBits = 64 then deltas v src
        else lossyDeltas precisionBits.toNat v (getTrailingZeros v precisionBits.toNat) src
      .ok (marshalVarInt64s dst is, v)

/-- The running sums of the differences. -/
def sumDeltas (v : Int64) : List Int64 → List Int64
  | [] => []
  | d :: is => (v + d) :: sumDeltas (v + d) is

/-- The differences of a delta-encoded array of `itemsCount` items: all of `src`. -/
def unmarshalDeltas (src : Bytes) (itemsCount : ℕ) : Outcome (List Int64) :=
  let len := src.length
  match unmarshalVarInt64s (itemsCount - 1) src with
  | .error err => .err s!"cannot unmarshal nearest delta from {len} bytes: {err}"
  | .ok (is, tail) =>
    if tail ≠ [] then
      let tailLen := tail.length
      .err
        s!"unexpected tail left after unmarshaling {itemsCount} items from {len} bytes; tail size={tailLen}"
    else .ok is

/-- Appends `itemsCount` delta-encoded items. -/
def unmarshalInt64NearestDelta (dst : List Int64) (src : Bytes) (firstValue : Int64)
    (itemsCount : ℕ) : Outcome (List Int64) := do
  Outcome.assert (itemsCount ≥ 1) s!"BUG: items_count must be greater than 0; got {itemsCount}"
  let is ← unmarshalDeltas src itemsCount
  .ok (dst ++ firstValue :: sumDeltas firstValue is)

/-! ### Delta-of-delta encoding -/

/-- The second differences, from the item `v` and the difference `d1` before it on. -/
def deltas2 (v d1 : Int64) : List Int64 → List Int64
  | [] => []
  | next :: src =>
    let d2 := next - v - d1
    d2 :: deltas2 (v + (d1 + d2)) (d1 + d2) src

/-- The second differences to the given precision. -/
def lossyDeltas2 (precisionBits : ℕ) (v d1 : Int64) (trailingZeros : ℕ) : List Int64 → List Int64
  | [] => []
  | next :: src =>
    let (d2, tzs) := nearestDelta (next - v) d1 precisionBits trailingZeros
    d2 :: lossyDeltas2 precisionBits (v + (d1 + d2)) (d1 + d2) tzs src

/-- Appends the encoded second differences of `src` and returns its first item. -/
def marshalInt64NearestDelta2 (dst : Bytes) (src : List Int64) (precisionBits : UInt8) :
    Outcome (Bytes × Int64) :=
  match src with
  | v0 :: v :: rest =>
    match checkPrecisionBits precisionBits with
    | .error err => .panic s!"BUG: {err}"
    | .ok () =>
      let d1 := v - v0
      let is :=
        if precisionBits = 64 then deltas2 v d1 rest
        else lossyDeltas2 precisionBits.toNat v d1 (getTrailingZeros v precisionBits.toNat) rest
      .ok (marshalVarInt64s (marshalVarInt64 dst d1) is, v0)
  | _ =>
    let n := src.length
    .panic s!"BUG: src must contain at least 2 items; got {n} items"

/-- The running sums of the running sums. -/
def sumDeltas2 (v d1 : Int64) : List Int64 → List Int64
  | [] => []
  | d2 :: is => (v + (d1 + d2)) :: sumDeltas2 (v + (d1 + d2)) (d1 + d2) is

/-- Appends `itemsCount` items given by their second differences. -/
def unmarshalInt64NearestDelta2 (dst : List Int64) (src : Bytes) (firstValue : Int64)
    (itemsCount : ℕ) : Outcome (List Int64) := do
  Outcome.assert (itemsCount ≥ 2) s!"BUG: items_count must be greater than 1; got {itemsCount}"
  match ← unmarshalDeltas src itemsCount with
  | [] => .panic "index out of bounds: the len is 0 but the index is 0"
  | d1 :: is => .ok (dst ++ firstValue :: (firstValue + d1) :: sumDeltas2 (firstValue + d1) d1 is)

/-! ### Lossless round trips -/

theorem length_deltas (v : Int64) (src : List Int64) : (deltas v src).length = src.length := by
  induction src generalizing v with
  | nil => rfl
  | cons next src ih => simp [deltas, ih]

theorem sumDeltas_deltas (v : Int64) (src : List Int64) : sumDeltas v (deltas v src) = src := by
  induction src generalizing v with
  | nil => rfl
  | cons next src ih =>
    have hnext : v + (next - v) = next := by grind
    rw [deltas, sumDeltas, ih, hnext]

theorem length_deltas2 (v d1 : Int64) (src : List Int64) :
    (deltas2 v d1 src).length = src.length := by
  induction src generalizing v d1 with
  | nil => rfl
  | cons next src ih => simp [deltas2, ih]

theorem sumDeltas2_deltas2 (v d1 : Int64) (src : List Int64) :
    sumDeltas2 v d1 (deltas2 v d1 src) = src := by
  induction src generalizing v d1 with
  | nil => rfl
  | cons next src ih =>
    have hnext : v + (d1 + (next - v - d1)) = next := by grind
    rw [deltas2, sumDeltas2, ih, hnext]

/-- Varints of all the differences are read back. -/
theorem IsVarInts.unmarshalDeltas_eq {src : Bytes} {is : List Int64} (h : IsVarInts src is) :
    unmarshalDeltas src (is.length + 1) = .ok is := by
  have hread := h.unmarshalVarInt64s_eq []
  rw [List.append_nil] at hread
  simp [unmarshalDeltas, hread]

theorem marshalInt64NearestDelta_eq (dst : Bytes) (v : Int64) (src : List Int64) :
    marshalInt64NearestDelta dst (v :: src) 64 = .ok (dst ++ varInts (deltas v src), v) := by
  rw [← marshalVarInt64s_eq]
  rfl

/-- Delta encoding at full precision is read back. -/
theorem unmarshalInt64NearestDelta_deltas (dst : List Int64) (v : Int64) (src : List Int64) :
    unmarshalInt64NearestDelta dst (varInts (deltas v src)) v (src.length + 1) =
      .ok (dst ++ v :: src) := by
  have hread := (isVarInts_varInts (deltas v src)).unmarshalDeltas_eq
  rw [length_deltas] at hread
  rw [unmarshalInt64NearestDelta, Outcome.assert_of (Nat.le_add_left 1 _), Outcome.ok_bind, hread,
    Outcome.ok_bind, sumDeltas_deltas]

/-- Second differences at full precision are written as varints and read back. The first
difference goes through the single-value writer, so its varint need not be the shortest. -/
theorem marshalInt64NearestDelta2_spec (v0 v : Int64) (src : List Int64) :
    ∃ e, IsVarInts e ((v - v0) :: deltas2 v (v - v0) src) ∧
      ∀ dst, marshalInt64NearestDelta2 dst (v0 :: v :: src) 64 = .ok (dst ++ e, v0) := by
  obtain ⟨e, he, hdst⟩ := marshalVarInt64_spec (v - v0)
  refine ⟨e ++ varInts (deltas2 v (v - v0) src), .cons he (isVarInts_varInts _), fun dst => ?_⟩
  rw [← List.append_assoc, ← hdst, ← marshalVarInt64s_eq]
  rfl

theorem unmarshalInt64NearestDelta2_deltas2 (dst : List Int64) {e : Bytes} (v0 v : Int64)
    (src : List Int64) (he : IsVarInts e ((v - v0) :: deltas2 v (v - v0) src)) :
    unmarshalInt64NearestDelta2 dst e v0 (src.length + 2) = .ok (dst ++ v0 :: v :: src) := by
  have hread := he.unmarshalDeltas_eq
  rw [List.length_cons, length_deltas2] at hread
  have hv : v0 + (v - v0) = v := by grind
  rw [unmarshalInt64NearestDelta2, Outcome.assert_of (Nat.le_add_left 2 _), Outcome.ok_bind,
    hread, Outcome.ok_bind]
  simp only [hv, sumDeltas2_deltas2]

/-! ### Reachability of the assertions -/

theorem not_panics_unmarshalDeltas (src : Bytes) (itemsCount : ℕ) :
    ¬ (unmarshalDeltas src itemsCount).Panics := by
  rw [unmarshalDeltas]
  simp only
  split
  · simp
  · split_ifs <;> simp

theorem length_of_unmarshalDeltas {src : Bytes} {itemsCount : ℕ} {is : List Int64}
    (h : unmarshalDeltas src itemsCount = .ok is) : is.length = itemsCount - 1 := by
  rw [unmarshalDeltas] at h
  simp only at h
  split at h
  · cases h
  · rename_i hread
    split_ifs at h
    cases h
    exact length_of_unmarshalVarInt64s hread

/-- Delta decoding panics only without items. -/
theorem panics_unmarshalInt64NearestDelta_iff (dst : List Int64) (src : Bytes)
    (firstValue : Int64) (itemsCount : ℕ) :
    (unmarshalInt64NearestDelta dst src firstValue itemsCount).Panics ↔ itemsCount < 1 := by
  rw [unmarshalInt64NearestDelta, Outcome.panics_bind_iff, Outcome.panics_assert,
    Outcome.panics_bind_iff]
  simp [not_panics_unmarshalDeltas]

/-- Delta-of-delta decoding panics exactly on fewer than two items, whatever the data. -/
theorem panics_unmarshalInt64NearestDelta2_iff (dst : List Int64) (src : Bytes)
    (firstValue : Int64) (itemsCount : ℕ) :
    (unmarshalInt64NearestDelta2 dst src firstValue itemsCount).Panics ↔ itemsCount < 2 := by
  rw [unmarshalInt64NearestDelta2, Outcome.panics_bind_iff, Outcome.panics_assert]
  refine ⟨fun h => ?_, fun h => .inl (by omega)⟩
  rcases h with h | ⟨-, -, h⟩
  · omega
  by_contra hcount
  rcases Outcome.panics_bind_iff.mp h with h | ⟨is, his, h⟩
  · exact not_panics_unmarshalDeltas src itemsCount h
  · -- the first difference is there, since two items have one
    have hlen := length_of_unmarshalDeltas his
    match is with
    | [] =>
      rw [List.length_nil] at hlen
      omega
    | d1 :: is => exact Outcome.not_panics_ok _ h

end Esmetrics
