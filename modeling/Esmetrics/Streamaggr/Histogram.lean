import Mathlib.Data.Rat.Floor
import Mathlib.Logic.Function.Basic
import Mathlib.Tactic.Ring
import Mathlib.Tactic.Linarith
import Mathlib.Tactic.NormNum

/-!
# The histogram of `vmrange` buckets

Model of `VmHistogram` of `esm-streamaggr/src/histogram.rs` over exact values: the buckets of the
powers of ten from `10^-9` to `10^18`, eighteen for each, and what lies below and above. The decimal
logarithm and the texts of the ranges are parameters, as they are computed in floating point. A
count is a natural number.
-/

namespace Esmetrics.Streamaggr

def e10Min : ℤ := -9

def e10Max : ℤ := 18

def bucketsPerDecimal : ℕ := 18

def decimalBucketsCount : ℕ := (e10Max - e10Min).toNat

def bucketsCount : ℕ := decimalBucketsCount * bucketsPerDecimal

/-- A range of values; its text is looked up by this. -/
inductive BucketRange
  | lower
  | range (bucketIdx : ℕ)
  | upper
deriving DecidableEq

/-- The functions on floating-point numbers. -/
structure FloatOps where
  /-- The decimal logarithm, `none` being negative infinity. -/
  log10 : ℚ → Option ℚ
  vmrange : BucketRange → String

/-- The buckets of one power of ten. -/
abbrev DecimalBucket := Fin bucketsPerDecimal → ℕ

structure VmHistogram where
  decimalBuckets : Fin decimalBucketsCount → Option DecimalBucket
  lower : ℕ
  upper : ℕ
  sum : ℚ

namespace VmHistogram

def new : VmHistogram := ⟨fun _ => none, 0, 0, 0⟩

/-- One more value in the bucket with the given index. -/
def incBucket (h : VmHistogram) (idx : ℕ) (hidx : idx < bucketsCount) : VmHistogram :=
  let decimalBucketIdx : Fin decimalBucketsCount :=
    ⟨idx / bucketsPerDecimal, Nat.div_lt_of_lt_mul (by rwa [Nat.mul_comm])⟩
  let offset : Fin bucketsPerDecimal := ⟨idx % bucketsPerDecimal, Nat.mod_lt _ (by decide)⟩
  let db := (h.decimalBuckets decimalBucketIdx).getD fun _ => 0
  { h with
    decimalBuckets := Function.update h.decimalBuckets decimalBucketIdx
      (some (Function.update db offset (db offset + 1))) }

/-- Values of power `10^n` go to the bucket below. -/
def edgeIdx (bucketIdx : ℚ) : ℕ :=
  let idx := ⌊bucketIdx⌋₊
  if bucketIdx = idx ∧ idx > 0 then idx - 1 else idx

theorem edgeIdx_lt {bucketIdx : ℚ} (h : ¬ (bucketsCount : ℚ) ≤ bucketIdx) :
    edgeIdx bucketIdx < bucketsCount := by
  have hfloor : ⌊bucketIdx⌋₊ < bucketsCount :=
    (Nat.floor_lt' (by decide)).mpr (not_le.mp h)
  rw [edgeIdx]
  split
  · omega
  · exact hfloor

/-- The bucket of `v` is incremented. -/
def incBucketOf (ops : FloatOps) (h : VmHistogram) (v : ℚ) : VmHistogram :=
  match ops.log10 v with
  | none => { h with lower := h.lower + 1 }
  | some l =>
    let bucketIdx := (l - e10Min) * bucketsPerDecimal
    if bucketIdx < 0 then { h with lower := h.lower + 1 }
    else if hupper : (bucketsCount : ℚ) ≤ bucketIdx then { h with upper := h.upper + 1 }
    else h.incBucket (edgeIdx bucketIdx) (edgeIdx_lt hupper)

def update (ops : FloatOps) (h : VmHistogram) (v : ℚ) : VmHistogram :=
  if v < 0 then h else incBucketOf ops { h with sum := h.sum + v } v

/-- The buckets of both, for one power of ten. -/
def mergeBucket (dst src : Option DecimalBucket) : Option DecimalBucket :=
  match src with
  | none => dst
  | some src => some fun j => (dst.getD fun _ => 0) j + src j

def merge (h src : VmHistogram) : VmHistogram where
  decimalBuckets := fun i => mergeBucket (h.decimalBuckets i) (src.decimalBuckets i)
  lower := h.lower + src.lower
  upper := h.upper + src.upper
  sum := h.sum + src.sum

def reset (_ : VmHistogram) : VmHistogram := new

/-- The buckets that are not empty, in ascending order. -/
def visitNonZeroBuckets (h : VmHistogram) : List (BucketRange × ℕ) :=
  (if h.lower > 0 then [(.lower, h.lower)] else []) ++
  ((List.finRange decimalBucketsCount).flatMap fun decimalBucketIdx =>
    match h.decimalBuckets decimalBucketIdx with
    | none => []
    | some db => (List.finRange bucketsPerDecimal).filterMap fun offset =>
        if db offset > 0 then
          some (.range (decimalBucketIdx * bucketsPerDecimal + offset), db offset)
        else none) ++
  (if h.upper > 0 then [(.upper, h.upper)] else [])

/-! ### Merging and updating -/

theorem merge_new (h : VmHistogram) : h.merge new = h := by
  rw [merge, new]
  simp only [mergeBucket, add_zero]

theorem merge_addSum (shared h : VmHistogram) (v : ℚ) :
    shared.merge { h with sum := h.sum + v } =
      { shared.merge h with sum := (shared.merge h).sum + v } := by
  rw [merge, merge]
  dsimp only
  rw [add_assoc]

theorem merge_incBucket (shared h : VmHistogram) {idx : ℕ} (hidx : idx < bucketsCount) :
    shared.merge (h.incBucket idx hidx) = (shared.merge h).incBucket idx hidx := by
  rw [merge, incBucket, incBucket, merge]
  dsimp only
  congr 1
  funext i
  rw [Function.update_apply, Function.update_apply]
  split
  · next hi =>
    subst hi
    generalize h.decimalBuckets _ = src
    generalize shared.decimalBuckets _ = dst
    generalize (⟨idx % bucketsPerDecimal, _⟩ : Fin bucketsPerDecimal) = offset
    rw [mergeBucket]
    congr 1
    funext j
    by_cases hj : j = offset
    · subst hj
      cases src <;> simp [mergeBucket, Nat.add_assoc]
    · cases src <;> simp [mergeBucket, hj]
  · rfl

theorem merge_incBucketOf (ops : FloatOps) (shared h : VmHistogram) (v : ℚ) :
    shared.merge (h.incBucketOf ops v) = (shared.merge h).incBucketOf ops v := by
  rw [incBucketOf, incBucketOf]
  split
  · rfl
  · dsimp only
    split
    · rfl
    · split
      · rfl
      · exact merge_incBucket shared h _

/-- A value that is added before merging is in the merged histogram. -/
theorem merge_update (ops : FloatOps) (shared h : VmHistogram) (v : ℚ) :
    shared.merge (h.update ops v) = (shared.merge h).update ops v := by
  rw [update, update]
  split
  · rfl
  · rw [merge_incBucketOf, merge_addSum]

end VmHistogram

end Esmetrics.Streamaggr
