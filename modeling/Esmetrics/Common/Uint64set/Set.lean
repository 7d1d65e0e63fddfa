import Esmetrics.Lib.Bits

/-!
# Sets of 64-bit values

Model of the look-up in a `Set` of `esm-common/src/uint64set.rs`: a list of `Bucket32`s keyed by the
high 32 bits, each a list of `Bucket16`s sorted by the next 16, which hold the low 16 bits in a
small unsorted pool or in a bitmap of 1024 words. The two parallel vectors of a `Bucket32` are one
list of pairs.
-/

namespace Esmetrics

def bitsPerBucket : ℕ := 1 <<< 16

def wordsPerBucket : ℕ := bitsPerBucket / 64

/-- The words of a bitmap. -/
abbrev BucketBits := Fin wordsPerBucket → UInt64

/-- A set of 16-bit values. -/
structure Bucket16 where
  /-- The bitmap, once there is one. -/
  bits : Option BucketBits
  /-- The items of the small pool. -/
  smallPool : List UInt16

/-- The word and the bit of an item. -/
def getWordNumBitMask (x : UInt16) : Fin wordsPerBucket × UInt64 :=
  (⟨x.toNat / 64, by have := x.toNat_lt; simp only [wordsPerBucket, bitsPerBucket]; omega⟩,
    bitMask (x &&& 63).toNat)

namespace Bucket16

def hasInSmallPool (b : Bucket16) (x : UInt16) : Bool := b.smallPool.contains x

def has (b : Bucket16) (x : UInt16) : Bool :=
  match b.bits with
  | none => b.hasInSmallPool x
  | some bits =>
    let (wordNum, bitMask) := getWordNumBitMask x
    bits wordNum &&& bitMask != 0

end Bucket16

/-- A set of 32-bit values. -/
structure Bucket32 where
  hi : UInt32
  /-- The index of the bucket of the last operation; it may be stale. -/
  hint : UInt32
  /-- The vectors `b16his` and `buckets`. -/
  entries : List (UInt16 × Bucket16)

/-- The loop of a binary search for the first key from `x` on, between `i` and `j`. -/
def binarySearchLoop {κ : Type} [LinearOrder κ] (u : List κ) (x : κ) (i j : ℕ) : ℕ :=
  if i < j then
    let h := (i + j) >>> 1
    match u[h]? with
    | some v => if v < x then binarySearchLoop u x (h + 1) j else binarySearchLoop u x i h
    | none => i
  else i
termination_by j - i
decreasing_by
  all_goals
    rw [Nat.shiftRight_eq_div_pow]
    omega

/-- The position of the first value from `x` on, with a fast path for values scanned in
ascending order. -/
def binarySearch16 (u16s : List UInt16) (x : UInt16) : ℕ :=
  let n := u16s.length
  match u16s.getLast? with
  | some last => if last < x then n else binarySearchLoop u16s x 0 n
  | none => binarySearchLoop u16s x 0 n

namespace Bucket32

def b16his (b : Bucket32) : List UInt16 := b.entries.map Prod.fst

def has (b : Bucket32) (x : UInt32) : Bool :=
  let hi := (x >>> 16).toUInt16
  let lo := x.toUInt16
  let n := binarySearch16 b.b16his hi
  match b.entries[n]? with
  | none => false
  | some (h, b16) => if h ≠ hi then false else b16.has lo

end Bucket32

/-- A set of 64-bit values. -/
structure Uint64Set where
  itemsCount : ℕ
  buckets : List Bucket32

/-- The empty set. -/
instance : Inhabited Uint64Set := ⟨0, []⟩

namespace Uint64Set

def hi32 (x : UInt64) : UInt32 := (x >>> 32).toUInt32

def has (s : Uint64Set) (x : UInt64) : Bool :=
  match s.buckets.find? fun b => decide (b.hi = hi32 x) with
  | some b32 => b32.has x.toUInt32
  | none => false

end Uint64Set

end Esmetrics
