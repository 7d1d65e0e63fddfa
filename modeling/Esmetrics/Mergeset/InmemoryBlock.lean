import Esmetrics.Encoding.Compress
import Esmetrics.Encoding.VarUint64s
import Esmetrics.Lib.CommonPrefix
import Esmetrics.Lib.F64
import Esmetrics.Lib.StableSort

/-!
# Blocks of index items

Model of `esm-mergeset/src/inmemory_block.rs`. A block holds items, arbitrary byte strings, one
behind the other in a buffer of at most 64 KiB; an item is modelled by its bytes instead of by its
offsets in the buffer. A block is stored as its first item, the common prefix of its items and two
strings of data. In the plain encoding these are the items behind the common prefix, and their
lengths. In the other one, items are stored without what they share with the item before them, and
the lengths as differences under exclusive or, and all of this is compressed.

Whichever encoding is chosen, the items are read back in their order (`unmarshalData_marshalData`).
-/

namespace Esmetrics.Mergeset

open List

/-- The maximum size of the data of a block. -/
def maxInmemoryBlockSize : ℕ := 64 * 1024

/-- The stored data of a block. -/
structure StorageBlock where
  itemsData : Bytes
  lensData : Bytes
deriving DecidableEq, Repr

/-- The encoding of a stored block. -/
inductive MarshalType where
  | plain | zstd
deriving DecidableEq, Repr

/-- A block of items. -/
structure InmemoryBlock where
  /-- A common prefix of the items. -/
  commonPrefix : Bytes
  items : List Bytes
deriving DecidableEq, Repr

namespace InmemoryBlock

def reset : InmemoryBlock := ⟨[], []⟩

/-- The size of the data: that of all items. -/
def dataLen (ib : InmemoryBlock) : ℕ := (ib.items.map List.length).sum

/-- Adds an item to the end of the block, if there is room for it. -/
def add (ib : InmemoryBlock) (x : Bytes) : Option InmemoryBlock :=
  if x.length + ib.dataLen > maxInmemoryBlockSize then none
  else some { ib with items := ib.items ++ [x] }

/-- Every item is at least the one before it. -/
def itemsSorted : List Bytes → Bool
  | a :: b :: items => a ≤ b && itemsSorted (b :: items)
  | _ => true

def isSorted (ib : InmemoryBlock) : Bool := itemsSorted ib.items

/-- The common prefix of sorted items. One item is not copied into its own prefix. -/
def updateCommonPrefixSorted (ib : InmemoryBlock) : InmemoryBlock :=
  match ib.items with
  | first :: second :: items =>
    let last := (second :: items).getLast (cons_ne_nil _ _)
    { ib with commonPrefix := first.take (commonPrefixLen first last) }
  | _ => { ib with commonPrefix := [] }

/-- What is left of a common prefix after some more items; the search ends when nothing is left. -/
def shrinkCommonPrefix (cp : Bytes) : List Bytes → Bytes
  | [] => cp
  | item :: items =>
    if cp.isPrefixOf item then shrinkCommonPrefix cp items
    else
      let cpLen := commonPrefixLen cp item
      if cpLen = 0 then [] else shrinkCommonPrefix (cp.take cpLen) items

def updateCommonPrefixUnsorted (ib : InmemoryBlock) : InmemoryBlock :=
  match ib.items with
  | [] => { ib with commonPrefix := [] }
  | first :: items => { ib with commonPrefix := shrinkCommonPrefix first items }

/-- Sorts the items by what is behind the common prefix. -/
def sortItems (ib : InmemoryBlock) : InmemoryBlock :=
  if ib.isSorted then ib.updateCommonPrefixSorted
  else
    let ib := ib.updateCommonPrefixUnsorted
    { ib with items := sortByKey (List.drop ib.commonPrefix.length) ib.items }

/-! ### Marshaling -/

/-- What items do not share with the item before them, and how long the shared part is, as
differences under exclusive or. -/
def prefixDeltas (prevItem : Bytes) (prevPrefixLen : UInt64) : List Bytes → Bytes × List UInt64
  | [] => ([], [])
  | item :: items =>
    let n := commonPrefixLen prevItem item
    let prefixLen := UInt64.ofNat n
    let (bItems, xs) := prefixDeltas item prefixLen items
    (item.drop n ++ bItems, (prefixLen ^^^ prevPrefixLen) :: xs)

/-- The lengths of items, as differences under exclusive or. -/
def lenDeltas (prevItemLen : UInt64) : List Bytes → List UInt64
  | [] => []
  | item :: items =>
    let itemLen := UInt64.ofNat item.length
    (itemLen ^^^ prevItemLen) :: lenDeltas itemLen items

/-- The plain encoding of the items behind the first one, each without the common prefix. -/
def marshalDataPlain (suffixes : List Bytes) : StorageBlock where
  itemsData := suffixes.flatten
  lensData := suffixes.foldl (fun dst item => marshalUint64 dst (UInt64.ofNat item.length)) []

variable (z : Zstd)

/-- The compressed encoding of the items behind the first one, each without the common prefix. -/
def marshalDataZstd (firstSuffix : Bytes) (suffixes : List Bytes) (compressLevel : ℤ) :
    StorageBlock :=
  let (bItems, xs) := prefixDeltas firstSuffix 0 suffixes
  let bLens := marshalVarUint64s [] xs
  let bLens := marshalVarUint64s bLens (lenDeltas (UInt64.ofNat firstSuffix.length) suffixes)
  ⟨compressZstdLevel z [] bItems compressLevel, compressZstdLevel z [] bLens compressLevel⟩

/-- The stored form of sorted items: the data, the first item, the common prefix, the number of
items and the encoding. -/
structure Marshaled where
  sb : StorageBlock
  firstItem : Bytes
  commonPrefix : Bytes
  itemsCount : UInt32
  marshalType : MarshalType
deriving DecidableEq, Repr

/-- Marshals sorted items, after the common prefix was updated. -/
def marshalData (ib : InmemoryBlock) (compressLevel : ℤ) : Outcome Marshaled := do
  let len := ib.items.length
  Outcome.assert (ib.items ≠ [])
    "BUG: InmemoryBlock::marshal_data must be called on non-empty blocks only"
  Outcome.assert (len < 2 ^ 32)
    s!"BUG: the number of items in the block must be smaller than 2^32; got {len} items"
  let firstItem ← Outcome.index ib.items.head?
  let cpLen := ib.commonPrefix.length
  let suffixes := ib.items.tail.map (List.drop cpLen)
  let itemsCount := UInt32.ofNat len
  let size := ib.dataLen - cpLen * len
  -- The plain encoding is cheaper for small blocks.
  if size < 64 ∨ len < 2 then
    .ok ⟨marshalDataPlain suffixes, firstItem, ib.commonPrefix, itemsCount, .plain⟩
  else
    let sb := marshalDataZstd z (firstItem.drop cpLen) suffixes compressLevel
    -- It is also cheaper if the data does not shrink much.
    if F64.lt (F64.mul (.ofRat (9 / 10)) (.ofRat size)) (.ofRat sb.itemsData.length) then
      .ok ⟨marshalDataPlain suffixes, firstItem, ib.commonPrefix, itemsCount, .plain⟩
    else .ok ⟨sb, firstItem, ib.commonPrefix, itemsCount, .zstd⟩

/-- Sorts and marshals items. -/
def marshalUnsortedData (ib : InmemoryBlock) (compressLevel : ℤ) :
    Outcome (Marshaled × InmemoryBlock) := do
  let ib := ib.sortItems
  let m ← ib.marshalData z compressLevel
  .ok (m, ib)

/-- Marshals sorted items. -/
def marshalSortedData (ib : InmemoryBlock) (compressLevel : ℤ) :
    Outcome (Marshaled × InmemoryBlock) := do
  let ib := ib.updateCommonPrefixSorted
  let m ← ib.marshalData z compressLevel
  .ok (m, ib)

/-! ### Unmarshaling -/

/-- The hexadecimal digits of a string. -/
def hexEncode (data : Bytes) : String :=
  String.join (data.map fun b => String.ofList (Nat.toDigits 16 (b.toNat + 256)).tail)

/-- The items of a block for an error text, with marks where they are not sorted. -/
def debugItemsString (ib : InmemoryBlock) : String :=
  let lines := (([] : Bytes) :: ib.items).zip ib.items |>.mapIdx fun i (prevItem, item) =>
    let number := String.ofList (List.leftpad 5 '0' (Nat.toDigits 10 i))
    let hex := hexEncode item
    let mark :=
      if item < prevItem then "!!! the next item is smaller than the previous item !!!\n" else ""
    s!"{mark}{number} {hex}\n"
  String.join lines

/-- Reads `n` lengths. -/
def unmarshalLens : ℕ → Bytes → Except String (List UInt64)
  | 0, b =>
    if b = [] then .ok []
    else
      let len := b.length
      .error s!"unexpected tail left after lensData with len {len}"
  | n + 1, b =>
    if b.length < 8 then
      let len := b.length
      .error
        s!"too short tail for decoding len from lensData; got {len} bytes; want at least 8 bytes"
    else
      match unmarshalLens n (b.drop 8) with
      | .error err => .error err
      | .ok lens => .ok (unmarshalUint64 b :: lens)

/-- Reads the items of the given lengths, each behind the common prefix. -/
def unmarshalItemsPlain (commonPrefix : Bytes) : List UInt64 → Bytes → Except String (List Bytes)
  | [], b =>
    if b = [] then .ok []
    else
      let len := b.length
      .error s!"unexpected tail left after itemsData with len {len}"
  | itemLen :: lens, b =>
    let itemLen := itemLen.toNat
    if b.length < itemLen then
      let len := b.length
      .error
        s!"not enough data for decoding item from itemsData; want {itemLen} bytes; remained {len} bytes"
    else
      match unmarshalItemsPlain commonPrefix lens (b.drop itemLen) with
      | .error err => .error err
      | .ok items => .ok ((commonPrefix ++ b.take itemLen) :: items)

def unmarshalDataPlain (sb : StorageBlock) (firstItem commonPrefix : Bytes) (itemsCount : ℕ) :
    Except String (List Bytes) :=
  match unmarshalLens (itemsCount - 1) sb.lensData with
  | .error err => .error err
  | .ok lens =>
    let dataLen := firstItem.length + sb.itemsData.length + commonPrefix.length * (itemsCount - 1)
    match unmarshalItemsPlain commonPrefix lens sb.itemsData with
    | .error err => .error err
    | .ok items =>
      let len := ((firstItem :: items).map List.length).sum
      if len ≠ dataLen then .error s!"unexpected data len; got {len}; want {dataLen}"
      else .ok (firstItem :: items)

/-- The length of the first item without the common prefix is computed: a subtraction that panics if
the prefix is longer. -/
def assertStartsWith (firstItem commonPrefix : Bytes) : Outcome Unit :=
  Outcome.assert (commonPrefix.length ≤ firstItem.length) "attempt to subtract with overflow"

/-- The values with the given differences under exclusive or. -/
def xorSums (prev : UInt64) : List UInt64 → List UInt64
  | [] => []
  | x :: xs => (x ^^^ prev) :: xorSums (x ^^^ prev) xs

/-- Reads the items behind the item `prevItem`; `lens` are the lengths of the parts that are shared
with the item before, and the lengths of the items, without the common prefix. -/
def unmarshalItemsZstd (commonPrefix : Bytes) :
    Bytes → List (UInt64 × UInt64) → Bytes → Except String (List Bytes)
  | _, [], b =>
    if b = [] then .ok []
    else
      let len := b.length
      .error s!"unexpected tail left after itemsData with len {len}"
  | prevItem, (prefixLen, itemLen) :: lens, b =>
    if prefixLen > itemLen then
      .error s!"prefixLen={prefixLen} exceeds itemLen={itemLen}"
    else
      let suffixLen := (itemLen - prefixLen).toNat
      if b.length < suffixLen then
        let len := b.length
        .error
          s!"not enough data for decoding item from itemsData; want {suffixLen} bytes; remained {len} bytes"
      else if prefixLen.toNat > prevItem.length then
        let len := prevItem.length
        .error s!"prefixLen cannot exceed {len}; got {prefixLen}"
      else
        let item := prevItem.take prefixLen.toNat ++ b.take suffixLen
        match unmarshalItemsZstd commonPrefix item lens (b.drop suffixLen) with
        | .error err => .error err
        | .ok items => .ok ((commonPrefix ++ item) :: items)

def unmarshalDataZstd (sb : StorageBlock) (firstItem commonPrefix : Bytes) (itemsCount : ℕ) :
    Outcome (List Bytes) := do
  let bb ← (decompressZstd z [] sb.lensData).mapErr fun e => s!"cannot decompress lensData: {e}"
  let (xs, tail) ← (Outcome.ofExcept (unmarshalVarUint64s (itemsCount - 1) bb)).mapErr fun e =>
    s!"cannot unmarshal prefixLens from lensData: {e}"
  let prefixLens := xorSums 0 xs
  let (xs, tail) ← (Outcome.ofExcept (unmarshalVarUint64s (itemsCount - 1) tail)).mapErr fun e =>
    s!"cannot unmarshal lens from lensData: {e}"
  if tail ≠ [] then
    let size := tail.length
    .err s!"unexpected tail left unmarshaling {itemsCount} lens; tail size={size}"
  else
    assertStartsWith firstItem commonPrefix
    let firstLen := firstItem.length - commonPrefix.length
    let lens := xorSums (UInt64.ofNat firstLen) xs
    let dataLen := commonPrefix.length * itemsCount + firstLen + (lens.map UInt64.toNat).sum
    let bb ← (decompressZstd z [] sb.itemsData).mapErr fun e => s!"cannot decompress itemsData: {e}"
    let items ← Outcome.ofExcept (unmarshalItemsZstd commonPrefix
      (firstItem.drop commonPrefix.length) (prefixLens.zip lens) bb)
    let len := ((firstItem :: items).map List.length).sum
    if len ≠ dataLen then .err s!"unexpected data len; got {len}; want {dataLen}"
    else .ok (firstItem :: items)

/-- Reads a stored block. -/
def unmarshalData (m : Marshaled) : Outcome InmemoryBlock := do
  Outcome.assert (m.itemsCount > 0) "BUG: cannot unmarshal zero items"
  match m.marshalType with
  | .plain =>
    assertStartsWith m.firstItem m.commonPrefix
    let items ← (Outcome.ofExcept (unmarshalDataPlain m.sb m.firstItem m.commonPrefix
      m.itemsCount.toNat)).mapErr fun e => s!"cannot unmarshal plain data: {e}"
    let ib : InmemoryBlock := ⟨m.commonPrefix, items⟩
    if ib.isSorted then .ok ib
    else
      let text := ib.debugItemsString
      .err s!"plain data block contains unsorted items; items:\n{text}"
  | .zstd =>
    let items ← unmarshalDataZstd z m.sb m.firstItem m.commonPrefix m.itemsCount.toNat
    let ib : InmemoryBlock := ⟨m.commonPrefix, items⟩
    if ib.isSorted then .ok ib
    else
      let text := ib.debugItemsString
      .err s!"decoded data block contains unsorted items; items:\n{text}"

/-! ### Sorting -/

theorem itemsSorted_iff (items : List Bytes) : itemsSorted items = true ↔
    items.Pairwise (· ≤ ·) := by
  induction items with
  | nil => simp [itemsSorted]
  | cons a items ih =>
    cases items with
    | nil => simp [itemsSorted]
    | cons b items =>
      rw [itemsSorted, Bool.and_eq_true, decide_eq_true_iff, ih]
      constructor
      · rintro ⟨hab, hrest⟩
        refine pairwise_cons.mpr ⟨fun c hc => ?_, hrest⟩
        rcases mem_cons.mp hc with rfl | hc
        · exact hab
        · exact hab.trans ((pairwise_cons.mp hrest).1 c hc)
      · intro h
        obtain ⟨ha, hrest⟩ := pairwise_cons.mp h
        exact ⟨ha b mem_cons_self, hrest⟩

/-- Sorting by what is behind a common prefix. -/
theorem pairwise_sortByKey_drop {p : Bytes} {items : List Bytes} (hp : ∀ item ∈ items, p <+: item) :
    (sortByKey (List.drop p.length) items).Pairwise (· ≤ ·) := by
  have hperm := sortByKey_perm (List.drop p.length) items
  refine (pairwise_sortByKey (List.drop p.length) items).imp_of_mem fun {a b} ha hb hab => ?_
  obtain ⟨a', rfl⟩ := hp a (hperm.mem_iff.mp ha)
  obtain ⟨b', rfl⟩ := hp b (hperm.mem_iff.mp hb)
  rw [drop_left, drop_left] at hab
  exact (append_le_append_iff p).mpr hab

/-- What is left of a prefix is the longest prefix of it and the items. -/
theorem isLongestCommonPrefix_shrink (cp : Bytes) (items : List Bytes) :
    IsLongestCommonPrefix (shrinkCommonPrefix cp items) (cp :: items) := by
  induction items generalizing cp with
  | nil => exact ⟨by simp [shrinkCommonPrefix], fun q hq => hq cp (by simp)⟩
  | cons item items ih =>
    have hstep : ∀ cp' : Bytes, cp' <+: cp → cp' <+: item →
        (∀ q : Bytes, q <+: cp → q <+: item → q <+: cp') →
        IsLongestCommonPrefix (shrinkCommonPrefix cp' items) (cp :: item :: items) := by
      intro cp' hcp hitem hlongest
      obtain ⟨hmem, hmax⟩ := ih cp'
      have hcp' := hmem cp' mem_cons_self
      refine ⟨fun l hl => ?_, fun q hq => hmax q fun l hl => ?_⟩
      · rcases mem_cons.mp hl with rfl | hl
        · exact hcp'.trans hcp
        · rcases mem_cons.mp hl with rfl | hl
          · exact hcp'.trans hitem
          · exact hmem l (mem_cons_of_mem _ hl)
      · rcases mem_cons.mp hl with rfl | hl
        · exact hlongest q (hq cp (by simp)) (hq item (by simp))
        · exact hq l (by simp [hl])
    simp only [shrinkCommonPrefix]
    split_ifs with hprefix hzero
    · rw [List.isPrefixOf_iff_prefix] at hprefix
      exact hstep cp (prefix_refl cp) hprefix fun q hq _ => hq
    · refine ⟨fun l _ => nil_prefix, fun q hq => ?_⟩
      have hle := le_commonPrefixLen (hq cp (by simp)) (hq item (by simp))
      rw [hzero, Nat.le_zero, length_eq_zero_iff] at hle
      rw [hle]
    · refine hstep _ (List.take_prefix _ _) ?_ fun q => isPrefix_take_commonPrefixLen
      rw [← take_commonPrefixLen]
      exact take_prefix _ _

/-- A block whose items are sorted and start with its common prefix. -/
structure Ready (ib : InmemoryBlock) : Prop where
  sorted : ib.items.Pairwise (· ≤ ·)
  isPrefix : ∀ item ∈ ib.items, ib.commonPrefix <+: item

/-- The common prefix of sorted items. -/
theorem updateCommonPrefixSorted_spec {ib : InmemoryBlock} (h : ib.items.Pairwise (· ≤ ·)) :
    ib.updateCommonPrefixSorted.items = ib.items ∧ ib.updateCommonPrefixSorted.Ready ∧
      (ib.items.length ≤ 1 → ib.updateCommonPrefixSorted.commonPrefix = []) ∧
      (1 < ib.items.length →
        IsLongestCommonPrefix ib.updateCommonPrefixSorted.commonPrefix ib.items) := by
  obtain ⟨cp, items⟩ := ib
  match items, h with
  | [], _ => exact ⟨rfl, ⟨Pairwise.nil, by simp [updateCommonPrefixSorted]⟩, fun _ => rfl,
      fun hlen => absurd hlen (by simp)⟩
  | [item], _ => exact ⟨rfl, ⟨pairwise_singleton _ _, by simp [updateCommonPrefixSorted]⟩,
      fun _ => rfl, fun hlen => absurd hlen (by simp)⟩
  | first :: second :: items, h =>
    have hlongest : IsLongestCommonPrefix (first.take (commonPrefixLen first
        ((second :: items).getLast (cons_ne_nil _ _)))) (first :: second :: items) := by
      refine isLongestCommonPrefix_of_sorted rfl ?_ h
      rw [getLast?_cons_cons, getLast?_eq_getLast_of_ne_nil (cons_ne_nil _ _)]
    exact ⟨rfl, ⟨h, hlongest.1⟩, fun hlen => absurd hlen (by simp), fun _ => hlongest⟩

/-- Sorting a block. -/
theorem sortItems_spec (ib : InmemoryBlock) :
    ib.sortItems.items.Perm ib.items ∧ ib.sortItems.Ready ∧
      (ib.items.length ≤ 1 → ib.sortItems.commonPrefix = []) ∧
      (1 < ib.items.length → IsLongestCommonPrefix ib.sortItems.commonPrefix ib.items) := by
  rw [sortItems]
  split_ifs with hsorted
  · obtain ⟨hitems, hready, hone, hmany⟩ :=
      updateCommonPrefixSorted_spec ((itemsSorted_iff _).mp hsorted)
    exact ⟨hitems ▸ Perm.refl _, hready, hone, hmany⟩
  · obtain ⟨cp, items⟩ := ib
    match items, hsorted with
    | first :: second :: items, _ =>
      have hlongest := isLongestCommonPrefix_shrink first (second :: items)
      refine ⟨sortByKey_perm _ _, ⟨pairwise_sortByKey_drop hlongest.1, fun item hitem => ?_⟩,
        fun hlen => absurd hlen (by simp), fun _ => hlongest⟩
      exact hlongest.1 item ((sortByKey_perm _ _).mem_iff.mp hitem)

/-! ### Round trip -/

section RoundTrip

theorem foldl_marshalUint64 (suffixes : List Bytes) (dst : Bytes) :
    suffixes.foldl (fun dst item => marshalUint64 dst (UInt64.ofNat item.length)) dst =
      dst ++ suffixes.flatMap fun item => marshalUint64 [] (UInt64.ofNat item.length) := by
  induction suffixes generalizing dst with
  | nil => simp
  | cons item suffixes ih =>
    rw [foldl_cons, ih, flatMap_cons, marshalUint64, marshalUint64, append_assoc,
      nil_append]

theorem unmarshalLens_eq (us : List UInt64) :
    unmarshalLens us.length (us.flatMap (marshalUint64 [])) = .ok us := by
  induction us with
  | nil => rfl
  | cons u us ih =>
    have hlen : ¬ (marshalUint64 [] u ++ us.flatMap (marshalUint64 [])).length < 8 := by
      rw [length_append, marshalUint64, nil_append, length_beBytes]
      omega
    rw [length_cons, flatMap_cons, unmarshalLens, if_neg hlen, drop_marshalUint64, ih,
      unmarshalUint64_marshalUint64]

/-- The lengths of the items. -/
def lensOf (suffixes : List Bytes) : List UInt64 := suffixes.map fun item =>
  UInt64.ofNat item.length

theorem toNat_ofNat_length {item : Bytes} (h : item.length < 2 ^ 64) :
    (UInt64.ofNat item.length).toNat = item.length := by
  rw [UInt64.toNat_ofNat']
  exact Nat.mod_eq_of_lt h

theorem unmarshalItemsPlain_eq (cp : Bytes) {suffixes : List Bytes}
    (h : ∀ item ∈ suffixes, item.length < 2 ^ 64) :
    unmarshalItemsPlain cp (lensOf suffixes) suffixes.flatten = .ok (suffixes.map (cp ++ ·)) := by
  induction suffixes with
  | nil => rfl
  | cons item suffixes ih =>
    have hitem := toNat_ofNat_length (h item mem_cons_self)
    have hlen : ¬ (item ++ suffixes.flatten).length < item.length := by
      rw [length_append]
      omega
    have hrest := ih fun item hitem => h item (mem_cons_of_mem _ hitem)
    change unmarshalItemsPlain cp (UInt64.ofNat item.length :: lensOf suffixes)
      (item ++ suffixes.flatten) = _
    simp only [unmarshalItemsPlain, hitem, if_neg hlen, drop_left, hrest, take_left,
      map_cons]

/-- The lengths of the parts that items share with the item before them. -/
def sharedLens (prevItem : Bytes) : List Bytes → List UInt64
  | [] => []
  | item :: items => UInt64.ofNat (commonPrefixLen prevItem item) :: sharedLens item items

theorem xor_xor_cancel (a b : UInt64) : (a ^^^ b) ^^^ b = a := by
  rw [UInt64.xor_assoc, UInt64.xor_self, UInt64.xor_zero]

theorem xorSums_prefixDeltas (prevItem : Bytes) (prev : UInt64) (items : List Bytes) :
    xorSums prev (prefixDeltas prevItem prev items).2 = sharedLens prevItem items := by
  induction items generalizing prevItem prev with
  | nil => rfl
  | cons item items ih => simp only [prefixDeltas, xorSums, xor_xor_cancel, ih, sharedLens]

theorem xorSums_lenDeltas (prev : UInt64) (items : List Bytes) :
    xorSums prev (lenDeltas prev items) = lensOf items := by
  induction items generalizing prev with
  | nil => rfl
  | cons item items ih =>
    simp only [lenDeltas, xorSums, xor_xor_cancel, ih]
    rfl

theorem length_prefixDeltas (prevItem : Bytes) (prev : UInt64) (items : List Bytes) :
    (prefixDeltas prevItem prev items).2.length = items.length := by
  induction items generalizing prevItem prev with
  | nil => rfl
  | cons item items ih => simp only [prefixDeltas, length_cons, ih]

theorem length_lenDeltas (prev : UInt64) (items : List Bytes) :
    (lenDeltas prev items).length = items.length := by
  induction items generalizing prev with
  | nil => rfl
  | cons item items ih => simp only [lenDeltas, length_cons, ih]

theorem unmarshalItemsZstd_eq (cp prevItem : Bytes) (prev : UInt64) {items : List Bytes}
    (h : ∀ item ∈ items, item.length < 2 ^ 64) :
    unmarshalItemsZstd cp prevItem ((sharedLens prevItem items).zip (lensOf items))
      (prefixDeltas prevItem prev items).1 = .ok (items.map (cp ++ ·)) := by
  induction items generalizing prevItem prev with
  | nil => rfl
  | cons item items ih =>
    have hitem := h item mem_cons_self
    have hlen := toNat_ofNat_length hitem
    have hle := commonPrefixLen_le_right prevItem item
    have hshared : (UInt64.ofNat (commonPrefixLen prevItem item)).toNat =
        commonPrefixLen prevItem item := by
      rw [UInt64.toNat_ofNat']
      exact Nat.mod_eq_of_lt (by omega)
    have hnot : ¬ UInt64.ofNat (commonPrefixLen prevItem item) > UInt64.ofNat item.length := by
      rw [gt_iff_lt, UInt64.lt_iff_toNat_lt, hlen, hshared]
      omega
    have hsub : (UInt64.ofNat item.length - UInt64.ofNat (commonPrefixLen prevItem item)).toNat =
        (item.drop (commonPrefixLen prevItem item)).length := by
      rw [UInt64.toNat_sub_of_le _ _ (UInt64.not_lt.mp hnot), hlen, hshared, length_drop]
    have hprev : ¬ commonPrefixLen prevItem item > prevItem.length :=
      Nat.not_lt.mpr (commonPrefixLen_le_left prevItem item)
    have hrest := ih item (UInt64.ofNat (commonPrefixLen prevItem item))
      fun item hitem => h item (mem_cons_of_mem _ hitem)
    change unmarshalItemsZstd cp prevItem ((UInt64.ofNat (commonPrefixLen prevItem item),
      UInt64.ofNat item.length) :: (sharedLens item items).zip (lensOf items))
      (item.drop (commonPrefixLen prevItem item) ++
        (prefixDeltas item (UInt64.ofNat (commonPrefixLen prevItem item)) items).1) = _
    rw [unmarshalItemsZstd, if_neg hnot]
    simp only [hsub, hshared, length_append, take_left, drop_left,
      take_append_drop_commonPrefixLen, hrest, if_neg hprev, map_cons]
    rw [if_neg (by omega)]

/-- The size of items from the sizes behind a common prefix. -/
theorem sum_length_map_append (cp : Bytes) (suffixes : List Bytes) :
    ((suffixes.map (cp ++ ·)).map List.length).sum =
      cp.length * suffixes.length + (suffixes.map List.length).sum := by
  induction suffixes with
  | nil => simp
  | cons item suffixes ih =>
    rw [map_cons, map_cons, sum_cons, ih, length_append, length_cons,
      map_cons, sum_cons]
    ring

variable {z : Zstd} {firstItem cp : Bytes} {suffixes : List Bytes}

/-- The plain encoding is read back. -/
theorem unmarshalDataPlain_eq (h : ∀ item ∈ suffixes, item.length < 2 ^ 64) :
    unmarshalDataPlain (marshalDataPlain suffixes) firstItem cp (suffixes.length + 1) =
      .ok (firstItem :: suffixes.map (cp ++ ·)) := by
  have hlens : unmarshalLens suffixes.length (marshalDataPlain suffixes).lensData =
      .ok (lensOf suffixes) := by
    have hflat := unmarshalLens_eq (lensOf suffixes)
    rw [lensOf, length_map, flatMap_map] at hflat
    rw [marshalDataPlain, foldl_marshalUint64, nil_append]
    exact hflat
  have hsize : ¬ ((firstItem :: suffixes.map (cp ++ ·)).map List.length).sum ≠
      firstItem.length + suffixes.flatten.length + cp.length * suffixes.length := by
    rw [map_cons, sum_cons, sum_length_map_append, length_flatten, not_not]
    ring
  simp only [unmarshalDataPlain, Nat.add_sub_cancel, hlens]
  change (match unmarshalItemsPlain cp (lensOf suffixes) suffixes.flatten with
    | .error err => _
    | .ok items => _) = _
  simp only [unmarshalItemsPlain_eq cp h, marshalDataPlain]
  exact if_neg hsize

/-- The compressed encoding is read back. -/
theorem unmarshalDataZstd_eq (hz : z.RoundTrips) {firstSuffix : Bytes} (compressLevel : ℤ)
    (h : ∀ item ∈ suffixes, item.length < 2 ^ 64) :
    unmarshalDataZstd z (marshalDataZstd z firstSuffix suffixes compressLevel)
    (cp ++ firstSuffix) cp
      (suffixes.length + 1) = .ok ((cp ++ firstSuffix) :: suffixes.map (cp ++ ·)) := by
  have hprefix := unmarshalVarUint64s_varUints (prefixDeltas firstSuffix 0 suffixes).2
    (varUints (lenDeltas (UInt64.ofNat firstSuffix.length) suffixes))
  have hlens := unmarshalVarUint64s_varUints (lenDeltas (UInt64.ofNat firstSuffix.length) suffixes)
    []
  rw [length_prefixDeltas] at hprefix
  rw [length_lenDeltas, append_nil] at hlens
  have hfirst : (cp ++ firstSuffix).length - cp.length = firstSuffix.length := by
    rw [length_append, Nat.add_sub_cancel_left]
  have hassert : assertStartsWith (cp ++ firstSuffix) cp = .ok () := by
    rw [assertStartsWith, Outcome.assert, if_pos]
    rw [length_append]
    exact Nat.le_add_right _ _
  have hlensNat : (lensOf suffixes).map UInt64.toNat = suffixes.map List.length := by
    rw [lensOf, map_map]
    exact map_congr_left fun item hitem => toNat_ofNat_length (h item hitem)
  have hsize : ¬ (((cp ++ firstSuffix) :: suffixes.map (cp ++ ·)).map List.length).sum ≠
      cp.length * (suffixes.length + 1) + firstSuffix.length + (suffixes.map List.length).sum := by
    rw [map_cons, sum_cons, sum_length_map_append, length_append, not_not]
    ring
  have hz' : ∀ (src : Bytes) (compressLevel : ℤ),
      decompressZstd z [] (compressZstdLevel z [] src compressLevel) = .ok src := hz
  have hnil : ¬ ([] : Bytes) ≠ [] := not_not.mpr rfl
  simp only [unmarshalDataZstd, marshalDataZstd, hz', Outcome.mapErr_ok, Outcome.ok_bind,
    marshalVarUint64s_eq, nil_append, Nat.add_sub_cancel, hprefix, hlens, Outcome.ofExcept_ok,
    if_neg hnil, hassert, hfirst, xorSums_prefixDeltas, xorSums_lenDeltas, drop_left,
    unmarshalItemsZstd_eq cp firstSuffix 0 h, hlensNat]
  exact if_neg hsize

variable {ib : InmemoryBlock}

/-- A block is read back from its stored form, whichever encoding is chosen. -/
theorem unmarshalData_marshalData (hz : z.RoundTrips) (hready : ib.Ready) (hne : ib.items ≠ [])
    (hcount : ib.items.length < 2 ^ 32) (hsize : ib.dataLen ≤ maxInmemoryBlockSize)
    (compressLevel : ℤ) : ∃ m, ib.marshalData z compressLevel = .ok m ∧ unmarshalData z m = .ok ib ∧
      ib.items.head? = some m.firstItem ∧ m.commonPrefix = ib.commonPrefix ∧
      m.itemsCount.toNat = ib.items.length := by
  obtain ⟨cp, items⟩ := ib
  obtain ⟨firstItem, rest, rfl⟩ := exists_cons_of_ne_nil hne
  simp only at hready hcount hsize
  obtain ⟨firstSuffix, hfirst⟩ : cp <+: firstItem := hready.isPrefix firstItem mem_cons_self
  subst hfirst
  set suffixes := rest.map (List.drop cp.length) with hsuffixes
  have hrest : suffixes.map (cp ++ ·) = rest := by
    rw [hsuffixes, map_map]
    refine (map_congr_left fun item hitem => ?_).trans (map_id rest)
    obtain ⟨suffix, rfl⟩ := hready.isPrefix item (mem_cons_of_mem _ hitem)
    simp
  have hlen : suffixes.length = rest.length := length_map _
  have hlens : ∀ item ∈ suffixes, item.length < 2 ^ 64 := by
    intro item hitem
    obtain ⟨item', hitem', rfl⟩ := mem_map.mp hitem
    have hle : item'.length ≤ maxInmemoryBlockSize := by
      refine le_trans ?_ hsize
      exact single_le_sum (by simp) _ (mem_map_of_mem (mem_cons_of_mem _ hitem'))
    rw [length_drop]
    rw [maxInmemoryBlockSize] at hle
    omega
  have hitemsCount : (UInt32.ofNat (rest.length + 1)).toNat = suffixes.length + 1 := by
    rw [UInt32.toNat_ofNat', hlen]
    exact Nat.mod_eq_of_lt hcount
  have hpos : UInt32.ofNat (rest.length + 1) > 0 := by
    rw [gt_iff_lt, UInt32.lt_iff_toNat_lt, hitemsCount]
    exact Nat.succ_pos _
  have hsorted : isSorted ⟨cp, (cp ++ firstSuffix) :: rest⟩ = true :=
    (itemsSorted_iff _).mpr hready.sorted
  have hassert : assertStartsWith (cp ++ firstSuffix) cp = .ok () := by
    rw [assertStartsWith, Outcome.assert, if_pos]
    rw [length_append]
    exact Nat.le_add_right _ _
  -- Both encodings of the block are read back.
  have hplain : unmarshalData z ⟨marshalDataPlain suffixes, cp ++ firstSuffix, cp,
      UInt32.ofNat (rest.length + 1), .plain⟩ = .ok ⟨cp, (cp ++ firstSuffix) :: rest⟩ := by
    simp only [unmarshalData, Outcome.assert, if_pos hpos, Outcome.ok_bind, hassert, hitemsCount,
      unmarshalDataPlain_eq hlens, Outcome.ofExcept_ok, Outcome.mapErr_ok, hrest, hsorted, if_true]
  have hzstd : unmarshalData z ⟨marshalDataZstd z firstSuffix suffixes compressLevel,
      cp ++ firstSuffix,
      cp, UInt32.ofNat (rest.length + 1), .zstd⟩ = .ok ⟨cp, (cp ++ firstSuffix) :: rest⟩ := by
    simp only [unmarshalData, Outcome.assert, if_pos hpos, Outcome.ok_bind, hitemsCount,
      unmarshalDataZstd_eq hz compressLevel hlens, hrest, hsorted, if_true]
  have hcount' : rest.length + 1 < 2 ^ 32 := hcount
  simp only [marshalData, Outcome.assert, if_pos hne, length_cons, if_pos hcount',
    Outcome.ok_bind, head?_cons, Outcome.index_some, tail_cons, drop_left]
  rw [hlen] at hitemsCount
  split_ifs
  · exact ⟨_, rfl, hplain, rfl, rfl, hitemsCount⟩
  · exact ⟨_, rfl, hplain, rfl, rfl, hitemsCount⟩
  · exact ⟨_, rfl, hzstd, rfl, rfl, hitemsCount⟩

/-- **The round trip of a block.** Items of at most 64 KiB in all, fewer than 2³² of them, are read
back sorted from their stored form. The first item is the smallest one, and the common prefix is the
longest one of the items, but empty for a single item. -/
theorem unmarshalData_marshalUnsortedData (hz : z.RoundTrips) (ib : InmemoryBlock)
    (hne : ib.items ≠ []) (hcount : ib.items.length < 2 ^ 32)
    (hsize : ib.dataLen ≤ maxInmemoryBlockSize) (compressLevel : ℤ) :
    ∃ m ib', ib.marshalUnsortedData z compressLevel = .ok (m, ib') ∧
      unmarshalData z m = .ok ⟨m.commonPrefix, sortByKey id ib.items⟩ ∧
      (m.firstItem ∈ ib.items ∧ ∀ item ∈ ib.items, m.firstItem ≤ item) ∧
      (if ib.items.length = 1 then m.commonPrefix = []
        else IsLongestCommonPrefix m.commonPrefix ib.items) := by
  obtain ⟨hperm, hready, hone, hmany⟩ := sortItems_spec ib
  have hne' : ib.sortItems.items ≠ [] := fun h => hne (perm_nil.mp (h ▸ hperm.symm))
  have hsize' : ib.sortItems.dataLen ≤ maxInmemoryBlockSize := by
    rw [dataLen, (hperm.map List.length).sum_eq]
    exact hsize
  obtain ⟨m, hm, hread, hhead, hcp, -⟩ := unmarshalData_marshalData hz hready hne'
    (hperm.length_eq ▸ hcount) hsize' compressLevel
  refine ⟨m, ib.sortItems, ?_, ?_, ⟨?_, ?_⟩, ?_⟩
  · rw [marshalUnsortedData, hm]
    rfl
  · have hitems : ib.sortItems.items = sortByKey id ib.items :=
      (hperm.trans (sortByKey_perm id ib.items).symm).eq_of_pairwise
        (fun _ _ _ _ => le_antisymm) hready.sorted (pairwise_sortByKey id ib.items)
    rw [hread, hcp, ← hitems]
  · exact hperm.mem_iff.mp (mem_of_head? hhead)
  · intro item hitem
    obtain ⟨items, hitems⟩ := head?_eq_some_iff.mp hhead
    have hsorted := hready.sorted
    have hmem := hperm.mem_iff.mpr hitem
    rw [hitems] at hsorted hmem
    rcases mem_cons.mp hmem with rfl | hmem
    · exact le_rfl
    · exact (pairwise_cons.mp hsorted).1 item hmem
  · rw [hcp]
    split_ifs with hlen
    · exact hone hlen.le
    · have hpos := length_pos_iff.mpr hne
      exact hmany (by omega)

/-- Two items with a common prefix, in the wrong order. -/
theorem unmarshalData_marshalUnsortedData_two :
    ∃ m ib', marshalUnsortedData Zstd.stored ⟨[], [[1, 3], [1, 2]]⟩ 1 = .ok (m, ib') ∧
      unmarshalData Zstd.stored m = .ok ⟨m.commonPrefix, [[1, 2], [1, 3]]⟩ := by
  obtain ⟨m, ib', hm, hread, -⟩ := unmarshalData_marshalUnsortedData Zstd.roundTrips_stored
    ⟨[], [[1, 3], [1, 2]]⟩ (by decide) (by decide) (by decide) 1
  exact ⟨m, ib', hm, hread⟩

/-- Too many items for their count. -/
theorem panics_marshalData (compressLevel : ℤ) (h : 2 ^ 32 ≤ ib.items.length) :
    (ib.marshalData z compressLevel).Panics := by
  have hne : ib.items ≠ [] := by
    intro hnil
    rw [hnil] at h
    exact absurd h (by decide)
  rw [marshalData, Outcome.assert, if_pos hne, Outcome.ok_bind, Outcome.assert,
    if_neg (Nat.not_lt.mpr h)]
  exact ⟨_, rfl⟩

theorem panics_marshalUnsortedData (compressLevel : ℤ) (h : 2 ^ 32 ≤ ib.items.length) :
    (ib.marshalUnsortedData z compressLevel).Panics := by
  rw [← (sortItems_spec ib).1.length_eq] at h
  obtain ⟨msg, hmsg⟩ := panics_marshalData (z := z) compressLevel h
  rw [marshalUnsortedData, hmsg]
  exact ⟨msg, rfl⟩

/-- A single item has an empty common prefix, and 2³² empty items are too many. -/
theorem marshalUnsortedData_one_and_too_many :
    (∃ m ib', marshalUnsortedData Zstd.stored ⟨[], [[97]]⟩ 1 = .ok (m, ib') ∧
      ¬ IsLongestCommonPrefix m.commonPrefix [[97]]) ∧
    (dataLen ⟨[], List.replicate (2 ^ 32) []⟩ ≤ maxInmemoryBlockSize ∧
      (marshalUnsortedData Zstd.stored ⟨[], List.replicate (2 ^ 32) []⟩ 1).Panics) := by
  refine ⟨?_, ?_, ?_⟩
  · refine ⟨_, _, rfl, fun h => ?_⟩
    have hprefix := h.2 [97] (by simp)
    exact absurd hprefix (by decide)
  · rw [dataLen, map_replicate, sum_replicate]
    exact Nat.zero_le _
  · refine panics_marshalUnsortedData _ ?_
    rw [length_replicate]

end RoundTrip

end InmemoryBlock

end Esmetrics.Mergeset
