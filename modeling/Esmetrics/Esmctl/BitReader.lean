import Esmetrics.Esmctl.Bstream
import Esmetrics.Lib.Outcome

/-!
# Runs of the bit reader

The calls of `BstreamReader` of `esmctl/src/chunkenc.rs`, one after the other, with the states that
failing calls leave and with the arithmetic of either build: an operation that goes out of range
wraps in the release build and panics where overflow checks are compiled in (`Overflow`).

The plain reader has the slice as a list of bits (`Call.plain`). The buffered one agrees with it
call by call as long as no call overruns (`Overruns`): one that starts in the buffer, goes on in
bytes that were not loaded yet, and asks for more bits than there are. There `load_next_buffer`
gives fewer bits than are missing, and what follows takes them as if they were enough.
`exact_iff_avoidsOverruns` is the whole run.
-/

namespace Esmetrics.Esmctl

open List Option Outcome

/-- What an operation does whose result is out of range. -/
inductive Overflow
  | wraps
  | panics
deriving DecidableEq, Repr

namespace Overflow

variable {α : Type} [Sub α] [LT α] [DecidableLT α]

/-- The difference, for the unsigned types. -/
def sub (mode : Overflow) (a b : α) : Outcome α :=
  if mode = .panics ∧ a < b then .panic "attempt to subtract with overflow" else .ok (a - b)

def shl (mode : Overflow) (x n : UInt64) : Outcome UInt64 :=
  if mode = .panics ∧ 64 ≤ n.toNat then .panic "attempt to shift left with overflow"
    else .ok (x <<< n)

def shr (mode : Overflow) (x n : UInt64) : Outcome UInt64 :=
  if mode = .panics ∧ 64 ≤ n.toNat then .panic "attempt to shift right with overflow"
    else .ok (x >>> n)

/-- The mask of the low `n` bits, `(1u64 << n) - 1`. -/
def lowMask (mode : Overflow) (n : UInt8) : Outcome UInt64 := do
  let one ← mode.shl 1 n.toUInt64
  mode.sub one 1

variable (mode : Overflow)

theorem sub_of_not_lt {a b : α} (h : ¬ a < b) : mode.sub a b = .ok (a - b) :=
  if_neg fun hlt => h hlt.2

theorem shl_of_lt (x : UInt64) {n : UInt64} (h : n.toNat < 64) : mode.shl x n = .ok (x <<< n) :=
  if_neg fun hge => absurd h (Nat.not_lt.mpr hge.2)

theorem shr_of_lt (x : UInt64) {n : UInt64} (h : n.toNat < 64) : mode.shr x n = .ok (x >>> n) :=
  if_neg fun hge => absurd h (Nat.not_lt.mpr hge.2)

theorem sub_wraps (a b : α) : wraps.sub a b = .ok (a - b) := if_neg fun h => nomatch h.1

theorem shl_wraps (x n : UInt64) : wraps.shl x n = .ok (x <<< n) := if_neg fun h => nomatch h.1

theorem shr_wraps (x n : UInt64) : wraps.shr x n = .ok (x >>> n) := if_neg fun h => nomatch h.1

theorem lowMask_wraps (n : UInt8) : wraps.lowMask n = .ok (1 <<< n.toUInt64 - 1) := rfl

theorem sub_panics {a b : α} (h : a < b) : panics.sub a b =
    .panic "attempt to subtract with overflow" :=
  if_pos ⟨rfl, h⟩

theorem lowMask_of_lt {n : UInt8} (h : n.toNat < 64) :
    mode.lowMask n = .ok (1 <<< n.toUInt64 - 1) := by
  have hpow : 2 ^ n.toNat < 2 ^ 64 := Nat.pow_lt_pow_right (by omega) h
  rw [lowMask, mode.shl_of_lt 1 (by rwa [UInt8.toNat_toUInt64]), ok_bind, mode.sub_of_not_lt]
  rw [UInt64.lt_iff_toNat_lt, UInt64.toNat_shiftLeft, BstreamReader.toNat_toUInt64_mod h,
    UInt64.toNat_one, Nat.one_shiftLeft, Nat.mod_eq_of_lt hpow]
  exact Nat.not_lt.mpr Nat.one_le_two_pow

end Overflow

namespace BstreamReader

/-! ### The calls with their arithmetic -/

/-- The loop of `load_next_buffer` over the first `n` of the `nbytes` bytes that it takes. -/
def assembleWith (mode : Overflow) (r : BstreamReader) (nbytes : ℕ) (buffer : UInt64) :
    ℕ → Outcome UInt64
  | 0 => .ok buffer
  | i + 1 => do
    let buffer ← assembleWith mode r nbytes buffer i
    let byte ← Outcome.index r.stream[r.streamOffset + i]?
    let left ← mode.sub nbytes i
    let left ← mode.sub left 1
    let byte ← mode.shl byte.toUInt64 (UInt64.ofNat (8 * left))
    .ok (buffer ||| byte)

def loadWith (mode : Overflow) (r : BstreamReader) (nbits : UInt8) :
    Outcome (Bool × BstreamReader) :=
  if r.streamOffset ≥ r.stream.length then .ok (false, r)
  else if r.streamOffset + 8 < r.stream.length then
    let bytes := (r.stream.drop r.streamOffset).take 8
    .ok (true, { r with
      buffer := UInt64.ofNat (beNat bytes), streamOffset := r.streamOffset + 8, valid := 64 })
  else do
    let nbytes := (nbits / 8 + 1).toNat
    let nbytes ←
      (if r.streamOffset + nbytes > r.stream.length then mode.sub r.stream.length r.streamOffset
        else .ok nbytes)
    -- the last byte may be written concurrently upstream, the copy of it is used
    let (buffer, skip) :=
      if r.streamOffset + nbytes = r.stream.length then (r.last.toUInt64, 1) else (0, 0)
    let n ← mode.sub nbytes skip
    let buffer ← r.assembleWith mode nbytes buffer n
    .ok (true, { r with
      buffer := buffer
      streamOffset := r.streamOffset + nbytes
      valid := UInt8.ofNat (nbytes * 8) })

/-- Loads a buffer when there is nothing left in the current one. -/
def ensureWith (mode : Overflow) (r : BstreamReader) (nbits : UInt8) :
    Outcome (Bool × BstreamReader) :=
  if r.valid = 0 then r.loadWith mode nbits else .ok (true, r)

def readBitWith (mode : Overflow) (r : BstreamReader) : Outcome (Option Bool × BstreamReader) := do
  let (loaded, r) ← r.ensureWith mode 1
  if !loaded then .ok (none, r)
  else if r.valid = 0 then .ok (none, r)
  else do
    let valid ← mode.sub r.valid 1
    let one ← mode.shl 1 valid.toUInt64
    .ok (some (decide (r.buffer &&& one ≠ 0)), { r with valid := valid })

def readBitsFastWith (mode : Overflow) (r : BstreamReader) (nbits : UInt8) :
    Outcome (Option UInt64 × BstreamReader) :=
  if nbits > r.valid then .ok (none, r)
  else do
    let bitmask ← (if nbits ≥ 64 then .ok (-1) else mode.lowMask nbits)
    let valid ← mode.sub r.valid nbits
    let v ← mode.shr r.buffer valid.toUInt64
    .ok (some (v &&& bitmask), { r with valid := valid })

/-- The remaining valid bits, then part of the next buffer. -/
def readAcrossWith (mode : Overflow) (r : BstreamReader) (nbits : UInt8) :
    Outcome (Option UInt64 × BstreamReader) := do
  let bitmask ← mode.lowMask r.valid
  let nbits ← mode.sub nbits r.valid
  let v ← mode.shl (r.buffer &&& bitmask) nbits.toUInt64
  let (loaded, r) ← { r with valid := 0 }.loadWith mode nbits
  if !loaded then .ok (none, r)
  else do
    let bitmask2 ← mode.lowMask nbits
    let behind ← mode.sub r.valid nbits
    let low ← mode.shr r.buffer behind.toUInt64
    let valid ← mode.sub r.valid nbits
    .ok (some (v ||| low &&& bitmask2), { r with valid := valid })

def readBitsWith (mode : Overflow) (r : BstreamReader) (nbits : UInt8) :
    Outcome (Option UInt64 × BstreamReader) := do
  let (loaded, r) ← r.ensureWith mode nbits
  if !loaded then .ok (none, r)
  else if nbits ≤ r.valid then r.readBitsFastWith mode nbits
  else r.readAcrossWith mode nbits

def readByteWith (mode : Overflow) (r : BstreamReader) :
    Outcome (Option UInt8 × BstreamReader) := do
  let (v, r) ← r.readBitsWith mode 8
  .ok (v.map UInt64.toUInt8, r)

/-! ### Loading -/

variable {r r' : BstreamReader} {nbits : UInt8}

theorem assembleWith_eq (mode : Overflow) {nbytes n : ℕ} (buffer : UInt64) (hn : n ≤ nbytes)
    (hlen : r.streamOffset + n ≤ r.stream.length) (height : nbytes ≤ 8) :
    r.assembleWith mode nbytes buffer n =
    .ok (assemble (r.stream.drop r.streamOffset) nbytes buffer n) := by
  induction n with
  | zero => simp [assembleWith, assemble]
  | succ n ih =>
    have hbyte : r.stream[r.streamOffset + n]? =
        some ((r.stream.drop r.streamOffset).getD n 0) := by
      rw [getD_eq_getElem?_getD, getElem?_drop, getElem?_eq_getElem (by omega), getD_some]
    have hshift : (UInt64.ofNat (8 * (nbytes - n - 1))).toNat < 64 := by
      rw [UInt64.toNat_ofNat', Nat.mod_eq_of_lt (by omega)]
      omega
    rw [assembleWith, ih (by omega) (by omega), ok_bind, hbyte, index_some, ok_bind,
      mode.sub_of_not_lt (by omega), ok_bind, mode.sub_of_not_lt (by omega), ok_bind,
      mode.shl_of_lt _ hshift, ok_bind, assemble_succ]

/-- Nothing that `load_next_buffer` computes is out of range. -/
theorem loadWith_eq (mode : Overflow) (r : BstreamReader) (hn : nbits.toNat ≤ 64) :
    r.loadWith mode nbits = .ok (r.loadNextBuffer nbits) := by
  have hnbytes : (nbits / 8 + 1).toNat = nbits.toNat / 8 + 1 := by
    rw [UInt8.toNat_add, UInt8.toNat_div]
    change (nbits.toNat / 8 + 1) % 256 = _
    omega
  rw [loadWith, loadNextBuffer]
  split
  · rfl
  · next hlt =>
    split
    · rfl
    · next htail =>
      have hclamp : (if r.streamOffset + (nbits / 8 + 1).toNat > r.stream.length
          then mode.sub r.stream.length r.streamOffset else .ok (nbits / 8 + 1).toNat) =
          .ok (if r.streamOffset + (nbits / 8 + 1).toNat > r.stream.length
            then r.stream.length - r.streamOffset else (nbits / 8 + 1).toNat) := by
        rw [mode.sub_of_not_lt (by omega)]
        split <;> rfl
      obtain ⟨k, hk⟩ : ∃ k, k = if r.streamOffset + (nbits / 8 + 1).toNat > r.stream.length
          then r.stream.length - r.streamOffset else (nbits / 8 + 1).toNat := ⟨_, rfl⟩
      have hbounds : 0 < k ∧ k ≤ 8 ∧ r.streamOffset + k ≤ r.stream.length := by
        rw [hnbytes] at hk
        split at hk <;> omega
      simp only [hclamp, ← hk, ok_bind]
      split
      · rw [mode.sub_of_not_lt (by omega), ok_bind,
          assembleWith_eq mode _ (by omega) (by omega) hbounds.2.1, ok_bind]
      · rw [mode.sub_of_not_lt (by omega), ok_bind,
          assembleWith_eq mode _ (by omega) (by omega) hbounds.2.1, ok_bind]

theorem ensureWith_of_ensure (mode : Overflow) (hn : nbits.toNat ≤ 64)
    (h : r.ensure nbits = some r') :
    r.ensureWith mode nbits = .ok (true, r') := by
  rw [ensure] at h
  rw [ensureWith]
  split at h
  · next hzero =>
    rw [if_pos hzero, loadWith_eq mode r hn]
    generalize r.loadNextBuffer nbits = loading at h ⊢
    obtain ⟨loaded, r''⟩ := loading
    cases loaded with
    | true => rw [Option.some.inj h]
    | false => cases h
  · next hzero => rw [if_neg hzero, Option.some.inj h]

/-- There is nothing to load at the end. -/
theorem ensureWith_of_bits_eq_nil (mode : Overflow) (hn : nbits.toNat ≤ 64) (h : r.bits = []) :
    r.ensureWith mode nbits = .ok (false, r) := by
  rw [bits, append_eq_nil_iff] at h
  have hzero : r.valid = 0 := by
    have hlen := congrArg List.length h.1
    rw [length_bitsBE] at hlen
    exact UInt8.toNat_inj.mp hlen
  have hoffset : r.streamOffset ≥ r.stream.length := by
    have hlen := congrArg List.length h.2
    rw [length_byteBits, length_drop, length_nil] at hlen
    omega
  rw [ensureWith, if_pos hzero, loadWith_eq mode r hn, loadNextBuffer, if_pos hoffset]

/-! ### What the calls do -/

theorem readBitsFastWith_eq (mode : Overflow) {n : UInt8} (hr : r.Valid) (hpos : 0 < n.toNat)
    (hle : n.toNat ≤ r.valid.toNat) {v : UInt64} (h : r.readBitsFast n = some (v, r')) :
    r.readBitsFastWith mode n = .ok (some v, r') := by
  have hvalid := hr.valid_le
  have hnot : ¬ n > r.valid := by simpa [UInt8.lt_iff_toNat_lt] using hle
  have hsub : (r.valid - n).toUInt64.toNat < 64 := by
    rw [UInt8.toNat_toUInt64, toNat_valid_sub hle]
    omega
  rw [readBitsFast, if_neg hnot] at h
  obtain ⟨rfl, rfl⟩ := Prod.mk.inj (Option.some.inj h)
  rw [readBitsFastWith, if_neg hnot, mode.sub_of_not_lt hnot]
  by_cases h64 : n ≥ 64
  · rw [if_pos h64, if_pos h64, ok_bind, ok_bind, mode.shr_of_lt _ hsub, ok_bind]
  · have hn : n.toNat < 64 := UInt8.lt_iff_toNat_lt.mp (UInt8.not_le.mp h64)
    rw [if_neg h64, if_neg h64, mode.lowMask_of_lt hn, ok_bind, ok_bind, mode.shr_of_lt _ hsub,
      ok_bind]

/-- The high part of a read that goes on in the next buffer. -/
theorem readAcrossWith_eq (mode : Overflow) {n : UInt8} (hpos : 0 < r.valid.toNat)
    (hlt : r.valid.toNat < n.toNat) (hn : n.toNat ≤ 64) {loaded : Bool} {r2 : BstreamReader}
    (hload : ({ r with valid := 0 } : BstreamReader).loadNextBuffer (n - r.valid) = (loaded, r2)) :
    r.readAcrossWith mode n = if !loaded then .ok (none, r2) else (do
      let behind ← mode.sub r2.valid (n - r.valid)
      let low ← mode.shr r2.buffer behind.toUInt64
      let valid ← mode.sub r2.valid (n - r.valid)
      .ok (some ((r.buffer &&& (1 <<< r.valid.toUInt64 - 1)) <<< (n - r.valid).toUInt64 |||
        low &&& (1 <<< (n - r.valid).toUInt64 - 1)), { r2 with valid := valid })) := by
  have hsub : (n - r.valid).toNat = n.toNat - r.valid.toNat :=
    UInt8.toNat_sub_of_le _ _ (UInt8.le_iff_toNat_le.mpr hlt.le)
  have hnot : ¬ n < r.valid := by
    rw [UInt8.lt_iff_toNat_lt]
    omega
  have hm : (n - r.valid).toUInt64.toNat < 64 := by
    rw [UInt8.toNat_toUInt64]
    omega
  rw [readAcrossWith, mode.lowMask_of_lt (by omega), ok_bind, mode.sub_of_not_lt hnot, ok_bind,
    mode.shl_of_lt _ hm, ok_bind, loadWith_eq mode _ (by omega), ok_bind, hload,
    mode.lowMask_of_lt (by omega)]
  rfl

theorem length_bits (r : BstreamReader) :
    r.bits.length = r.valid.toNat + 8 * (r.stream.length - r.streamOffset) := by
  rw [bits, length_append, length_bitsBE, length_byteBits, length_drop]

theorem valid_drop_buffer (hr : r.Valid) : ({ r with valid := 0 } : BstreamReader).Valid :=
  ⟨Nat.zero_le _, hr.last_eq⟩

/-- The next buffer, for a read that the current one is too short for. -/
theorem exists_load_across {n : UInt8} (hr : r.Valid) (hlt : r.valid.toNat < n.toNat)
    (hn : n.toNat ≤ 64)
    (hoffset : r.streamOffset < r.stream.length) :
    ∃ r2, ({ r with valid := 0 } : BstreamReader).loadNextBuffer (n - r.valid) =
    (true, r2) ∧ r2.Valid ∧
      r.valid.toNat + r2.valid.toNat ≤ r.bits.length ∧
      (n.toNat - r.valid.toNat ≤ r2.valid.toNat ∨ r.valid.toNat + r2.valid.toNat =
        r.bits.length) := by
  have hsub : (n - r.valid).toNat = n.toNat - r.valid.toNat :=
    UInt8.toNat_sub_of_le _ _ (UInt8.le_iff_toNat_le.mpr hlt.le)
  have hlen : ({ r with valid := 0 } : BstreamReader).bits.length =
      8 * (r.stream.length - r.streamOffset) := by
    rw [length_bits, UInt8.toNat_zero, Nat.zero_add]
  have hne : ({ r with valid := 0 } : BstreamReader).bits ≠ [] := by
    rw [← length_pos_iff, hlen]
    omega
  have hm : (n - r.valid).toNat ≤ 64 := by omega
  obtain ⟨r2, hload, hr2, hbits2, -, henough⟩ :=
    bits_loadNextBuffer rfl hne (valid_drop_buffer hr) hm
  have hlen2 := congrArg List.length hbits2
  rw [hlen, length_bits] at hlen2
  refine ⟨r2, hload, hr2, ?_⟩
  rw [length_bits]
  omega

/-- A read of bits that are there is the same in either build. -/
theorem readBitsWith_of_readBits (mode : Overflow) {n : UInt8} {v : UInt64} (hr : r.Valid)
    (hpos : 0 < n.toNat)
    (hn : n.toNat ≤ 64) (hle : n.toNat ≤ r.bits.length) (h : r.readBits n = some (v, r')) :
    r.readBitsWith mode n = .ok (some v, r') := by
  have hne : r.bits ≠ [] := by
    rw [← length_pos_iff]
    omega
  obtain ⟨r1, hensure, hr1, hbits1, hpos1⟩ := exists_ensure hne hr hn
  rw [readBits, hensure, bind_eq_bind, bind_some] at h
  rw [readBitsWith, ensureWith_of_ensure mode hn hensure, ok_bind]
  by_cases hfast : n ≤ r1.valid
  · rw [if_pos hfast] at h
    simp only [Bool.not_true, Bool.false_eq_true, if_false, if_pos hfast]
    exact readBitsFastWith_eq mode hr1 hpos (UInt8.le_iff_toNat_le.mp hfast) h
  · have hlt : r1.valid.toNat < n.toNat := UInt8.lt_iff_toNat_lt.mp (UInt8.not_le.mp hfast)
    have hsub : (n - r1.valid).toNat = n.toNat - r1.valid.toNat :=
      UInt8.toNat_sub_of_le _ _ (UInt8.le_iff_toNat_le.mpr hlt.le)
    rw [← hbits1] at hle
    have hlen := length_bits r1
    obtain ⟨r2, hload, hr2, -, henough⟩ := exists_load_across hr1 hlt hn (by omega)
    have hle2 : (n - r1.valid).toNat ≤ r2.valid.toNat := by omega
    have hvalid2 := hr2.valid_le
    have hbehind : (r2.valid - (n - r1.valid)).toUInt64.toNat < 64 := by
      rw [UInt8.toNat_toUInt64, toNat_valid_sub hle2]
      omega
    have hnot : ¬ r2.valid < n - r1.valid := by
      rw [UInt8.lt_iff_toNat_lt]
      omega
    simp only [if_neg hfast, hload, Bool.not_true, Bool.false_eq_true, if_false] at h
    obtain ⟨rfl, rfl⟩ := Prod.mk.inj (Option.some.inj h)
    simp only [Bool.not_true, Bool.false_eq_true, if_false, if_neg hfast]
    rw [readAcrossWith_eq mode hpos1 hlt hn hload, if_neg (by decide),
      mode.sub_of_not_lt hnot, ok_bind, mode.shr_of_lt _ hbehind, ok_bind, ok_bind]

theorem exists_readBitsWith_of_le (mode : Overflow) {n : UInt8} (hr : r.Valid) (hpos : 0 < n.toNat)
    (hn : n.toNat ≤ 64) (hle : n.toNat ≤ r.bits.length) :
    ∃ r', r.readBitsWith mode n = .ok (some (UInt64.ofNat (bitsValue (r.bits.take n.toNat))), r') ∧
      r'.Valid ∧ r'.bits = r.bits.drop n.toNat := by
  have htake : (r.bits.take n.toNat).length = n.toNat := length_take_of_le hle
  have hvalue := bitsValue_lt (r.bits.take n.toNat)
  rw [htake] at hvalue
  have hsplit : r.bits = bitsBE n.toNat (bitsValue (r.bits.take n.toNat)) ++
      r.bits.drop n.toNat := by
    have hbits := bitsBE_bitsValue (r.bits.take n.toNat)
    rw [htake] at hbits
    rw [hbits, take_append_drop]
  obtain ⟨r', hread, hr', hbits'⟩ := reads_readBits hpos hn _ r _ hr hsplit
  rw [Nat.mod_eq_of_lt hvalue] at hread
  exact ⟨r', readBitsWith_of_readBits mode hr hpos hn hle hread, hr', hbits'⟩

/-- The state in which a read of `n` bits does not notice that they are not there: it starts in the
buffer and goes on in bytes that were not loaded yet. -/
structure Overruns (r : BstreamReader) (n : ℕ) : Prop where
  valid_pos : 0 < r.valid.toNat
  offset_lt : r.streamOffset < r.stream.length
  length_lt : r.bits.length < n

/-- A read of more bits than there are, none of which has to be loaded after the first ones were
taken. -/
theorem exists_readBitsWith_of_not_overruns (mode : Overflow) {n : UInt8} (hr : r.Valid)
    (hn : n.toNat ≤ 64)
    (hlt : r.bits.length < n.toNat) (h : ¬ r.Overruns n.toNat) :
    ∃ r', r.readBitsWith mode n = .ok (none, r') ∧ r'.Valid ∧ r'.bits = [] := by
  by_cases hnil : r.bits = []
  · refine ⟨r, ?_, hr, hnil⟩
    rw [readBitsWith, ensureWith_of_bits_eq_nil mode hn hnil, ok_bind]
    rfl
  · -- everything that is left is in the buffer
    have hall : ∃ r1, r.ensure n = some r1 ∧ r1.Valid ∧ r1.bits = r.bits ∧ 0 < r1.valid.toNat ∧
        r1.valid.toNat = r.bits.length := by
      by_cases hzero : r.valid = 0
      · obtain ⟨r1, hload, hr1, hbits1, hpos1, henough⟩ := bits_loadNextBuffer hzero hnil hr hn
        have hlen := length_bits r1
        rw [hbits1] at hlen
        refine ⟨r1, ?_, hr1, hbits1, hpos1, by omega⟩
        rw [ensure, if_pos hzero, hload]
        rfl
      · have hpos : 0 < r.valid.toNat := by
          have hne : r.valid.toNat ≠ 0 := fun h => hzero (UInt8.toNat_inj.mp h)
          omega
        have hend : ¬ r.streamOffset < r.stream.length := fun hoffset => h ⟨hpos, hoffset, hlt⟩
        have hlen := length_bits r
        exact ⟨r, if_neg hzero, hr, rfl, hpos, by omega⟩
    obtain ⟨r1, hensure, hr1, hbits1, hpos1, hlen1⟩ := hall
    have hlen := length_bits r1
    rw [hbits1] at hlen
    have hend : r1.streamOffset ≥ r1.stream.length := by omega
    have hlt1 : r1.valid.toNat < n.toNat := by omega
    have hload : ({ r1 with valid := 0 } : BstreamReader).loadNextBuffer (n - r1.valid) =
        (false, { r1 with valid := 0 }) := by
      rw [loadNextBuffer, if_pos hend]
    have hslow : ¬ n ≤ r1.valid := by
      rw [UInt8.le_iff_toNat_le]
      omega
    refine ⟨{ r1 with valid := 0 }, ?_, valid_drop_buffer hr1, ?_⟩
    · rw [readBitsWith, ensureWith_of_ensure mode hn hensure, ok_bind]
      simp only [Bool.not_true, Bool.false_eq_true, if_false, if_neg hslow]
      rw [readAcrossWith_eq mode hpos1 hlt1 hn hload]
      rfl
    · rw [← length_eq_zero_iff, length_bits, UInt8.toNat_zero]
      dsimp only
      omega

/-- In the state of an overrun the subtraction of what the read still needs goes out of range. -/
theorem readBitsWith_of_overruns (mode : Overflow) {n : UInt8} (hr : r.Valid) (hn : n.toNat ≤ 64)
    (h : r.Overruns n.toNat) :
    (r.readBitsWith mode n).Panics ∨ ∃ v r', r.readBitsWith mode n = .ok (some v, r') := by
  have hvalid := h.valid_pos
  have hoffset := h.offset_lt
  have hlen := length_bits r
  have hlt : r.valid.toNat < n.toNat := by
    have := h.length_lt
    omega
  have hsub : (n - r.valid).toNat = n.toNat - r.valid.toNat :=
    UInt8.toNat_sub_of_le _ _ (UInt8.le_iff_toNat_le.mpr hlt.le)
  have hensure : r.ensure n = some r := if_neg fun hzero => by
    rw [hzero] at hvalid
    exact absurd hvalid (by decide)
  have hslow : ¬ n ≤ r.valid := by
    rw [UInt8.le_iff_toNat_le]
    omega
  obtain ⟨r2, hload, -, hle2, -⟩ := exists_load_across hr hlt hn hoffset
  have hshort : r2.valid < n - r.valid := by
    have := h.length_lt
    rw [UInt8.lt_iff_toNat_lt]
    omega
  rw [readBitsWith, ensureWith_of_ensure mode hn hensure, ok_bind]
  simp only [Bool.not_true, Bool.false_eq_true, if_false, if_neg hslow]
  rw [readAcrossWith_eq mode hvalid hlt hn hload, if_neg (by decide)]
  cases mode with
  | wraps =>
    right
    rw [Overflow.sub_wraps, ok_bind, Overflow.shr_wraps, ok_bind, ok_bind]
    exact ⟨_, _, rfl⟩
  | panics =>
    left
    rw [Overflow.sub_panics hshort, panic_bind]
    exact panics_panic _

theorem exists_readBitWith (mode : Overflow) {b : Bool} {rest : List Bool} (hr : r.Valid)
    (h : r.bits = b :: rest) :
    ∃ r', r.readBitWith mode = .ok (some b, r') ∧ r'.Valid ∧ r'.bits = rest := by
  obtain ⟨r', hread, hr', hbits'⟩ := reads_readBit b r rest hr h
  have one_le : (1 : UInt8).toNat ≤ 64 := by decide
  obtain ⟨r1, hensure, hr1, -, hpos1⟩ := exists_ensure (by simp [h]) hr one_le
  have hne : r1.valid ≠ 0 := fun hzero => by
    rw [hzero] at hpos1
    exact absurd hpos1 (by decide)
  have hvalid1 := hr1.valid_le
  have hle : (1 : UInt8).toNat ≤ r1.valid.toNat := hpos1
  have hnot : ¬ r1.valid < 1 := by
    rw [UInt8.lt_iff_toNat_lt]
    exact Nat.not_lt.mpr hle
  have hlt : (r1.valid - 1).toUInt64.toNat < 64 := by
    rw [UInt8.toNat_toUInt64, toNat_valid_sub hle]
    change r1.valid.toNat - 1 < 64
    omega
  rw [readBit, hensure, bind_eq_bind, bind_some, if_neg hne] at hread
  refine ⟨r', ?_, hr', hbits'⟩
  rw [readBitWith, ensureWith_of_ensure mode one_le hensure, ok_bind]
  simp only [Bool.not_true, Bool.false_eq_true, if_false, if_neg hne]
  rw [mode.sub_of_not_lt hnot, ok_bind, mode.shl_of_lt _ hlt, ok_bind]
  obtain ⟨hbit, rfl⟩ := Prod.mk.inj (Option.some.inj hread)
  rw [hbit]

/-! ### One call -/

inductive Call
  | bit
  | bits (nbits : UInt8)
  | byte

namespace Call

/-- What a call gives. -/
abbrev Ret : Call → Type
  | bit => Bool
  | bits _ => UInt64
  | byte => UInt8

/-- The number of bits that a call asks for. -/
def size : Call → ℕ
  | bit => 1
  | bits nbits => nbits.toNat
  | byte => 8

/-- The sizes that are asked for. -/
def Sized (c : Call) : Prop := 1 ≤ c.size ∧ c.size ≤ 64

/-- The value of the bits that a call has read. -/
def value : (c : Call) → List Bool → c.Ret
  | bit, bs => decide (bitsValue bs ≠ 0)
  | bits _, bs => UInt64.ofNat (bitsValue bs)
  | byte, bs => UInt8.ofNat (bitsValue bs)

/-- The call on the slice as a list of bits. A call that runs out of them has taken them all. -/
def plain (c : Call) (bs : List Bool) : Option c.Ret × List Bool :=
  if bs.length < c.size then (none, []) else (some (c.value (bs.take c.size)), bs.drop c.size)

theorem plain_of_lt {c : Call} {bs : List Bool} (h : bs.length < c.size) :
    c.plain bs = (none, []) := if_pos h

theorem plain_of_le {c : Call} {bs : List Bool} (h : c.size ≤ bs.length) :
    c.plain bs = (some (c.value (bs.take c.size)), bs.drop c.size) := if_neg (Nat.not_lt.mpr h)

end Call

/-- The call on the buffered reader. -/
def callWith (mode : Overflow) : (c : Call) → BstreamReader → Outcome (Option c.Ret × BstreamReader)
  | .bit, r => r.readBitWith mode
  | .bits nbits, r => r.readBitsWith mode nbits
  | .byte, r => r.readByteWith mode

/-- A single bit is never in two buffers. -/
theorem not_overruns_one (r : BstreamReader) : ¬ r.Overruns 1 := fun h => by
  have hpos := h.valid_pos
  have hlt := h.length_lt
  rw [length_bits] at hlt
  omega

/-- The buffered reader does what the plain one does. -/
def CallAgrees (mode : Overflow) (c : Call) (r : BstreamReader) : Prop :=
  ∃ r', callWith mode c r = .ok ((c.plain r.bits).1, r') ∧ r'.Valid ∧ r'.bits = (c.plain r.bits).2

theorem callAgrees_bit (mode : Overflow) (hr : r.Valid) : CallAgrees mode .bit r := by
  cases hbits : r.bits with
  | nil =>
    refine ⟨r, ?_, hr, ?_⟩
    · rw [callWith, readBitWith, ensureWith_of_bits_eq_nil mode (by decide) hbits, ok_bind, hbits]
      rfl
    · rw [hbits]
      rfl
  | cons b rest =>
    obtain ⟨r', hread, hr', hbits'⟩ := exists_readBitWith mode hr hbits
    refine ⟨r', ?_, hr', ?_⟩
    · rw [callWith, hread, hbits]
      cases b <;> rfl
    · rw [hbits', hbits]
      rfl

theorem callAgrees_bits (mode : Overflow) {n : UInt8} (hr : r.Valid) (hsized : (Call.bits n).Sized)
    (h : ¬ r.Overruns n.toNat) : CallAgrees mode (.bits n) r := by
  by_cases hlt : r.bits.length < n.toNat
  · obtain ⟨r', hread, hr', hbits'⟩ := exists_readBitsWith_of_not_overruns mode hr hsized.2 hlt h
    rw [CallAgrees, Call.plain_of_lt hlt]
    exact ⟨r', hread, hr', hbits'⟩
  · obtain ⟨r', hread, hr', hbits'⟩ :=
      exists_readBitsWith_of_le mode hr hsized.1 hsized.2 (Nat.not_lt.mp hlt)
    rw [CallAgrees, Call.plain_of_le (Nat.not_lt.mp hlt)]
    exact ⟨r', hread, hr', hbits'⟩

/-- A byte is the eight bits of it. -/
theorem plain_byte (bs : List Bool) :
    Call.byte.plain bs = (((Call.bits 8).plain bs).1.map UInt64.toUInt8,
      ((Call.bits 8).plain bs).2) := by
  by_cases hlt : bs.length < 8
  · rw [Call.plain_of_lt hlt, Call.plain_of_lt hlt]
    rfl
  · have hvalue : UInt8.ofNat (bitsValue (bs.take 8)) =
        (UInt64.ofNat (bitsValue (bs.take 8))).toUInt8 :=
      (UInt64.toUInt8_ofNat' _).symm
    rw [Call.plain_of_le (Nat.not_lt.mp hlt), Call.plain_of_le (Nat.not_lt.mp hlt)]
    exact congrArg (fun v => (some v, bs.drop 8)) hvalue

theorem callAgrees_byte (mode : Overflow) (hr : r.Valid) (h : ¬ r.Overruns 8) :
    CallAgrees mode .byte r := by
  obtain ⟨r', hread, hr', hbits'⟩ := callAgrees_bits mode hr (n := 8) ⟨by decide, by decide⟩ h
  rw [CallAgrees, plain_byte]
  refine ⟨r', ?_, hr', hbits'⟩
  rw [callWith] at hread
  rw [callWith, readByteWith, hread, ok_bind]

theorem callAgrees_of_not_overruns (mode : Overflow) {c : Call} (hr : r.Valid) (hsized : c.Sized)
    (h : ¬ r.Overruns c.size) : CallAgrees mode c r := by
  cases c with
  | bit => exact callAgrees_bit mode hr
  | bits n => exact callAgrees_bits mode hr hsized h
  | byte => exact callAgrees_byte mode hr h

/-- A call that overruns gives a value all the same, or panics. -/
theorem callWith_of_overruns (mode : Overflow) {c : Call} (hr : r.Valid) (hsized : c.Sized)
    (h : r.Overruns c.size) : (callWith mode c r).Panics ∨ ∃ v r',
    callWith mode c r = .ok (some v, r') := by
  cases c with
  | bit => exact absurd h (not_overruns_one r)
  | bits n => exact readBitsWith_of_overruns mode hr hsized.2 h
  | byte =>
    rw [callWith, readByteWith]
    obtain ⟨msg, hpanic⟩ | ⟨v, r', hread⟩ := readBitsWith_of_overruns mode (n := 8) hr (by decide) h
    · left
      rw [hpanic, panic_bind]
      exact panics_panic msg
    · right
      rw [hread, ok_bind]
      exact ⟨v.toUInt8, r', rfl⟩

/-! ### The release build -/

/-- The call as the other results have it, which is that of the release build. -/
def step : (c : Call) → BstreamReader → Option (c.Ret × BstreamReader)
  | .bit, r => r.readBit
  | .bits nbits, r => r.readBits nbits
  | .byte, r => r.readByte

/-- Either there is a buffer, or the call fails. -/
theorem ensure_of_ensureWith {mode : Overflow} {loaded : Bool} (hn : nbits.toNat ≤ 64)
    (h : r.ensureWith mode nbits = .ok (loaded, r')) :
    r.ensure nbits = if loaded then some r' else none := by
  rw [ensureWith] at h
  rw [ensure]
  split at h
  · next hzero =>
    rw [loadWith_eq mode r hn] at h
    rw [if_pos hzero, Outcome.ok.inj h]
  · next hzero =>
    obtain ⟨rfl, rfl⟩ := Prod.mk.inj (Outcome.ok.inj h)
    rw [if_neg hzero, if_pos rfl]

theorem readBit_of_wraps {x : Option Bool} (h : r.readBitWith .wraps = .ok (x, r')) :
    r.readBit = x.map (·, r') := by
  rw [readBitWith, bind_eq_ok_iff] at h
  obtain ⟨⟨loaded, r1⟩, hensure, h⟩ := h
  rw [readBit, ensure_of_ensureWith (by decide) hensure]
  cases loaded with
  | false =>
    obtain ⟨rfl, -⟩ := Prod.mk.inj (Outcome.ok.inj h)
    rfl
  | true =>
    simp only [Bool.not_true, Bool.false_eq_true, if_false] at h
    simp only [if_true, bind_eq_bind, bind_some]
    split at h
    · next hzero =>
      obtain ⟨rfl, -⟩ := Prod.mk.inj (Outcome.ok.inj h)
      rw [if_pos hzero]
      rfl
    · next hzero =>
      rw [Overflow.sub_wraps, ok_bind, Overflow.shl_wraps, ok_bind] at h
      obtain ⟨rfl, rfl⟩ := Prod.mk.inj (Outcome.ok.inj h)
      rw [if_neg hzero]
      rfl

theorem readBitsFast_of_wraps {n : UInt8} {x : Option UInt64}
    (h : r.readBitsFastWith .wraps n = .ok (x, r')) :
    r.readBitsFast n = x.map (·, r') := by
  rw [readBitsFastWith] at h
  rw [readBitsFast]
  split at h
  · next hlt =>
    obtain ⟨rfl, -⟩ := Prod.mk.inj (Outcome.ok.inj h)
    rw [if_pos hlt]
    rfl
  · next hlt =>
    have hmask : (if n ≥ 64 then .ok (-1) else Overflow.wraps.lowMask n) =
        Outcome.ok (if n ≥ 64 then -1 else 1 <<< n.toUInt64 - 1 : UInt64) := by
      split
      · rfl
      · rfl
    rw [hmask, ok_bind, Overflow.sub_wraps, ok_bind, Overflow.shr_wraps, ok_bind] at h
    obtain ⟨rfl, rfl⟩ := Prod.mk.inj (Outcome.ok.inj h)
    rw [if_neg hlt]
    rfl

theorem readBits_of_wraps {n : UInt8} {x : Option UInt64} (hn : n.toNat ≤ 64)
    (h : r.readBitsWith .wraps n = .ok (x, r')) : r.readBits n = x.map (·, r') := by
  rw [readBitsWith, bind_eq_ok_iff] at h
  obtain ⟨⟨loaded, r1⟩, hensure, h⟩ := h
  rw [readBits, ensure_of_ensureWith hn hensure]
  cases loaded with
  | false =>
    obtain ⟨rfl, -⟩ := Prod.mk.inj (Outcome.ok.inj h)
    rfl
  | true =>
    simp only [Bool.not_true, Bool.false_eq_true, if_false] at h
    simp only [if_true, bind_eq_bind, bind_some]
    split at h
    · next hfast =>
      rw [if_pos hfast]
      exact readBitsFast_of_wraps h
    · next hslow =>
      have hlt : r1.valid.toNat ≤ n.toNat := (UInt8.lt_iff_toNat_lt.mp (UInt8.not_le.mp hslow)).le
      have hsub : (n - r1.valid).toNat ≤ 64 := by
        rw [UInt8.toNat_sub_of_le _ _ (UInt8.le_iff_toNat_le.mpr hlt)]
        omega
      rw [readAcrossWith, Overflow.lowMask_wraps, ok_bind, Overflow.sub_wraps, ok_bind,
        Overflow.shl_wraps, ok_bind, loadWith_eq .wraps _ hsub, ok_bind] at h
      rw [if_neg hslow]
      generalize ({ r1 with valid := 0 } : BstreamReader).loadNextBuffer (n - r1.valid) =
        loading at h ⊢
      obtain ⟨loaded2, r2⟩ := loading
      cases loaded2 with
      | false =>
        obtain ⟨rfl, -⟩ := Prod.mk.inj (Outcome.ok.inj h)
        rfl
      | true =>
        simp only [Bool.not_true, Bool.false_eq_true, if_false, Overflow.lowMask_wraps,
          Overflow.sub_wraps, Overflow.shr_wraps, ok_bind] at h
        obtain ⟨rfl, rfl⟩ := Prod.mk.inj (Outcome.ok.inj h)
        rfl

theorem step_of_wraps {c : Call} {x : Option c.Ret} (hsized : c.Sized)
    (h : callWith .wraps c r = .ok (x, r')) :
    step c r = x.map (·, r') := by
  cases c with
  | bit => exact readBit_of_wraps h
  | bits n => exact readBits_of_wraps hsized.2 h
  | byte =>
    rw [callWith, readByteWith, bind_eq_ok_iff] at h
    obtain ⟨⟨v, r''⟩, hread, heq⟩ := h
    obtain ⟨rfl, rfl⟩ := Prod.mk.inj (Outcome.ok.inj heq)
    rw [step, readByte, readBits_of_wraps (by decide) hread]
    cases v <;> rfl

/-! ### Runs -/

/-- Each call of the run returns what the plain reader returns, and none of them panics. -/
def Exact (mode : Overflow) : List Call → BstreamReader → List Bool → Prop
  | [], _, _ => True
  | c :: cs, r, bs => ∃ r', callWith mode c r = .ok ((c.plain bs).1, r') ∧
    Exact mode cs r' (c.plain bs).2

/-- No call of the run overruns in the state that the calls before it have left. -/
def AvoidsOverruns (mode : Overflow) : List Call → BstreamReader → Prop
  | [], _ => True
  | c :: cs, r => ¬ r.Overruns c.size ∧ ∀ v r', callWith mode c r = .ok (v, r') →
    AvoidsOverruns mode cs r'

theorem exact_iff_avoidsOverruns (mode : Overflow) {calls : List Call}
    (hsized : ∀ c ∈ calls, c.Sized)
    (hr : r.Valid) : Exact mode calls r r.bits ↔ AvoidsOverruns mode calls r := by
  induction calls generalizing r with
  | nil => exact Iff.rfl
  | cons c cs ih =>
    obtain ⟨hc, hcs⟩ := forall_mem_cons.mp hsized
    by_cases h : r.Overruns c.size
    · refine ⟨fun hexact => ?_, fun havoids => absurd h havoids.1⟩
      obtain ⟨r', hcall, -⟩ := hexact
      rw [Call.plain_of_lt h.length_lt] at hcall
      obtain ⟨msg, hpanic⟩ | ⟨v, r'', hread⟩ := callWith_of_overruns mode hr hc h
      · rw [hpanic] at hcall
        cases hcall
      · rw [hread] at hcall
        cases hcall
    · obtain ⟨r', hcall, hr', hbits'⟩ := callAgrees_of_not_overruns mode hr hc h
      have hih := ih hcs hr'
      rw [hbits'] at hih
      refine ⟨fun ⟨r'', hcall', hexact⟩ => ⟨h, fun v r3 hcall3 => ?_⟩,
        fun havoids => ⟨r', hcall, ?_⟩⟩
      · rw [hcall] at hcall' hcall3
        obtain ⟨-, rfl⟩ := Prod.mk.inj (Outcome.ok.inj hcall')
        obtain ⟨-, rfl⟩ := Prod.mk.inj (Outcome.ok.inj hcall3)
        exact hih.mp hexact
      · exact hih.mpr (havoids.2 _ _ hcall)

end BstreamReader

end Esmetrics.Esmctl
