import Esmetrics.Esmctl.Bstream
import Esmetrics.Lib.Outcome

/-!
# XOR chunks

Model of the decoder of XOR chunks of `esmctl/src/chunkenc.rs`, and of the encoder that it undoes. A
value is the bits of its number, and timestamps wrap. The encoder is the one of the tests there,
with the ranges of Prometheus for the delta of two deltas (`bitRange`): the tests have the ranges of
two's complement, and the decoder reads `2 ^ (n - 1)` as a positive number.

The encoder and the decoder go through a chunk in step. `Agree` relates their states after the same
number of samples: the decoder knows the last sample, the last delta, and the window of significant
bits, unless no window has been written yet. `exists_stepInverse` is one step, and
`decodeXorChunk_encodeXorChunk` the whole run.
-/

namespace Esmetrics.Esmctl

open List Option

open BstreamReader BWriter

/-- A timestamp, and the bits of a value. -/
abbrev XorSample := Int64 × UInt64

/-! ### The decoder -/

structure XorIterator where
  br : BstreamReader
  numTotal : UInt16
  numRead : UInt16
  t : Int64
  val : UInt64
  leading : UInt8
  trailing : UInt8
  tDelta : UInt64

/-- The value and the window that `xor_read` leaves behind its references. -/
structure XorValue where
  val : UInt64
  leading : UInt8
  trailing : UInt8
deriving DecidableEq

/-- What `xor_read` does with a window that is known. -/
def xorReadWindow (value : UInt64) (leading trailing mBits : UInt8) (br : BstreamReader) :
    Option (XorValue × BstreamReader) := do
  let (bits, br) ← br.readBits mBits
  some (⟨value ^^^ bits <<< trailing.toUInt64, leading, trailing⟩, br)

def xorRead (value : UInt64) (leading trailing : UInt8) (br : BstreamReader) :
    Option (XorValue × BstreamReader) := do
  let (changed, br) ← br.readBit
  if !changed then some (⟨value, leading, trailing⟩, br)
  else
    let (control, br) ← br.readBit
    if !control then xorReadWindow value leading trailing (64 - leading - trailing) br
    else
      let (newLeading, br) ← br.readBits 5
      let (mb, br) ← br.readBits 6
      let leading := newLeading.toUInt8
      let mBits := if mb.toUInt8 = 0 then 64 else mb.toUInt8
      xorReadWindow value leading (64 - leading - mBits) mBits br

/-- The loop that reads the selector of a delta of two deltas. -/
def readSelector : ℕ → UInt8 → BstreamReader → Option (UInt8 × BstreamReader)
  | 0, d, br => some (d, br)
  | n + 1, d, br => do
    let (bit, br) ← br.readBit
    if !bit then some (d <<< 1, br) else readSelector n (d <<< 1 ||| 1) br

/-- The number of `sz` bits. -/
def readSized (sz : UInt8) (br : BstreamReader) : Option (Int64 × BstreamReader) := do
  let (bits, br) ← br.readBits sz
  -- wraps to a large number that is a negative one after the conversion
  let bits := if bits > 1 <<< (sz - 1).toUInt64 then bits - 1 <<< sz.toUInt64 else bits
  some (bits.toInt64, br)

/-- The delta of two deltas. -/
def readDod (br : BstreamReader) : Option (Int64 × BstreamReader) := do
  let (d, br) ← readSelector 4 0 br
  match d with
  | 0b0 => some (0, br)
  | 0b10 => readSized 14 br
  | 0b110 => readSized 17 br
  | 0b1110 => readSized 20 br
  | 0b1111 => do
    let (bits, br) ← br.readBits 64
    some (bits.toInt64, br)
  | _ => none

namespace XorIterator

def new (chunk : Bytes) : Option XorIterator :=
  match chunk with
  | b0 :: b1 :: rest =>
    some {
      br := .new rest
      numTotal := UInt16.ofNat (beNat [b0, b1])
      numRead := 0
      t := Int64.minValue
      val := 0
      leading := 0
      trailing := 0
      tDelta := 0 }
  | _ => none

def readValue (it : XorIterator) : Option (XorSample × XorIterator) := do
  let (v, br) ← xorRead it.val it.leading it.trailing it.br
  let it := { it with
    br := br, val := v.val, leading := v.leading, trailing := v.trailing, numRead :=
    it.numRead + 1 }
  some ((it.t, it.val), it)

def next (it : XorIterator) : Option (XorSample × XorIterator) :=
  if it.numRead = it.numTotal then none
  else if it.numRead = 0 then do
    let (t, br) ← it.br.readVarint
    let (v, br) ← br.readBits 64
    let it := { it with br := br, t := t, val := v, numRead := it.numRead + 1 }
    some ((it.t, it.val), it)
  else if it.numRead = 1 then do
    let (tDelta, br) ← it.br.readUvarint
    { it with br := br, tDelta := tDelta, t := it.t + tDelta.toInt64 }.readValue
  else do
    let (dod, br) ← readDod it.br
    let tDelta := (it.tDelta.toInt64 + dod).toUInt64
    { it with br := br, tDelta := tDelta, t := it.t + tDelta.toInt64 }.readValue

/-- The loop of `decode_xor_chunk`, with the rounds that are left. -/
def collect : ℕ → XorIterator → List XorSample → Outcome (List XorSample)
  | 0, _, out => .ok out
  | n + 1, it, out =>
    match it.next with
    | some (sample, it) => collect n it (out ++ [sample])
    | none => .err "truncated XOR chunk"

end XorIterator

def decodeXorChunk (chunk : Bytes) : Outcome (List XorSample) :=
  match XorIterator.new chunk with
  | none => .err "XOR chunk shorter than its 2-byte header"
  | some it => it.collect it.numTotal.toNat []

/-! ### The encoder -/

/-- The number of leading zero bits. -/
def leadingZeros (w : UInt64) : ℕ := 64 - w.toNat.size

/-- The range of a delta that is written with `nbits` bits. -/
def bitRange (x : Int64) (nbits : ℕ) : Prop :=
  -(2 ^ (nbits - 1) - 1) ≤ x.toInt ∧ x.toInt ≤ 2 ^ (nbits - 1)

instance (x : Int64) (nbits : ℕ) : Decidable (bitRange x nbits) :=
  inferInstanceAs (Decidable (_ ∧ _))

def xorWrite (w : BWriter) (newV curV : UInt64) (leading trailing : UInt8) :
    BWriter × UInt8 × UInt8 :=
  let delta := newV ^^^ curV
  if delta = 0 then (w.writeBit false, leading, trailing)
  else
    let w := w.writeBit true
    let newLeading := UInt8.ofNat (leadingZeros delta)
    let newTrailing := UInt8.ofNat (trailingZeros delta)
    let newLeading := if newLeading ≥ 32 then 31 else newLeading
    if leading ≠ 0xff ∧ newLeading ≥ leading ∧ newTrailing ≥ trailing then
      let w := w.writeBit false
      (w.writeBits (delta >>> trailing.toUInt64) (64 - leading.toNat - trailing.toNat),
        leading, trailing)
    else
      let w := w.writeBit true
      let w := w.writeBits newLeading.toUInt64 5
      let sigbits := 64 - newLeading - newTrailing
      let w := w.writeBits sigbits.toUInt64 6
      (w.writeBits (delta >>> newTrailing.toUInt64) sigbits.toNat, newLeading, newTrailing)

def writeDod (w : BWriter) (dod : Int64) : BWriter :=
  if dod = 0 then w.writeBit false
  else if bitRange dod 14 then
    let w := w.writeByte ((0b10 : UInt8) <<< 6 ||| ((dod >>> 8).toUInt64.toUInt8 &&& 0x3f))
    w.writeByte dod.toUInt64.toUInt8
  else if bitRange dod 17 then (w.writeBits 0b110 3).writeBits dod.toUInt64 17
  else if bitRange dod 20 then (w.writeBits 0b1110 4).writeBits dod.toUInt64 20
  else (w.writeBits 0b1111 4).writeBits dod.toUInt64 64

structure XorAppender where
  w : BWriter
  prevT : Int64
  prevV : UInt64
  prevTdelta : UInt64
  leading : UInt8
  trailing : UInt8

namespace XorAppender

def start : XorAppender :=
  { w := ⟨[0, 0], 0⟩, prevT := 0, prevV := 0, prevTdelta := 0, leading := 0xff, trailing := 0 }

/-- Appends sample number `i`. -/
def append (e : XorAppender) (i : ℕ) (sample : XorSample) : XorAppender :=
  let (t, v) := sample
  match i with
  | 0 => { e with w := (e.w.writeVarint t).writeBits v 64, prevT := t, prevV := v }
  | 1 =>
    let tdelta := (t - e.prevT).toUInt64
    let (w, leading, trailing) := xorWrite (e.w.writeUvarint tdelta) v e.prevV e.leading e.trailing
    ⟨w, t, v, tdelta, leading, trailing⟩
  | _ =>
    let tdelta := (t - e.prevT).toUInt64
    let dod := tdelta.toInt64 - e.prevTdelta.toInt64
    let (w, leading, trailing) := xorWrite (writeDod e.w dod) v e.prevV e.leading e.trailing
    ⟨w, t, v, tdelta, leading, trailing⟩

def appendAll (e : XorAppender) (i : ℕ) : List XorSample → XorAppender
  | [] => e
  | sample :: samples => (e.append i sample).appendAll (i + 1) samples

end XorAppender

def encodeXorChunk (samples : List XorSample) : Bytes :=
  let e := XorAppender.start.appendAll 0 samples
  let n := UInt16.ofNat samples.length
  (e.w.stream.set 0 (n >>> 8).toUInt8).set 1 n.toUInt8

/-! ### The window of significant bits -/

section Window

variable {w : UInt64}

theorem two_pow_trailingZeros_dvd (w : UInt64) : 2 ^ trailingZeros w ∣ w.toNat := by
  have hlow : ∀ i < trailingZeros w, testBit w i = false := by
    intro i hi
    rw [trailingZeros] at hi
    cases hfind : (List.range 64).find? fun i => testBit w i with
    | none =>
      rw [hfind, getD_none] at hi
      simpa using find?_eq_none.mp hfind i (mem_range.mpr hi)
    | some k =>
      rw [hfind, getD_some] at hi
      simpa using (find?_range_eq_some.mp hfind).2.2 i hi
  rw [Nat.dvd_iff_mod_eq_zero]
  apply Nat.eq_of_testBit_eq
  intro i
  rw [Nat.testBit_mod_two_pow, Nat.zero_testBit]
  by_cases hi : i < trailingZeros w
  · have hbit := hlow i hi
    rw [testBit] at hbit
    rw [hbit, Bool.and_false]
  · simp [hi]

theorem toNat_lt_two_pow_leadingZeros (w : UInt64) : w.toNat < 2 ^ (64 - leadingZeros w) := by
  have hsize : w.toNat.size ≤ 64 := Nat.size_le.mpr w.toNat_lt
  rw [leadingZeros, show 64 - (64 - w.toNat.size) = w.toNat.size by omega]
  exact Nat.lt_size_self _

/-- Between the leading and the trailing zeros there is a bit. -/
theorem leadingZeros_add_trailingZeros_lt (hw : w ≠ 0) : leadingZeros w + trailingZeros w < 64 := by
  have hpos : 0 < w.toNat := by
    have hne : w.toNat ≠ 0 := fun h => hw (UInt64.toNat_inj.mp h)
    omega
  have hle := Nat.le_of_dvd hpos (two_pow_trailingZeros_dvd w)
  have hlt := lt_of_le_of_lt hle (toNat_lt_two_pow_leadingZeros w)
  have := (Nat.pow_lt_pow_iff_right (by omega : 1 < 2)).mp hlt
  have hsize : w.toNat.size ≤ 64 := Nat.size_le.mpr w.toNat_lt
  rw [leadingZeros] at this ⊢
  omega

end Window

/-- A window that can be written. -/
structure IsWindow (leading trailing : UInt8) : Prop where
  leading_le : leading.toNat ≤ 31
  add_lt : leading.toNat + trailing.toNat < 64

/-- The bits of a word that are not in the window are zeros. -/
structure InWindow (delta : UInt64) (leading trailing : UInt8) : Prop where
  lt : delta.toNat < 2 ^ (64 - leading.toNat)
  dvd : 2 ^ trailing.toNat ∣ delta.toNat

/-- The number of significant bits. -/
theorem IsWindow.toNat_sub {leading trailing : UInt8} (h : IsWindow leading trailing) :
    (64 - leading - trailing).toNat = 64 - leading.toNat - trailing.toNat := by
  have hlead := h.leading_le
  have hadd := h.add_lt
  have h64 : (64 - leading).toNat = 64 - leading.toNat :=
    UInt8.toNat_sub_of_le _ _ (UInt8.le_iff_toNat_le.mpr (by change _ ≤ 64; omega))
  rw [UInt8.toNat_sub_of_le _ _ (UInt8.le_iff_toNat_le.mpr (by omega)), h64]

/-- A larger window. -/
theorem IsWindow.mono {leading trailing leading' trailing' : UInt8}
    (h : IsWindow leading' trailing')
    (hlead : leading ≤ leading') (htrail : trailing ≤ trailing') : IsWindow leading trailing := by
  have hlead' := UInt8.le_iff_toNat_le.mp hlead
  have htrail' := UInt8.le_iff_toNat_le.mp htrail
  have hle := h.leading_le
  have hadd := h.add_lt
  exact ⟨by omega, by omega⟩

theorem InWindow.mono {delta : UInt64} {leading trailing leading' trailing' : UInt8}
    (h : InWindow delta leading' trailing') (hlead : leading ≤ leading')
    (htrail : trailing ≤ trailing') : InWindow delta leading trailing := by
  have hlead' := UInt8.le_iff_toNat_le.mp hlead
  have htrail' := UInt8.le_iff_toNat_le.mp htrail
  refine ⟨lt_of_lt_of_le h.lt (Nat.pow_le_pow_right (by omega) (by omega)), ?_⟩
  exact (Nat.pow_dvd_pow 2 htrail').trans h.dvd

/-- What is written of a word in the window gives it back. -/
theorem InWindow.shift_back {delta : UInt64} {leading trailing : UInt8}
    (hw : IsWindow leading trailing) (h : InWindow delta leading trailing) :
    UInt64.ofNat ((delta >>> trailing.toUInt64).toNat %
      2 ^ (64 - leading.toNat - trailing.toNat)) <<< trailing.toUInt64 = delta := by
  have hadd := hw.add_lt
  have hdelta := delta.toNat_lt
  obtain ⟨q, hq⟩ := h.dvd
  have hshr : (delta >>> trailing.toUInt64).toNat = q := by
    rw [UInt64.toNat_shiftRight, toNat_toUInt64_mod (by omega), Nat.shiftRight_eq_div_pow, hq,
      Nat.mul_div_cancel_left _ (Nat.two_pow_pos _)]
  have hqlt : q < 2 ^ (64 - leading.toNat - trailing.toNat) := by
    have hlt := h.lt
    rw [hq, show 64 - leading.toNat = trailing.toNat +
      (64 - leading.toNat - trailing.toNat) by omega,
      pow_add] at hlt
    exact Nat.lt_of_mul_lt_mul_left hlt
  have hq64 : q < 2 ^ 64 := lt_of_lt_of_le hqlt (Nat.pow_le_pow_right (by omega) (by omega))
  apply UInt64.toNat_inj.mp
  rw [hshr, Nat.mod_eq_of_lt hqlt, UInt64.toNat_shiftLeft, toNat_toUInt64_mod (by omega),
    UInt64.toNat_ofNat', Nat.mod_eq_of_lt hq64, Nat.shiftLeft_eq, Nat.mul_comm, ← hq,
    Nat.mod_eq_of_lt hdelta]

/-- The window of a word, with the leading zeros that five bits can hold. -/
theorem isWindow_zeros {delta : UInt64} (hdelta : delta ≠ 0) {leading trailing : UInt8}
    (hlead : leading = if UInt8.ofNat (leadingZeros delta) ≥ 32 then 31
      else UInt8.ofNat (leadingZeros delta))
    (htrail : trailing = UInt8.ofNat (trailingZeros delta)) :
    IsWindow leading trailing ∧ InWindow delta leading trailing := by
  have hsum := leadingZeros_add_trailingZeros_lt hdelta
  have htrailNat : trailing.toNat = trailingZeros delta := by
    rw [htrail, toNat_ofNat_of_lt (by omega)]
  have hzeros : (UInt8.ofNat (leadingZeros delta)).toNat = leadingZeros delta :=
    toNat_ofNat_of_lt (by omega)
  have hle : leading.toNat ≤ 31 ∧ leading.toNat ≤ leadingZeros delta := by
    rw [hlead]
    split
    · next hge =>
      have hge' := UInt8.le_iff_toNat_le.mp hge
      rw [hzeros] at hge'
      change 31 ≤ 31 ∧ 31 ≤ _
      change 32 ≤ _ at hge'
      omega
    · next hlt =>
      have hlt' := UInt8.lt_iff_toNat_lt.mp (UInt8.not_le.mp hlt)
      rw [hzeros] at hlt' ⊢
      change _ < 32 at hlt'
      omega
  refine ⟨⟨hle.1, by omega⟩, ⟨?_, ?_⟩⟩
  · refine lt_of_lt_of_le (toNat_lt_two_pow_leadingZeros delta) ?_
    exact Nat.pow_le_pow_right (by omega) (by omega)
  · rw [htrailNat]
    exact two_pow_trailingZeros_dvd delta

/-! ### The values -/

theorem reads_xorReadWindow {value newV : UInt64} {leading trailing mBits : UInt8}
    (hw : IsWindow leading trailing) (h : InWindow (newV ^^^ value) leading trailing)
    (hbits : mBits.toNat = 64 - leading.toNat - trailing.toNat) :
    Reads (xorReadWindow value leading trailing mBits)
      (bitsBE mBits.toNat ((newV ^^^ value) >>> trailing.toUInt64).toNat)
      ⟨newV, leading, trailing⟩ := by
  have hadd := hw.add_lt
  have hread := (reads_readBits (n := mBits) (by omega) (by omega)
    ((newV ^^^ value) >>> trailing.toUInt64).toNat).map
      fun bits => (⟨value ^^^ bits <<< trailing.toUInt64, leading, trailing⟩ : XorValue)
  rw [hbits, h.shift_back hw, UInt64.xor_comm newV, ← UInt64.xor_assoc, UInt64.xor_self,
    UInt64.zero_xor, ← hbits, UInt64.xor_comm value] at hread
  exact hread

/-- The decoder knows the window of the encoder, if there is one. -/
def AgreeWindow (leading trailing leading' trailing' : UInt8) : Prop :=
  leading = 0xff ∨ leading' = leading ∧ trailing' = trailing ∧ IsWindow leading trailing

theorem reads_xorRead_same (value : UInt64) (leading trailing : UInt8) :
    Reads (xorRead value leading trailing) [false] ⟨value, leading, trailing⟩ := by
  intro br rest hbr hbits
  obtain ⟨br, hread, hbr, hbits⟩ := reads_readBit false br rest hbr hbits
  exact ⟨br, by simp [xorRead, hread], hbr, hbits⟩

theorem reads_xorRead_reuse {value : UInt64} {leading trailing : UInt8} {bs : List Bool}
    {a : XorValue}
    (h : Reads (xorReadWindow value leading trailing (64 - leading - trailing)) bs a) :
    Reads (xorRead value leading trailing) ([true] ++ [false] ++ bs) a := by
  intro br rest hbr hbits
  simp only [append_assoc] at hbits
  obtain ⟨br, hchanged, hbr, hbits⟩ := reads_readBit true br _ hbr hbits
  obtain ⟨br, hcontrol, hbr, hbits⟩ := reads_readBit false br _ hbr hbits
  obtain ⟨br, hread, hbr, hbits⟩ := h br rest hbr hbits
  exact ⟨br, by simp [xorRead, hchanged, hcontrol, hread], hbr, hbits⟩

/-- The leading zeros and the number of significant bits are read back. -/
theorem reads_xorRead_new {value : UInt64} {leading trailing newLeading newTrailing : UInt8}
    {bs : List Bool} {a : XorValue} (hw : IsWindow newLeading newTrailing)
    (h : Reads (xorReadWindow value newLeading newTrailing (64 - newLeading - newTrailing)) bs a) :
    Reads (xorRead value leading trailing) ([true] ++ [true] ++
      bitsBE 5 newLeading.toUInt64.toNat ++
      bitsBE 6 (64 - newLeading - newTrailing).toUInt64.toNat ++ bs) a := by
  have hlead := hw.leading_le
  have hadd := hw.add_lt
  have hsub := hw.toNat_sub
  obtain ⟨sigbits, hsig⟩ : ∃ n, n = 64 - newLeading - newTrailing := ⟨_, rfl⟩
  rw [← hsig] at h hsub ⊢
  intro br rest hbr hbits
  simp only [append_assoc] at hbits
  obtain ⟨br, hchanged, hbr, hbits⟩ := reads_readBit true br _ hbr hbits
  obtain ⟨br, hcontrol, hbr, hbits⟩ := reads_readBit true br _ hbr hbits
  obtain ⟨br, hfive, hbr, hbits⟩ := reads_readBits (n := 5) (by decide) (by decide) _ br _ hbr hbits
  obtain ⟨br, hsix, hbr, hbits⟩ := reads_readBits (n := 6) (by decide) (by decide) _ br _ hbr hbits
  have hnew : (UInt64.ofNat (newLeading.toUInt64.toNat % 2 ^ (5 : UInt8).toNat)).toUInt8 =
      newLeading := by
    apply UInt8.toNat_inj.mp
    rw [UInt64.toNat_toUInt8, UInt64.toNat_ofNat', UInt8.toNat_toUInt64]
    change newLeading.toNat % 32 % 2 ^ 64 % 2 ^ 8 = _
    omega
  have hsixNat : (UInt64.ofNat (sigbits.toUInt64.toNat % 2 ^ (6 : UInt8).toNat)).toUInt8.toNat =
      sigbits.toNat % 64 := by
    rw [UInt64.toNat_toUInt8, UInt64.toNat_ofNat', UInt8.toNat_toUInt64]
    change sigbits.toNat % 64 % 2 ^ 64 % 2 ^ 8 = _
    omega
  -- 64 significant bits are written as zero
  have hm : (if (UInt64.ofNat (sigbits.toUInt64.toNat % 2 ^ (6 : UInt8).toNat)).toUInt8 = 0 then 64
      else (UInt64.ofNat (sigbits.toUInt64.toNat % 2 ^ (6 : UInt8).toNat)).toUInt8) = sigbits := by
    apply UInt8.toNat_inj.mp
    split
    · next hzero =>
      rw [hzero] at hsixNat
      change 0 = _ at hsixNat
      change 64 = _
      omega
    · next hne =>
      have hne' : sigbits.toNat % 64 ≠ 0 := fun h0 => hne (UInt8.toNat_inj.mp (hsixNat.trans h0))
      rw [hsixNat]
      omega
  have htrail : 64 - newLeading - sigbits = newTrailing := by
    rw [hsig, sub_sub_cancel]
  obtain ⟨br, hread, hbr, hbits⟩ := h br rest hbr hbits
  refine ⟨br, ?_, hbr, hbits⟩
  simp only [xorRead, hchanged, hcontrol, hfive, hsix, bind_eq_bind, bind_some,
    Bool.not_true, Bool.false_eq_true, if_false, hnew, hm, htrail, hread]

/-- The next value is read as it was written, and the windows agree again. -/
theorem exists_xorWrite_xorRead (newV curV : UInt64) (leading trailing : UInt8) :
    ∃ bs window, (∀ w, (xorWrite w newV curV leading trailing).2 = window) ∧
      Writes (fun w => (xorWrite w newV curV leading trailing).1) bs ∧
      ∀ leading' trailing', AgreeWindow leading trailing leading' trailing' →
        ∃ leading'' trailing'',
          Reads (xorRead curV leading' trailing') bs ⟨newV, leading'', trailing''⟩ ∧
          AgreeWindow window.1 window.2 leading'' trailing'' := by
  by_cases hdelta : newV ^^^ curV = 0
  · refine ⟨[false], (leading, trailing), fun w => by simp [xorWrite, hdelta], ?_,
      fun leading' trailing' h => ?_⟩
    · simp only [xorWrite, hdelta, if_true]
      exact writes_writeBit false
    · obtain rfl : newV = curV := UInt64.xor_eq_zero_iff.mp hdelta
      exact ⟨leading', trailing', reads_xorRead_same _ _ _, h⟩
  · obtain ⟨newLeading, hlead⟩ : ∃ l, l = if UInt8.ofNat (leadingZeros (newV ^^^ curV)) ≥ 32 then 31
      else UInt8.ofNat (leadingZeros (newV ^^^ curV)) := ⟨_, rfl⟩
    obtain ⟨newTrailing, htrail⟩ : ∃ l, l = UInt8.ofNat (trailingZeros (newV ^^^ curV)) := ⟨_, rfl⟩
    obtain ⟨hwindow, hin⟩ := isWindow_zeros hdelta hlead htrail
    by_cases hreuse : leading ≠ 0xff ∧ newLeading ≥ leading ∧ newTrailing ≥ trailing
    · have ⟨hset, hleadLe, htrailLe⟩ := hreuse
      have hold : IsWindow leading trailing := hwindow.mono hleadLe htrailLe
      have hadd := hold.add_lt
      refine ⟨[true] ++ [false] ++ bitsBE (64 - leading.toNat - trailing.toNat)
        ((newV ^^^ curV) >>> trailing.toUInt64).toNat, (leading, trailing), fun w => ?_, ?_,
        fun leading' trailing' h => ?_⟩
      · simp only [xorWrite, hdelta, if_false, ← hlead, ← htrail, if_pos hreuse]
      · simp only [xorWrite, hdelta, if_false, ← hlead, ← htrail, if_pos hreuse]
        exact ((writes_writeBit true).comp (writes_writeBit false)).comp
          (writes_writeBits (by omega) (by omega) _)
      · obtain ⟨rfl, rfl, -⟩ := h.resolve_left hset
        refine ⟨leading', trailing', ?_, .inr ⟨rfl, rfl, hold⟩⟩
        have hread := reads_xorReadWindow hold (hin.mono hleadLe htrailLe) hold.toNat_sub
        rw [hold.toNat_sub] at hread
        exact reads_xorRead_reuse hread
    · have hadd := hwindow.add_lt
      have hsub := hwindow.toNat_sub
      refine ⟨[true] ++ [true] ++ bitsBE 5 newLeading.toUInt64.toNat ++
        bitsBE 6 (64 - newLeading - newTrailing).toUInt64.toNat ++
        bitsBE (64 - newLeading - newTrailing).toNat
        ((newV ^^^ curV) >>> newTrailing.toUInt64).toNat,
        (newLeading, newTrailing), fun w => ?_, ?_, fun leading' trailing' _ => ?_⟩
      · simp only [xorWrite, hdelta, if_false, ← hlead, ← htrail, if_neg hreuse]
      · simp only [xorWrite, hdelta, if_false, ← hlead, ← htrail, if_neg hreuse]
        exact ((((writes_writeBit true).comp (writes_writeBit true)).comp
          (writes_writeBits (by omega) (by omega) _)).comp
          (writes_writeBits (by omega) (by omega) _)).comp
          (writes_writeBits (by omega) (by omega) _)
      · refine ⟨newLeading, newTrailing, ?_, .inr ⟨rfl, rfl, hwindow⟩⟩
        exact reads_xorRead_new hwindow (reads_xorReadWindow hwindow hin hsub)

/-! ### The timestamps -/

theorem reads_readSelector_zero (n : ℕ) (d : UInt8) :
    Reads (readSelector (n + 1) d) [false] (d <<< 1) := by
  intro br rest hbr hbits
  obtain ⟨br, hread, hbr, hbits⟩ := reads_readBit false br rest hbr hbits
  exact ⟨br, by simp [readSelector, hread], hbr, hbits⟩

theorem reads_readSelector_one {n : ℕ} {d d' : UInt8} {bs : List Bool}
    (h : Reads (readSelector n (d <<< 1 ||| 1)) bs d') :
    Reads (readSelector (n + 1) d) (true :: bs) d' := by
  intro br rest hbr hbits
  obtain ⟨br, hread, hbr, hbits⟩ := reads_readBit true br _ hbr hbits
  obtain ⟨br, hrest, hbr, hbits⟩ := h br rest hbr hbits
  exact ⟨br, by simp [readSelector, hread, hrest], hbr, hbits⟩

theorem toInt_eq (d : Int64) : d.toInt = if 2 * d.toUInt64.toNat < 2 ^ 64 then
    (d.toUInt64.toNat : ℤ) else d.toUInt64.toNat - 2 ^ 64 := by
  have h := BitVec.toInt_eq_toNat_cond d.toBitVec
  exact h

/-- A number in the range of `sz` bits. -/
theorem reads_readSized {sz : UInt8} (hpos : 1 < sz.toNat) (hlt : sz.toNat < 64) {d : Int64}
    (h : bitRange d sz.toNat) :
    Reads (readSized sz) (bitsBE sz.toNat d.toUInt64.toNat) d := by
  have hread := (reads_readBits (n := sz) (by omega) (by omega) d.toUInt64.toNat).map fun bits =>
    (if bits > 1 <<< (sz - 1).toUInt64 then bits - 1 <<< sz.toUInt64 else bits).toInt64
  have hd : d.toUInt64.toInt64 = d := rfl
  have hvalue : (if UInt64.ofNat (d.toUInt64.toNat % 2 ^ sz.toNat) > 1 <<< (sz - 1).toUInt64
      then UInt64.ofNat (d.toUInt64.toNat % 2 ^ sz.toNat) - 1 <<< sz.toUInt64
      else UInt64.ofNat (d.toUInt64.toNat % 2 ^ sz.toNat)) = d.toUInt64 := by
    obtain ⟨hlow, hhigh⟩ := h
    have hD := toInt_eq d
    have hN := d.toUInt64.toNat_lt
    have hone : (sz - 1).toNat = sz.toNat - 1 :=
      UInt8.toNat_sub_of_le _ _ (UInt8.le_iff_toNat_le.mpr (by change 1 ≤ _; omega))
    have hshift : ∀ n : UInt8, n.toNat < 64 → ((1 : UInt64) <<< n.toUInt64).toNat =
        2 ^ n.toNat := by
      intro n hn
      rw [UInt64.toNat_shiftLeft, toNat_toUInt64_mod hn, UInt64.toNat_one, Nat.one_shiftLeft,
        Nat.mod_eq_of_lt (Nat.pow_lt_pow_right (by omega) hn)]
    obtain ⟨s, hs⟩ : ∃ s, sz.toNat = s + 1 := ⟨sz.toNat - 1, by omega⟩
    have hhalf := hshift (sz - 1) (by omega)
    have hfull := hshift sz hlt
    rw [hone, hs, Nat.add_sub_cancel] at hhalf
    rw [hs, Nat.add_sub_cancel] at hlow hhigh
    rw [hs] at hfull ⊢
    obtain ⟨q, hq⟩ : ∃ q, 2 ^ 64 = 2 ^ (s + 1) * q := Nat.pow_dvd_pow 2 (by omega)
    have hpow : 2 ^ (s + 1) = 2 * 2 ^ s := by rw [pow_succ, Nat.mul_comm]
    have hcast : ((2 ^ s : ℕ) : ℤ) = 2 ^ s := Nat.cast_pow 2 s
    have hple : 2 ^ (s + 1) < 2 ^ 64 := Nat.pow_lt_pow_right (by omega) (by omega)
    rw [hpow] at hple hfull hq ⊢
    generalize 2 ^ s = p at *
    generalize hn : d.toUInt64.toNat = n at *
    rw [← hcast] at hlow hhigh
    by_cases hsign : 2 * n < 2 ^ 64
    · -- the number is not negative, and read as it is
      rw [if_pos hsign] at hD
      have hmod : n % (2 * p) = n := Nat.mod_eq_of_lt (by omega)
      have hnot : ¬ UInt64.ofNat n > 1 <<< (sz - 1).toUInt64 := by
        rw [gt_iff_lt, UInt64.lt_iff_toNat_lt, hhalf, UInt64.toNat_ofNat', Nat.mod_eq_of_lt hN]
        omega
      rw [hmod, if_neg hnot, ← hn, UInt64.ofNat_toNat]
    · rw [if_neg hsign] at hD
      obtain ⟨r, hr⟩ : ∃ r, n = r + (2 ^ 64 - 2 * p) := ⟨n - (2 ^ 64 - 2 * p), by omega⟩
      have hmod : n % (2 * p) = r := by
        have hmul : 2 ^ 64 - 2 * p = 2 * p * (q - 1) := by
          rw [Nat.mul_sub, ← hq, Nat.mul_one]
        rw [hr, hmul, Nat.add_mul_mod_self_left, Nat.mod_eq_of_lt (by omega)]
      have hgt : UInt64.ofNat r > 1 <<< (sz - 1).toUInt64 := by
        rw [gt_iff_lt, UInt64.lt_iff_toNat_lt, hhalf, UInt64.toNat_ofNat',
          Nat.mod_eq_of_lt (by omega)]
        omega
      rw [hmod, if_pos hgt]
      apply UInt64.toNat_inj.mp
      rw [UInt64.toNat_sub, hfull, UInt64.toNat_ofNat', hn]
      omega
  rw [hvalue, hd] at hread
  exact hread

/-- The selector is read, and then what it selects. -/
theorem reads_readDod {sel bs : List Bool} {d : UInt8} {dod : Int64}
    (hsel : Reads (readSelector 4 0) sel d)
    (h : Reads (fun br => match d with
      | 0b0 => some (0, br)
      | 0b10 => readSized 14 br
      | 0b110 => readSized 17 br
      | 0b1110 => readSized 20 br
      | 0b1111 => do
        let (bits, br) ← br.readBits 64
        some (bits.toInt64, br)
      | _ => none) bs dod) :
    Reads readDod (sel ++ bs) dod := by
  intro br rest hbr hbits
  rw [append_assoc] at hbits
  obtain ⟨br, hread, hbr, hbits⟩ := hsel br _ hbr hbits
  obtain ⟨br, hrest, hbr, hbits⟩ := h br rest hbr hbits
  refine ⟨br, ?_, hbr, hbits⟩
  simp only [readDod, hread, bind_eq_bind, bind_some]
  exact hrest

/-- The prefix and the 14 bits in two bytes. -/
theorem bits_dod14 (dod : Int64) :
    bitsBE 8 ((0b10 : UInt8) <<< 6 ||| ((dod >>> 8).toUInt64.toUInt8 &&& 0x3f)).toNat ++
      bitsBE 8 dod.toUInt64.toUInt8.toNat = [true, false] ++ bitsBE 14 dod.toUInt64.toNat := by
  have hlow : bitsBE 8 dod.toUInt64.toUInt8.toNat = bitsBE 8 dod.toUInt64.toNat := by
    rw [UInt64.toNat_toUInt8, bitsBE_mod le_rfl]
  have hmask : ((dod >>> 8).toUInt64.toUInt8 &&& 0x3f).toNat =
      (dod >>> 8).toUInt64.toNat % 2 ^ 6 := by
    rw [UInt8.toNat_and, show (0x3f : UInt8).toNat = 2 ^ 6 - 1 from rfl,
      Nat.and_two_pow_sub_one_eq_mod, UInt64.toNat_toUInt8]
    omega
  have hshift : bitsBE 6 (dod >>> 8).toUInt64.toNat = bitsBE 6 (dod.toUInt64.toNat / 2 ^ 8) := by
    refine bitsBE_congr fun i hi => ?_
    rw [Nat.testBit_div_two_pow]
    change (dod >>> 8).toBitVec.getLsbD i = dod.toBitVec.getLsbD (i + 8)
    rw [Int64.toBitVec_shiftRight, show (8 : Int64).toBitVec.smod 64 = 8#64 by decide,
      BitVec.sshiftRight_eq', BitVec.getLsbD_sshiftRight]
    have h64 : ¬ 64 ≤ i := by omega
    have h56 : ¬ 56 ≤ i := by omega
    simp [h64, h56, Nat.add_comm]
  have hhigh : bitsBE 8 ((0b10 : UInt8) <<< 6 ||| ((dod >>> 8).toUInt64.toUInt8 &&& 0x3f)).toNat =
      [true, false] ++ bitsBE 6 (dod.toUInt64.toNat / 2 ^ 8) := by
    have hzeros : bitsBE 6 ((0b10 : UInt8) <<< 6).toNat = List.replicate 6 false := by decide
    rw [UInt8.toNat_or, hmask, show (8 : ℕ) = 2 + 6 from rfl,
      bitsBE_or hzeros (Nat.mod_lt _ (by omega)), bitsBE_mod le_rfl, hshift]
    rfl
  rw [hlow, hhigh, append_assoc, show (14 : ℕ) = 6 + 8 from rfl, bitsBE_add]

theorem exists_writeDod_readDod (dod : Int64) :
    ∃ bs, Writes (writeDod · dod) bs ∧ Reads readDod bs dod := by
  by_cases hzero : dod = 0
  · refine ⟨[false], ?_, ?_⟩
    · simp only [writeDod, hzero, if_true]
      exact writes_writeBit false
    · rw [hzero]
      exact reads_readDod (reads_readSelector_zero 3 0) (Reads.pure _)
  · by_cases h14 : bitRange dod 14
    · refine ⟨[true, false] ++ bitsBE 14 dod.toUInt64.toNat, ?_, ?_⟩
      · simp only [writeDod, hzero, h14, if_false, if_true]
        rw [← bits_dod14]
        exact (writes_writeByte _).comp (writes_writeByte _)
      · exact reads_readDod (reads_readSelector_one (reads_readSelector_zero 2 _))
          (reads_readSized (by decide) (by decide) h14)
    · by_cases h17 : bitRange dod 17
      · refine ⟨[true, true, false] ++ bitsBE 17 dod.toUInt64.toNat, ?_, ?_⟩
        · simp only [writeDod, hzero, h14, h17, if_false, if_true]
          exact (writes_writeBits (by omega) (by omega) 0b110).comp
            (writes_writeBits (by omega) (by omega) _)
        · exact reads_readDod (reads_readSelector_one (reads_readSelector_one
            (reads_readSelector_zero 1 _))) (reads_readSized (by decide) (by decide) h17)
      · by_cases h20 : bitRange dod 20
        · refine ⟨[true, true, true, false] ++ bitsBE 20 dod.toUInt64.toNat, ?_, ?_⟩
          · simp only [writeDod, hzero, h14, h17, h20, if_false, if_true]
            exact (writes_writeBits (by omega) (by omega) 0b1110).comp
              (writes_writeBits (by omega) (by omega) _)
          · exact reads_readDod (reads_readSelector_one (reads_readSelector_one
              (reads_readSelector_one (reads_readSelector_zero 0 _))))
              (reads_readSized (by decide) (by decide) h20)
        · refine ⟨[true, true, true, true] ++ bitsBE 64 dod.toUInt64.toNat, ?_, ?_⟩
          · simp only [writeDod, hzero, h14, h17, h20, if_false]
            exact (writes_writeBits (by omega) (by omega) 0b1111).comp
              (writes_writeBits (by omega) (by omega) _)
          · have hread := (reads_readBits (n := 64) (by decide) (by decide) dod.toUInt64.toNat).map
              UInt64.toInt64
            have hvalue : (UInt64.ofNat (dod.toUInt64.toNat % 2 ^ (64 : UInt8).toNat)).toInt64 =
                dod := by
              rw [show (64 : UInt8).toNat = 64 from rfl, Nat.mod_eq_of_lt dod.toUInt64.toNat_lt,
                UInt64.ofNat_toNat]
              rfl
            rw [hvalue] at hread
            exact reads_readDod (reads_readSelector_one (reads_readSelector_one
              (reads_readSelector_one (reads_readSelector_one (Reads.pure _))))) hread

/-! ### The run -/

/-- The states of the encoder and of the decoder after `i` samples. -/
structure Agree (i : ℕ) (e : XorAppender) (it : XorIterator) : Prop where
  numRead_eq : it.numRead.toNat = i
  t_eq : 0 < i → it.t = e.prevT
  val_eq : it.val = e.prevV
  tDelta_eq : it.tDelta = e.prevTdelta
  window : AgreeWindow e.leading e.trailing it.leading it.trailing

theorem Agree.numRead_ne {i : ℕ} {e : XorAppender} {it : XorIterator} (h : Agree i e it)
    (hlt : i < it.numTotal.toNat) : it.numRead ≠ it.numTotal := fun heq => by
  have := h.numRead_eq
  rw [heq] at this
  omega

theorem toNat_numRead_succ {i : ℕ} {it : XorIterator} (h : it.numRead.toNat = i)
    (hlt : i < it.numTotal.toNat) : (it.numRead + 1).toNat = i + 1 := by
  have htotal := it.numTotal.toNat_lt
  rw [UInt16.toNat_add, h, UInt16.toNat_one]
  omega

/-- What a step writes, and what it reads back. -/
def StepInverse (i : ℕ) (e : XorAppender) (sample : XorSample) (bs : List Bool) : Prop :=
  (∀ done, e.w.Wrote done → (e.append i sample).w.Wrote (done ++ bs)) ∧
  ∀ it rest, Agree i e it → i < it.numTotal.toNat → it.br.Valid → it.br.bits = bs ++ rest →
    ∃ it', it.next = some (sample, it') ∧ Agree (i + 1) (e.append i sample) it' ∧
      it'.br.Valid ∧ it'.br.bits = rest ∧ it'.numTotal = it.numTotal

theorem exists_stepInverse_first (e : XorAppender) (sample : XorSample) :
    ∃ bs, StepInverse 0 e sample bs := by
  obtain ⟨t, v⟩ := sample
  refine ⟨byteBits (leb128 (zigzagEncode t).toNat) ++ bitsBE 64 v.toNat, fun done hw => ?_,
    fun it rest hagree hlt hbr hbits => ?_⟩
  · exact ((writes_writeVarint t).comp (writes_writeBits (by omega) (by omega) v)) _ _ hw
  · rw [append_assoc] at hbits
    obtain ⟨br, ht, hbr, hbits⟩ := reads_readVarint t it.br _ hbr hbits
    obtain ⟨br, hv, hbr, hbits⟩ :=
      reads_readBits (n := 64) (by decide) (by decide) v.toNat br _ hbr hbits
    have hvalue : UInt64.ofNat (v.toNat % 2 ^ (64 : UInt8).toNat) = v := by
      rw [show (64 : UInt8).toNat = 64 from rfl, Nat.mod_eq_of_lt v.toNat_lt, UInt64.ofNat_toNat]
    have hzero : it.numRead = 0 := UInt16.toNat_inj.mp hagree.numRead_eq
    rw [hvalue] at hv
    have hnext : it.next = some ((t, v),
        { it with br := br, t := t, val := v, numRead := it.numRead + 1 }) := by
      rw [XorIterator.next, if_neg (hagree.numRead_ne hlt), if_pos hzero, ht]
      simp only [bind_eq_bind, bind_some, hv]
    refine ⟨_, hnext, ⟨toNat_numRead_succ hagree.numRead_eq hlt, fun _ => rfl, rfl,
      hagree.tDelta_eq, hagree.window⟩, hbr, hbits, rfl⟩

/-- The value of a sample that is not the first one. -/
theorem readValue_eq (it : XorIterator) {bs rest : List Bool} {v : UInt64}
    {leading trailing : UInt8}
    (hread : Reads (xorRead it.val it.leading it.trailing) bs ⟨v, leading, trailing⟩)
    (hbr : it.br.Valid) (hbits : it.br.bits = bs ++ rest) :
    ∃ br, it.readValue = some ((it.t, v), { it with
        br := br, val := v, leading := leading, trailing := trailing, numRead := it.numRead + 1 }) ∧
      br.Valid ∧ br.bits = rest := by
  obtain ⟨br, hread, hbr, hbits⟩ := hread it.br rest hbr hbits
  refine ⟨br, ?_, hbr, hbits⟩
  rw [XorIterator.readValue, hread]
  rfl

/-- A step that writes a delta with `ds` and then the value. -/
theorem exists_stepInverse_of_delta {i : ℕ} {e : XorAppender} {t : Int64} {v : UInt64}
    {writeDelta : BWriter → BWriter} {ds : List Bool} (hwrite : Writes writeDelta ds)
    (happend : e.append i (t, v) =
      let (w, leading, trailing) := xorWrite (writeDelta e.w) v e.prevV e.leading e.trailing
      ⟨w, t, v, (t - e.prevT).toUInt64, leading, trailing⟩)
    (hnext : ∀ it rest, Agree i e it → i < it.numTotal.toNat → it.br.Valid →
      it.br.bits = ds ++ rest → ∃ br, br.Valid ∧ br.bits = rest ∧ it.next =
        { it with br := br, tDelta := (t - e.prevT).toUInt64, t := t }.readValue) :
    ∃ bs, StepInverse i e (t, v) bs := by
  obtain ⟨bs, window, hwindow, hwrites, hreads⟩ :=
    exists_xorWrite_xorRead v e.prevV e.leading e.trailing
  refine ⟨ds ++ bs, fun done hw => ?_, fun it rest hagree hlt hbr hbits => ?_⟩
  · rw [happend]
    exact (hwrite.comp hwrites) _ _ hw
  · rw [append_assoc] at hbits
    obtain ⟨br, hbr, hbits, heq⟩ := hnext it _ hagree hlt hbr hbits
    obtain ⟨leading, trailing, hread, hagree'⟩ := hreads _ _ hagree.window
    rw [← hagree.val_eq] at hread
    obtain ⟨br, hvalue, hbr, hbits⟩ := readValue_eq
      { it with br := br, tDelta := (t - e.prevT).toUInt64, t := t } hread hbr hbits
    rw [hvalue] at heq
    refine ⟨_, heq, ?_, hbr, hbits, rfl⟩
    rw [happend]
    refine ⟨toNat_numRead_succ hagree.numRead_eq hlt, fun _ => rfl, rfl, rfl, ?_⟩
    rw [← hwindow (writeDelta e.w)] at hagree'
    exact hagree'

/-- The timestamp that a delta leads to. -/
theorem add_delta {it : XorIterator} {i : ℕ} {e : XorAppender} (hagree : Agree i e it) (hi : 0 < i)
    (t : Int64) : it.t + (t - e.prevT).toUInt64.toInt64 = t := by
  rw [hagree.t_eq hi, Int64.add_comm]
  exact Int64.sub_add_cancel _ _

theorem exists_stepInverse (i : ℕ) (e : XorAppender) (sample : XorSample) :
    ∃ bs, StepInverse i e sample bs := by
  obtain ⟨t, v⟩ := sample
  match i with
  | 0 => exact exists_stepInverse_first e (t, v)
  | 1 =>
    refine exists_stepInverse_of_delta (writes_writeUvarint (t - e.prevT).toUInt64) rfl
      fun it rest hagree hlt hbr hbits => ?_
    obtain ⟨br, hdelta, hbr, hbits⟩ := reads_readUvarint (t - e.prevT).toUInt64 it.br _ hbr hbits
    have hone : it.numRead = 1 := UInt16.toNat_inj.mp hagree.numRead_eq
    refine ⟨br, hbr, hbits, ?_⟩
    rw [XorIterator.next, if_neg (hagree.numRead_ne hlt), if_neg (by rw [hone]; decide),
      if_pos hone, hdelta]
    simp only [bind_eq_bind, bind_some, add_delta hagree (by omega)]
  | i + 2 =>
    obtain ⟨ds, hwrite, hread⟩ := exists_writeDod_readDod
      ((t - e.prevT).toUInt64.toInt64 - e.prevTdelta.toInt64)
    refine exists_stepInverse_of_delta hwrite rfl fun it rest hagree hlt hbr hbits => ?_
    obtain ⟨br, hdod, hbr, hbits⟩ := hread it.br _ hbr hbits
    have hnum := hagree.numRead_eq
    have hdelta : (it.tDelta.toInt64 +
        ((t - e.prevT).toUInt64.toInt64 - e.prevTdelta.toInt64)).toUInt64 =
        (t - e.prevT).toUInt64 := by
      rw [hagree.tDelta_eq, Int64.add_comm, Int64.sub_add_cancel]
      rfl
    refine ⟨br, hbr, hbits, ?_⟩
    rw [XorIterator.next, if_neg (hagree.numRead_ne hlt),
      if_neg (fun h => by rw [h] at hnum; exact absurd hnum (Nat.succ_ne_zero _).symm),
      if_neg (fun h => by rw [h] at hnum; change 1 = i + 2 at hnum; omega), hdod]
    simp only [bind_eq_bind, bind_some, hdelta, add_delta hagree (by omega)]

/-- All samples are written, and read back in their order. -/
theorem exists_appendAll_collect (i : ℕ) (e : XorAppender) (samples : List XorSample) :
    ∃ bs, (∀ done, e.w.Wrote done → (e.appendAll i samples).w.Wrote (done ++ bs)) ∧
      ∀ it rest out, Agree i e it → i + samples.length ≤ it.numTotal.toNat → it.br.Valid →
        it.br.bits = bs ++ rest → it.collect samples.length out = .ok (out ++ samples) := by
  induction samples generalizing i e with
  | nil =>
    refine ⟨[], fun done hw => ?_, fun _ _ out _ _ _ _ => ?_⟩
    · rw [append_nil]
      exact hw
    · rw [append_nil]
      rfl
  | cons sample samples ih =>
    obtain ⟨bs, hwrite, hread⟩ := exists_stepInverse i e sample
    obtain ⟨cs, hwrites, hreads⟩ := ih (i + 1) (e.append i sample)
    refine ⟨bs ++ cs, fun done hw => ?_, fun it rest out hagree hle hbr hbits => ?_⟩
    · rw [← append_assoc]
      exact hwrites _ (hwrite done hw)
    · rw [length_cons] at hle
      rw [append_assoc] at hbits
      obtain ⟨it', hnext, hagree', hbr', hbits', htotal⟩ :=
        hread it _ hagree (by omega) hbr hbits
      have hrest := hreads it' rest (out ++ [sample]) hagree' (by rw [htotal]; omega) hbr' hbits'
      rw [length_cons, XorIterator.collect, hnext]
      simpa using hrest

/-- The header is in the first two bytes, and the samples behind it. -/
theorem encodeXorChunk_eq (samples : List XorSample) :
    ∃ b0 b1 body, encodeXorChunk samples = b0 :: b1 :: body ∧
      beNat [b0, b1] = samples.length % 2 ^ 16 ∧
      (XorAppender.start.appendAll 0 samples).w.stream.drop 2 = body := by
  obtain ⟨bs, hwrites, -⟩ := exists_appendAll_collect 0 XorAppender.start samples
  have hstart : XorAppender.start.w.Wrote (byteBits [0, 0]) := ⟨by decide, by decide⟩
  have hlen := congrArg List.length (hwrites _ hstart).bits_eq
  obtain ⟨stream, hstream⟩ : ∃ s, s = (XorAppender.start.appendAll 0 samples).w.stream := ⟨_, rfl⟩
  simp only [length_byteBits, length_append, length_replicate, ← hstream, length_cons,
    length_nil] at hlen
  match stream with
  | [] => simp at hlen; omega
  | [_] => simp at hlen; omega
  | c0 :: c1 :: body =>
    refine ⟨(UInt16.ofNat samples.length >>> 8).toUInt8,
      (UInt16.ofNat samples.length).toUInt8, body, ?_, ?_, by rw [← hstream]; rfl⟩
    · rw [encodeXorChunk, ← hstream]
      rfl
    · change (0 * 256 + _) * 256 + _ = _
      rw [UInt16.toNat_toUInt8, UInt16.toNat_toUInt8, UInt16.toNat_shiftRight,
        show (8 : UInt16).toNat % 16 = 8 from rfl, Nat.shiftRight_eq_div_pow, UInt16.toNat_ofNat']
      omega

/-- **XOR chunks round trip.** Every list of samples that fits into a chunk is decoded from it. -/
theorem decodeXorChunk_encodeXorChunk (samples : List XorSample) (h : samples.length ≤ 65535) :
    decodeXorChunk (encodeXorChunk samples) = .ok samples := by
  obtain ⟨b0, b1, body, hchunk, hcount, hbody⟩ := encodeXorChunk_eq samples
  obtain ⟨bs, hwrites, hreads⟩ := exists_appendAll_collect 0 XorAppender.start samples
  have hstart : XorAppender.start.w.Wrote (byteBits [0, 0]) := ⟨by decide, by decide⟩
  have hbits : byteBits body = bs ++ List.replicate
      (XorAppender.start.appendAll 0 samples).w.count false := by
    have hall := congrArg (List.drop (8 * 2)) (hwrites _ hstart).bits_eq
    rw [drop_byteBits, hbody, append_assoc, drop_left' (by decide)] at hall
    exact hall
  have htotal : (UInt16.ofNat (beNat [b0, b1])).toNat = samples.length := by
    rw [UInt16.toNat_ofNat', hcount]
    omega
  rw [hchunk, decodeXorChunk, XorIterator.new]
  dsimp only
  rw [htotal]
  exact hreads _ _ [] ⟨rfl, fun h => absurd h (by omega), rfl, rfl, .inl rfl⟩
    (by rw [htotal]; omega) (valid_new _) ((bits_new _).trans hbits)

/-- Timestamps at both ends of their range, and a value that differs from the one before in the
first and in the last bit. -/
theorem decodeXorChunk_encodeXorChunk_ends :
    decodeXorChunk (encodeXorChunk [(Int64.minValue, 0), (Int64.maxValue, 0x8000000000000001),
      (0, 0x8000000000000001), (8192, 1)]) =
    .ok [(Int64.minValue, 0), (Int64.maxValue, 0x8000000000000001), (0, 0x8000000000000001),
      (8192, 1)] :=
  decodeXorChunk_encodeXorChunk _ (by decide)

end Esmetrics.Esmctl
