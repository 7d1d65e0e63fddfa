import Esmetrics.Lib.BitString
import Esmetrics.Encoding.Int
import Esmetrics.Lib.Bits

/-!
# Bit streams

Model of the bit reader `BstreamReader` of `esmctl/src/chunkenc.rs` and of the bit writer `BWriter`
of its tests. Machine integers wrap and a shift takes its amount modulo the width, as in the release
build.

The reader keeps up to 64 bits in its buffer, and the last eight bytes of the stream are loaded in
smaller portions. `BstreamReader.bits` are the bits that it has still to read, in the buffer and
behind it, and `Reads f bs a` says that `f` takes the bits `bs` off and returns `a`, wherever they
stand. Likewise `Writes f bs` says that `f` appends the bits `bs` to a writer.
-/

namespace Esmetrics.Esmctl

open List

structure BstreamReader where
  stream : Bytes
  streamOffset : ℕ
  buffer : UInt64
  valid : UInt8
  last : UInt8

namespace BstreamReader

def new (b : Bytes) : BstreamReader :=
  let last := if b.isEmpty then 0 else b.getD (b.length - 1) 0
  { stream := b, streamOffset := 0, buffer := 0, valid := 0, last := last }

/-- The loop of `load_next_buffer` over the first `n` of the `nbytes` bytes that it takes from the
front of `tail`. -/
def assemble (tail : Bytes) (nbytes : ℕ) (buffer : UInt64) (n : ℕ) : UInt64 :=
  (List.range n).foldl (fun buffer i =>
    buffer ||| (tail.getD i 0).toUInt64 <<< UInt64.ofNat (8 * (nbytes - i - 1))) buffer

def loadNextBuffer (r : BstreamReader) (nbits : UInt8) : Bool × BstreamReader :=
  if r.streamOffset ≥ r.stream.length then (false, r)
  else if r.streamOffset + 8 < r.stream.length then
    let bytes := (r.stream.drop r.streamOffset).take 8
    (true, { r with
      buffer := UInt64.ofNat (beNat bytes), streamOffset := r.streamOffset + 8, valid := 64 })
  else
    let nbytes := (nbits / 8 + 1).toNat
    let nbytes :=
      if r.streamOffset + nbytes > r.stream.length then r.stream.length - r.streamOffset else nbytes
    -- the last byte may be written concurrently upstream, the copy of it is used
    let (buffer, skip) :=
      if r.streamOffset + nbytes = r.stream.length then (r.last.toUInt64, 1) else (0, 0)
    (true, { r with
      buffer := assemble (r.stream.drop r.streamOffset) nbytes buffer (nbytes - skip)
      streamOffset := r.streamOffset + nbytes
      valid := UInt8.ofNat (nbytes * 8) })

def readBitsFast (r : BstreamReader) (nbits : UInt8) : Option (UInt64 × BstreamReader) :=
  if nbits > r.valid then none
  else
    let bitmask : UInt64 := if nbits ≥ 64 then -1 else (1 <<< nbits.toUInt64) - 1
    let valid := r.valid - nbits
    some (r.buffer >>> valid.toUInt64 &&& bitmask, { r with valid := valid })

/-- Loads a buffer when there is nothing left in the current one. -/
def ensure (r : BstreamReader) (nbits : UInt8) : Option BstreamReader :=
  if r.valid = 0 then
    let (loaded, r) := r.loadNextBuffer nbits
    if loaded then some r else none
  else some r

def readBit (r : BstreamReader) : Option (Bool × BstreamReader) := do
  let r ← r.ensure 1
  if r.valid = 0 then none
  else
    let valid := r.valid - 1
    some (decide (r.buffer &&& 1 <<< valid.toUInt64 ≠ 0), { r with valid := valid })

def readBits (r : BstreamReader) (nbits : UInt8) : Option (UInt64 × BstreamReader) := do
  let r ← r.ensure nbits
  if nbits ≤ r.valid then r.readBitsFast nbits
  else
    -- the remaining valid bits, then some of the next buffer
    let bitmask : UInt64 := (1 <<< r.valid.toUInt64) - 1
    let nbits := nbits - r.valid
    let v := (r.buffer &&& bitmask) <<< nbits.toUInt64
    let (loaded, r) := { r with valid := 0 }.loadNextBuffer nbits
    if !loaded then none
    else
      let bitmask2 : UInt64 := (1 <<< nbits.toUInt64) - 1
      let v := v ||| (r.buffer >>> (r.valid - nbits).toUInt64 &&& bitmask2)
      some (v, { r with valid := r.valid - nbits })

def readByte (r : BstreamReader) : Option (UInt8 × BstreamReader) := do
  let (v, r) ← r.readBits 8
  some (v.toUInt8, r)

/-- The loop of `read_uvarint`, with the rounds that are left. -/
def readUvarintLoop : ℕ → UInt64 → ℕ → BstreamReader → Option (UInt64 × BstreamReader)
  | 0, _, _, _ => none
  | fuel + 1, x, s, r => do
    let (b, r) ← r.readByte
    if b < 0x80 then some (x ||| b.toUInt64 <<< UInt64.ofNat s, r)
    else readUvarintLoop fuel (x ||| (b &&& 0x7f).toUInt64 <<< UInt64.ofNat s) (s + 7) r

def readUvarint (r : BstreamReader) : Option (UInt64 × BstreamReader) := readUvarintLoop 10 0 0 r

def readVarint (r : BstreamReader) : Option (Int64 × BstreamReader) := do
  let (ux, r) ← r.readUvarint
  let x := (ux >>> 1).toInt64
  some (if ux &&& 1 ≠ 0 then ~~~x else x, r)

/-! ### The bits to read -/

/-- The bits that are still to be read. -/
def bits (r : BstreamReader) : List Bool :=
  bitsBE r.valid.toNat r.buffer.toNat ++ byteBits (r.stream.drop r.streamOffset)

structure Valid (r : BstreamReader) : Prop where
  valid_le : r.valid.toNat ≤ 64
  last_eq : r.last = r.stream.getD (r.stream.length - 1) 0

theorem valid_new (b : Bytes) : (new b).Valid := by
  refine ⟨by simp [new], ?_⟩
  cases b with
  | nil => rfl
  | cons b bs => rfl

theorem bits_new (b : Bytes) : (new b).bits = byteBits b := rfl

/-! ### Loading a buffer -/

theorem assemble_succ (tail : Bytes) (nbytes : ℕ) (buffer : UInt64) (n : ℕ) :
    assemble tail nbytes buffer (n + 1) = assemble tail nbytes buffer n |||
      (tail.getD n 0).toUInt64 <<< UInt64.ofNat (8 * (nbytes - n - 1)) := by
  rw [assemble, assemble, range_succ, foldl_append]
  rfl

theorem assemble_or (tail : Bytes) (nbytes : ℕ) (buffer : UInt64) (n : ℕ) :
    assemble tail nbytes buffer n = assemble tail nbytes 0 n ||| buffer := by
  induction n with
  | zero => simp [assemble]
  | succ n ih =>
    rw [assemble_succ, assemble_succ, ih, UInt64.or_assoc, UInt64.or_assoc, UInt64.or_comm buffer]

/-- The bytes stand side by side in the buffer. -/
theorem toNat_assemble {tail : Bytes} {nbytes n : ℕ} (hn : n ≤ nbytes) (hlen : nbytes ≤ tail.length)
    (height : nbytes ≤ 8) :
    (assemble tail nbytes 0 n).toNat = 2 ^ (8 * (nbytes - n)) * beNat (tail.take n) := by
  induction n with
  | zero => simp [assemble, beNat]
  | succ n ih =>
    have htake : tail.take (n + 1) = tail.take n ++ [tail.getD n 0] := by
      rw [take_succ_eq_append_getElem (by omega), getD_eq_getElem _ _ (by omega)]
    obtain ⟨m, hm⟩ : ∃ m, nbytes - n = m + 1 := ⟨nbytes - n - 1, by omega⟩
    have hbyte := (tail.getD n 0).toNat_lt
    have hpow : 2 ^ (8 * m) ≤ 2 ^ 56 := Nat.pow_le_pow_right (by omega) (by omega)
    have hsmall : (tail.getD n 0).toNat * 2 ^ (8 * m) < 2 ^ (8 * (m + 1)) := by
      rw [Nat.mul_add, pow_add, Nat.mul_comm]
      exact Nat.mul_lt_mul_of_pos_left hbyte (Nat.two_pow_pos _)
    have hshift : ((tail.getD n 0).toUInt64 <<< UInt64.ofNat (8 * (nbytes - n - 1))).toNat =
        (tail.getD n 0).toNat * 2 ^ (8 * m) := by
      rw [show nbytes - n - 1 = m by omega, toNat_shiftLeft_of_lt (by omega), UInt8.toNat_toUInt64]
      rw [UInt8.toNat_toUInt64]
      calc (tail.getD n 0).toNat * 2 ^ (8 * m) ≤ (tail.getD n 0).toNat * 2 ^ 56 :=
            Nat.mul_le_mul_left _ hpow
        _ < 2 ^ 64 := by omega
    rw [assemble_succ, UInt64.toNat_or, ih (by omega), hshift, htake, beNat_append_singleton, hm,
      ← Nat.two_pow_add_eq_or_of_lt hsmall, show nbytes - (n + 1) = m by omega,
      Nat.mul_add 8, pow_add]
    ring

/-- The copy of the last byte takes its place. -/
theorem assemble_last {tail : Bytes} {nbytes : ℕ} {last : UInt8} (hpos : 0 < nbytes)
    (hlast : last = tail.getD (nbytes - 1) 0) :
    assemble tail nbytes last.toUInt64 (nbytes - 1) = assemble tail nbytes 0 nbytes := by
  obtain ⟨n, rfl⟩ : ∃ n, nbytes = n + 1 := ⟨nbytes - 1, by omega⟩
  rw [assemble_succ, Nat.add_sub_cancel, assemble_or, hlast]
  simp

variable {r : BstreamReader} {rest : List Bool}

/-- Loading takes some of the bytes that follow, enough for `nbits` or all of them. -/
theorem exists_loadNextBuffer {nbits : UInt8} (h : r.streamOffset < r.stream.length) (hr : r.Valid)
    (hn : nbits.toNat ≤ 64) :
    ∃ k, 0 < k ∧ k ≤ 8 ∧ r.streamOffset + k ≤ r.stream.length ∧
      (nbits.toNat ≤ 8 * k ∨ r.streamOffset + k = r.stream.length) ∧
      r.loadNextBuffer nbits = (true, { r with
        buffer := UInt64.ofNat (beNat ((r.stream.drop r.streamOffset).take k))
        streamOffset := r.streamOffset + k
        valid := UInt8.ofNat (k * 8) }) := by
  rw [loadNextBuffer, if_neg (by omega)]
  split
  · exact ⟨8, by omega, le_rfl, by omega, .inl (by omega), rfl⟩
  · have hnbytes : (nbits / 8 + 1).toNat = nbits.toNat / 8 + 1 := by
      rw [UInt8.toNat_add, UInt8.toNat_div]
      change (nbits.toNat / 8 + 1) % 256 = _
      omega
    obtain ⟨k, hk⟩ : ∃ k, k = if r.streamOffset + (nbits / 8 + 1).toNat > r.stream.length
        then r.stream.length - r.streamOffset else (nbits / 8 + 1).toNat := ⟨_, rfl⟩
    have hcases : 0 < k ∧ k ≤ 8 ∧ r.streamOffset + k ≤ r.stream.length ∧
        (nbits.toNat ≤ 8 * k ∨ r.streamOffset + k = r.stream.length) := by
      rw [hnbytes] at hk
      split at hk <;> omega
    obtain ⟨hpos, height, hle, henough⟩ := hcases
    have hlen : k ≤ (r.stream.drop r.streamOffset).length := by
      rw [length_drop]
      omega
    have hnat := toNat_assemble le_rfl hlen height
    rw [Nat.sub_self, Nat.mul_zero, pow_zero, Nat.one_mul] at hnat
    have hbuffer : assemble (r.stream.drop r.streamOffset) k 0 k =
        UInt64.ofNat (beNat ((r.stream.drop r.streamOffset).take k)) := by
      rw [← hnat, UInt64.ofNat_toNat]
    refine ⟨k, hpos, height, hle, henough, ?_⟩
    simp only [← hk]
    by_cases hall : r.streamOffset + k = r.stream.length
    · have hlast : r.last = (r.stream.drop r.streamOffset).getD (k - 1) 0 := by
        rw [hr.last_eq, getD_eq_getElem?_getD, getD_eq_getElem?_getD, getElem?_drop,
          ← hall, Nat.add_sub_assoc hpos]
      rw [if_pos hall, assemble_last hpos hlast, hbuffer]
    · rw [if_neg hall, Nat.sub_zero, hbuffer]

/-- The bits of a buffer that was just loaded. -/
theorem bitsBE_load {tail : Bytes} {k : ℕ} (hlen : k ≤ tail.length) (height : k ≤ 8) :
    bitsBE (UInt8.ofNat (k * 8)).toNat (UInt64.ofNat (beNat (tail.take k))).toNat =
      byteBits (tail.take k) := by
  have htake : (tail.take k).length = k := by
    rw [length_take]
    omega
  have hlt : beNat (tail.take k) < 2 ^ 64 := by
    refine lt_of_lt_of_le (beNat_lt _) (Nat.pow_le_pow_right (by omega) ?_)
    omega
  rw [toNat_ofNat_of_lt (by omega), UInt64.toNat_ofNat', Nat.mod_eq_of_lt hlt, Nat.mul_comm]
  conv_lhs => rw [← htake]
  rw [htake, ← bitsBE_beNat, htake]

/-- Loading into an empty buffer changes nothing in what is to be read. -/
theorem bits_loadNextBuffer {nbits : UInt8} (hzero : r.valid = 0) (hbits : r.bits ≠ [])
    (hr : r.Valid)
    (hn : nbits.toNat ≤ 64) :
    ∃ r', r.loadNextBuffer nbits = (true, r') ∧ r'.Valid ∧ r'.bits = r.bits ∧
      0 < r'.valid.toNat ∧ (nbits.toNat ≤ r'.valid.toNat ∨ r'.valid.toNat = r.bits.length) := by
  have hempty : r.bits = byteBits (r.stream.drop r.streamOffset) := by
    rw [bits, hzero]
    rfl
  have hoffset : r.streamOffset < r.stream.length := by
    by_contra hge
    rw [hempty, drop_of_length_le (by omega)] at hbits
    exact hbits rfl
  obtain ⟨k, hpos, height, hle, henough, hload⟩ := exists_loadNextBuffer hoffset hr hn
  have hvalid : (UInt8.ofNat (k * 8)).toNat = k * 8 := toNat_ofNat_of_lt (by omega)
  have hlen : k ≤ (r.stream.drop r.streamOffset).length := by
    rw [length_drop]
    omega
  refine ⟨_, hload, ⟨?_, hr.last_eq⟩, ?_, ?_, ?_⟩
  · rw [hvalid]
    omega
  · rw [bits, bitsBE_load hlen height, hempty, ← byteBits_append, ← drop_drop,
      take_append_drop]
  · rw [hvalid]
    omega
  · rw [hvalid, hempty, length_byteBits, length_drop]
    omega

/-! ### Reading -/

/-- `f` takes the bits `bs` off the stream and returns `a`. -/
def Reads {α : Type} (f : BstreamReader → Option (α × BstreamReader)) (bs : List Bool)
    (a : α) : Prop :=
  ∀ r rest, r.Valid → r.bits = bs ++ rest → ∃ r', f r = some (a, r') ∧ r'.Valid ∧ r'.bits = rest

theorem Reads.bind {α β : Type} {f : BstreamReader → Option (α × BstreamReader)}
    {g : α → BstreamReader → Option (β × BstreamReader)} {bs cs : List Bool} {a : α} {b : β}
    (hf : Reads f bs a) (hg : Reads (g a) cs b) :
    Reads (fun r => f r >>= fun p => g p.1 p.2) (bs ++ cs) b := by
  intro r rest hr hbits
  rw [append_assoc] at hbits
  obtain ⟨r', hread, hr', hbits'⟩ := hf r _ hr hbits
  obtain ⟨r'', hread', hr'', hbits''⟩ := hg r' rest hr' hbits'
  exact ⟨r'', by simp only [hread, Option.bind_eq_bind, Option.bind_some, hread'], hr'', hbits''⟩

theorem Reads.map {α β : Type} {f : BstreamReader → Option (α × BstreamReader)} {bs : List Bool}
    {a : α} (hf : Reads f bs a) (g : α → β) :
    Reads (fun r => f r >>= fun p => some (g p.1, p.2)) bs (g a) := by
  intro r rest hr hbits
  obtain ⟨r', hread, hr', hbits'⟩ := hf r rest hr hbits
  exact ⟨r', by simp only [hread, Option.bind_eq_bind, Option.bind_some], hr', hbits'⟩

theorem exists_ensure {nbits : UInt8} (hbits : r.bits ≠ []) (hr : r.Valid) (hn : nbits.toNat ≤ 64) :
    ∃ r', r.ensure nbits = some r' ∧ r'.Valid ∧ r'.bits = r.bits ∧ 0 < r'.valid.toNat := by
  by_cases hzero : r.valid = 0
  · obtain ⟨r', hload, hr', hbits', hpos, -⟩ := bits_loadNextBuffer hzero hbits hr hn
    refine ⟨r', ?_, hr', hbits', hpos⟩
    rw [ensure, if_pos hzero, hload]
    rfl
  · refine ⟨r, if_neg hzero, hr, rfl, ?_⟩
    have hne : r.valid.toNat ≠ 0 := fun h => hzero (UInt8.toNat_inj.mp h)
    omega

theorem toNat_toUInt64_mod {n : UInt8} (h : n.toNat < 64) : n.toUInt64.toNat % 64 = n.toNat := by
  rw [UInt8.toNat_toUInt64, Nat.mod_eq_of_lt h]

/-- The mask of the low `n` bits. -/
theorem toNat_and_mask {n : UInt8} (x : UInt64) (h : n.toNat < 64) :
    (x &&& (1 <<< n.toUInt64 - 1)).toNat = x.toNat % 2 ^ n.toNat := by
  have hpow : 2 ^ n.toNat < 2 ^ 64 := Nat.pow_lt_pow_right (by omega) h
  have hone : (1 : UInt64) ≤ 1 <<< n.toUInt64 := by
    rw [UInt64.le_iff_toNat_le, UInt64.toNat_shiftLeft, toNat_toUInt64_mod h, UInt64.toNat_one,
      Nat.one_shiftLeft, Nat.mod_eq_of_lt hpow]
    exact Nat.one_le_two_pow
  have hmask : (1 <<< n.toUInt64 - 1 : UInt64).toNat = 2 ^ n.toNat - 1 := by
    rw [UInt64.toNat_sub_of_le _ _ hone, UInt64.toNat_shiftLeft, toNat_toUInt64_mod h,
      UInt64.toNat_one, Nat.one_shiftLeft, Nat.mod_eq_of_lt hpow]
  rw [UInt64.toNat_and, hmask, Nat.and_two_pow_sub_one_eq_mod]

theorem toNat_valid_sub {n : UInt8} (h : n.toNat ≤ r.valid.toNat) :
    (r.valid - n).toNat = r.valid.toNat - n.toNat :=
  UInt8.toNat_sub_of_le _ _ (UInt8.le_iff_toNat_le.mpr h)

/-- Taking bits that are all in the buffer. -/
theorem take_buffer {n : UInt8} {v : ℕ} (hr : r.Valid) (hpos : 0 < n.toNat)
    (hle : n.toNat ≤ r.valid.toNat)
    (hbits : r.bits = bitsBE n.toNat v ++ rest) :
    (r.buffer >>> (r.valid - n).toUInt64).toNat % 2 ^ n.toNat = v % 2 ^ n.toNat ∧
      ({ r with valid := r.valid - n } : BstreamReader).Valid ∧
      ({ r with valid := r.valid - n } : BstreamReader).bits = rest := by
  have hvalid := hr.valid_le
  have hsub := toNat_valid_sub hle
  obtain ⟨m, hm⟩ : ∃ m, r.valid.toNat = n.toNat + m := ⟨r.valid.toNat - n.toNat, by omega⟩
  rw [bits, hm, bitsBE_add, append_assoc] at hbits
  obtain ⟨htaken, hrest⟩ := append_inj hbits (by simp)
  have hshift : (r.buffer >>> (r.valid - n).toUInt64).toNat = r.buffer.toNat / 2 ^ m := by
    rw [UInt64.toNat_shiftRight, toNat_toUInt64_mod (by omega), Nat.shiftRight_eq_div_pow, hsub, hm,
      Nat.add_sub_cancel_left]
  refine ⟨?_, ⟨?_, hr.last_eq⟩, ?_⟩
  · rw [hshift]
    exact bitsBE_inj htaken
  · rw [hsub]
    omega
  · rw [bits, hsub, hm, Nat.add_sub_cancel_left]
    exact hrest

theorem reads_readBit (b : Bool) : Reads readBit [b] b := by
  intro r rest hr hbits
  have one_le : (1 : UInt8).toNat ≤ 64 := by decide
  obtain ⟨r', hensure, hr', hbits', hpos⟩ := exists_ensure (by simp [hbits]) hr one_le
  have hle : (1 : UInt8).toNat ≤ r'.valid.toNat := hpos
  have hone : [b] = bitsBE (1 : UInt8).toNat b.toNat := by cases b <;> rfl
  rw [hbits, hone] at hbits'
  obtain ⟨htaken, hvalid, hrest⟩ := take_buffer hr' (by decide) hle hbits'
  refine ⟨_, ?_, hvalid, hrest⟩
  have hne : r'.valid ≠ 0 := fun h => by
    rw [h] at hpos
    exact absurd hpos (by decide)
  have hlt : (r'.valid - 1).toNat < 64 := by
    have hvalid' := hr'.valid_le
    rw [toNat_valid_sub hle]
    change r'.valid.toNat - 1 < 64
    omega
  have hmask : (1 : UInt64) <<< (r'.valid - 1).toUInt64 = bitMask (r'.valid - 1).toNat := by
    rw [bitMask]
    congr 1
    apply UInt64.toNat_inj.mp
    rw [UInt8.toNat_toUInt64, UInt64.toNat_ofNat', Nat.mod_eq_of_lt (by omega)]
  have hbit : testBit r'.buffer (r'.valid - 1).toNat = b := by
    rw [UInt64.toNat_shiftRight, toNat_toUInt64_mod hlt, Nat.shiftRight_eq_div_pow] at htaken
    change _ % 2 = b.toNat % 2 at htaken
    rw [testBit, Nat.testBit_eq_decide_div_mod_eq, htaken]
    cases b <;> rfl
  rw [readBit, hensure, Option.bind_eq_bind, Option.bind_some, if_neg hne]
  have hdecide : decide (r'.buffer &&& 1 <<< (r'.valid - 1).toUInt64 ≠ 0) = b := by
    simp only [hmask, Ne, and_bitMask_eq_zero_iff hlt, hbit, Bool.not_eq_false, Bool.decide_eq_true]
  simp only [hdecide]

/-- The value that is taken from the buffer. -/
theorem buffer_and_mask {n : UInt8} {v : ℕ} (hr : r.Valid) (hpos : 0 < n.toNat)
    (hle : n.toNat ≤ r.valid.toNat)
    (hlt : n.toNat < 64) (hbits : r.bits = bitsBE n.toNat v ++ rest) :
    (r.buffer >>> (r.valid - n).toUInt64 &&& (1 <<< n.toUInt64 - 1)).toNat = v % 2 ^ n.toNat := by
  obtain ⟨htaken, -, -⟩ := take_buffer hr hpos hle hbits
  rw [toNat_and_mask _ hlt, htaken]

theorem readBitsFast_eq {n : UInt8} {v : ℕ} (hr : r.Valid) (hpos : 0 < n.toNat)
    (hle : n.toNat ≤ r.valid.toNat)
    (hbits : r.bits = bitsBE n.toNat v ++ rest) :
    r.readBitsFast n = some (UInt64.ofNat (v % 2 ^ n.toNat), { r with valid := r.valid - n }) := by
  have hvalid := hr.valid_le
  have hlt : v % 2 ^ n.toNat < 2 ^ 64 :=
    lt_of_lt_of_le (Nat.mod_lt _ (Nat.two_pow_pos _)) (Nat.pow_le_pow_right (by omega) (by omega))
  have hvalue : (r.buffer >>> (r.valid - n).toUInt64 &&&
      (if n ≥ 64 then -1 else 1 <<< n.toUInt64 - 1 : UInt64)) = UInt64.ofNat (v % 2 ^ n.toNat) := by
    apply UInt64.toNat_inj.mp
    rw [UInt64.toNat_ofNat', Nat.mod_eq_of_lt hlt]
    by_cases h64 : n ≥ 64
    · have hn : n.toNat = 64 := by
        have hge := UInt8.le_iff_toNat_le.mp h64
        change 64 ≤ n.toNat at hge
        omega
      obtain ⟨htaken, -, -⟩ := take_buffer hr hpos hle hbits
      rw [if_pos h64, UInt64.and_neg_one, ← htaken, hn, Nat.mod_eq_of_lt (UInt64.toNat_lt _)]
    · have hn : n.toNat < 64 := UInt8.lt_iff_toNat_lt.mp (UInt8.not_le.mp h64)
      rw [if_neg h64, buffer_and_mask hr hpos hle hn hbits]
  rw [readBitsFast, if_neg (by simpa [UInt8.lt_iff_toNat_lt] using hle), ← hvalue]

theorem reads_readBits {n : UInt8} (hpos : 0 < n.toNat) (hn : n.toNat ≤ 64) (v : ℕ) :
    Reads (readBits · n) (bitsBE n.toNat v) (UInt64.ofNat (v % 2 ^ n.toNat)) := by
  intro r rest hr hbits
  have hne : r.bits ≠ [] := by
    rw [hbits]
    refine append_ne_nil_of_left_ne_nil (length_pos_iff.mp ?_) _
    rwa [length_bitsBE]
  obtain ⟨r', hensure, hr', hbits', hpos'⟩ := exists_ensure hne hr hn
  rw [hbits] at hbits'
  dsimp only
  rw [readBits, hensure, Option.bind_eq_bind, Option.bind_some]
  by_cases hle : n ≤ r'.valid
  · rw [if_pos hle, readBitsFast_eq hr' hpos (UInt8.le_iff_toNat_le.mp hle) hbits']
    exact ⟨_, rfl, (take_buffer hr' hpos (UInt8.le_iff_toNat_le.mp hle) hbits').2⟩
  · rw [if_neg hle]
    have hlt : r'.valid.toNat < n.toNat := UInt8.lt_iff_toNat_lt.mp (UInt8.not_le.mp hle)
    have hsub : (n - r'.valid).toNat = n.toNat - r'.valid.toNat :=
      UInt8.toNat_sub_of_le _ _ (UInt8.le_iff_toNat_le.mpr hlt.le)
    obtain ⟨m, hm⟩ : ∃ m, m = n - r'.valid := ⟨_, rfl⟩
    rw [← hm] at hsub ⊢
    -- what is in the buffer, and what the next one has to give
    have hsplit : n.toNat = r'.valid.toNat + m.toNat := by omega
    rw [bits, hsplit, bitsBE_add, append_assoc] at hbits'
    obtain ⟨hhigh, hlow⟩ := append_inj hbits' (by simp)
    have hr1 : ({ r' with valid := 0 } : BstreamReader).Valid := ⟨Nat.zero_le _, hr'.last_eq⟩
    have hbits1 : ({ r' with valid := 0 } : BstreamReader).bits = bitsBE m.toNat v ++ rest := hlow
    have hne1 : ({ r' with valid := 0 } : BstreamReader).bits ≠ [] := by
      rw [hbits1]
      refine append_ne_nil_of_left_ne_nil (length_pos_iff.mp ?_) _
      rw [length_bitsBE]
      omega
    have hm64 : m.toNat ≤ 64 := by omega
    obtain ⟨r2, hload, hr2, hbits2, -, henough⟩ := bits_loadNextBuffer rfl hne1 hr1 hm64
    rw [hbits1] at hbits2 henough
    have hle2 : m.toNat ≤ r2.valid.toNat := by
      rw [length_append, length_bitsBE] at henough
      omega
    have hrest := (take_buffer hr2 (by omega) hle2 hbits2).2
    have hlowVal := buffer_and_mask hr2 (by omega) hle2 (by omega) hbits2
    have hvalue : ((r'.buffer &&& (1 <<< r'.valid.toUInt64 - 1)) <<< m.toUInt64 |||
        (r2.buffer >>> (r2.valid - m).toUInt64 &&& (1 <<< m.toUInt64 - 1))) =
        UInt64.ofNat (v % 2 ^ n.toNat) := by
      apply UInt64.toNat_inj.mp
      have hmod : v % 2 ^ n.toNat = 2 ^ m.toNat * (v / 2 ^ m.toNat % 2 ^ r'.valid.toNat) +
          v % 2 ^ m.toNat := by
        rw [hsplit, Nat.add_comm, pow_add, Nat.mod_mul, Nat.add_comm]
      have hmodlt : v % 2 ^ n.toNat < 2 ^ 64 :=
        lt_of_lt_of_le (Nat.mod_lt _ (Nat.two_pow_pos _)) (Nat.pow_le_pow_right (by omega) hn)
      rw [UInt64.toNat_or, hlowVal, UInt64.toNat_shiftLeft, toNat_and_mask _ (by omega),
        toNat_toUInt64_mod (by omega), bitsBE_inj hhigh, Nat.shiftLeft_eq, Nat.mul_comm,
        UInt64.toNat_ofNat', Nat.mod_eq_of_lt hmodlt, Nat.mod_eq_of_lt (by omega),
        ← Nat.two_pow_add_eq_or_of_lt (Nat.mod_lt _ (Nat.two_pow_pos _)), hmod]
    simp only [hload, Bool.not_true, Bool.false_eq_true, if_false, hvalue]
    exact ⟨_, rfl, hrest⟩

theorem reads_readByte (b : UInt8) : Reads readByte (bitsBE 8 b.toNat) b := by
  have h := (reads_readBits (n := 8) (by decide) (by decide) b.toNat).map UInt64.toUInt8
  have hb : (UInt64.ofNat (b.toNat % 2 ^ (8 : UInt8).toNat)).toUInt8 = b := by
    apply UInt8.toNat_inj.mp
    have hlt := b.toNat_lt
    rw [UInt64.toNat_toUInt8, UInt64.toNat_ofNat', show (8 : UInt8).toNat = 8 from rfl]
    omega
  rw [hb] at h
  exact h

theorem Reads.pure {α : Type} (a : α) : Reads (fun r => some (a, r)) [] a :=
  fun r _ hr hbits => ⟨r, rfl, hr, hbits⟩

/-- What the loop does with one byte. -/
theorem reads_readUvarintLoop_succ {fuel s : ℕ} {x y : UInt64} {b : UInt8} {bs : List Bool}
    (h : Reads (fun r => if b < 0x80 then some (x ||| b.toUInt64 <<< UInt64.ofNat s, r)
      else readUvarintLoop fuel (x ||| (b &&& 0x7f).toUInt64 <<< UInt64.ofNat s) (s + 7) r) bs y) :
    Reads (readUvarintLoop (fuel + 1) x s) (bitsBE 8 b.toNat ++ bs) y := by
  have hbind := (reads_readByte b).bind (g := fun (b : UInt8) r => if b < 0x80 then
    some (x ||| b.toUInt64 <<< UInt64.ofNat s, r)
    else readUvarintLoop fuel (x ||| (b &&& 0x7f).toUInt64 <<< UInt64.ofNat s) (s + 7) r) h
  exact hbind

theorem reads_readUvarintLoop {bs : Bytes} {fuel s : ℕ} {x : UInt64} (h : IsVarint bs)
    (hfuel : bs.length ≤ fuel) :
    Reads (readUvarintLoop fuel x s) (byteBits bs) (x ||| orPayload s bs) := by
  induction bs generalizing fuel s x with
  | nil => exact h.elim
  | cons b bs ih =>
    rw [length_cons] at hfuel
    obtain ⟨fuel, rfl⟩ : ∃ n, fuel = n + 1 := ⟨fuel - 1, by omega⟩
    refine reads_readUvarintLoop_succ ?_
    by_cases hbs : bs = []
    · subst hbs
      have hb : b.toNat < 128 := h
      have hlt : b < 0x80 := UInt8.lt_iff_toNat_lt.mpr hb
      simp only [hlt, if_true, orPayload, UInt64.or_zero, and_7f_of_lt hb]
      exact Reads.pure _
    · obtain ⟨hb, hrest⟩ := (isVarint_cons hbs).mp h
      have hge : ¬ b < 0x80 := fun hlt => by
        have := UInt8.lt_iff_toNat_lt.mp hlt
        exact absurd this (Nat.not_lt.mpr hb)
      simp only [hge, if_false, orPayload, ← UInt64.or_assoc]
      exact ih hrest (by omega)

theorem reads_readUvarint (u : UInt64) : Reads readUvarint (byteBits (leb128 u.toNat)) u := by
  have h := reads_readUvarintLoop (s := 0) (x := 0) (isVarint_leb128 u.toNat)
    (length_leb128_le_ten u.toNat_lt)
  rw [UInt64.zero_or, (isVarint64_leb128 u).orPayload_eq] at h
  exact h

/-- The sign of a zig-zag number is its lowest bit. -/
theorem unzigzag_eq (u : UInt64) :
    (if u &&& 1 ≠ 0 then ~~~(u >>> 1).toInt64 else (u >>> 1).toInt64) = zigzagDecode u := by
  have hand : (u &&& 1).toNat = u.toNat % 2 := by
    rw [UInt64.toNat_and, show (1 : UInt64).toNat = 2 ^ 1 - 1 from rfl,
      Nat.and_two_pow_sub_one_eq_mod]
  have hshift : (u <<< 63).toNat = u.toNat % 2 * 2 ^ 63 := by
    rw [UInt64.toNat_shiftLeft, show (63 : UInt64).toNat % 64 = 63 from rfl, Nat.shiftLeft_eq]
    omega
  rw [zigzagDecode]
  by_cases h : u &&& 1 = 0
  · rw [h] at hand
    have hzero : u <<< 63 = 0 := by
      apply UInt64.toNat_inj.mp
      rw [hshift, ← hand]
      rfl
    rw [if_neg (not_not.mpr h), hzero, show (0 : UInt64).toInt64 >>> 63 = 0 by decide,
      Int64.xor_zero]
  · have hne : (u &&& 1).toNat ≠ 0 := fun h0 => h (UInt64.toNat_inj.mp h0)
    have hhigh : u <<< 63 = 0x8000000000000000 := by
      apply UInt64.toNat_inj.mp
      rw [hshift, show u.toNat % 2 = 1 by omega]
      rfl
    rw [if_pos h, hhigh, show (0x8000000000000000 : UInt64).toInt64 >>> 63 = -1 by decide,
      Int64.xor_neg_one]

theorem reads_readVarint (v : Int64) :
    Reads readVarint (byteBits (leb128 (zigzagEncode v).toNat)) v := by
  have h := (reads_readUvarint (zigzagEncode v)).map
    (fun ux => if ux &&& 1 ≠ 0 then ~~~(ux >>> 1).toInt64 else (ux >>> 1).toInt64)
  rw [unzigzag_eq, zigzagDecode_zigzagEncode] at h
  exact h

end BstreamReader

/-! ### The writer -/

structure BWriter where
  stream : Bytes
  /-- The number of bits of the last byte that are still free. -/
  count : ℕ

namespace BWriter

/-- The assignment `stream[i] |= x` to the last byte. -/
def orLast (stream : Bytes) (x : UInt8) : Bytes :=
  let i := stream.length - 1
  stream.set i (stream.getD i 0 ||| x)

def writeBit (w : BWriter) (bit : Bool) : BWriter :=
  let w := if w.count = 0 then ⟨w.stream ++ [0], 8⟩ else w
  let stream := if bit then orLast w.stream (1 <<< UInt8.ofNat (w.count - 1)) else w.stream
  ⟨stream, w.count - 1⟩

def writeByte (w : BWriter) (byt : UInt8) : BWriter :=
  if w.count = 0 then { w with stream := w.stream ++ [byt] }
  else
    let stream := orLast w.stream (byt >>> UInt8.ofNat (8 - w.count))
    { w with stream := stream ++ [byt <<< UInt8.ofNat w.count] }

/-- The loop `while nbits > 0`. -/
def writeLowBits : ℕ → UInt64 → BWriter → BWriter
  | 0, _, w => w
  | nbits + 1, u, w => writeLowBits nbits (u <<< 1) (w.writeBit (u >>> 63 = 1))

/-- The loop `while nbits >= 8`, and the one that follows it. -/
def writeHighBits (nbits : ℕ) (u : UInt64) (w : BWriter) : BWriter :=
  if nbits ≥ 8 then writeHighBits (nbits - 8) (u <<< 8) (w.writeByte (u >>> 56).toUInt8)
  else writeLowBits nbits u w

def writeBits (w : BWriter) (u : UInt64) (nbits : ℕ) : BWriter :=
  writeHighBits nbits (u <<< UInt64.ofNat (64 - nbits)) w

def writeUvarint (w : BWriter) (v : UInt64) : BWriter :=
  if _h : v ≥ 0x80 then (w.writeByte (v.toUInt8 ||| 0x80)).writeUvarint (v >>> 7)
  else w.writeByte v.toUInt8
termination_by v.toNat
decreasing_by
  have hge := UInt64.le_iff_toNat_le.mp _h
  change 128 ≤ v.toNat at hge
  rw [UInt64.toNat_shiftRight, show (7 : UInt64).toNat % 64 = 7 from rfl,
    Nat.shiftRight_eq_div_pow]
  omega

def writeVarint (w : BWriter) (v : Int64) : BWriter :=
  w.writeUvarint (v <<< 1 ^^^ v >>> 63).toUInt64

/-- The bits `bs` were written, and the free bits of the last byte are zeros. -/
structure Wrote (w : BWriter) (bs : List Bool) : Prop where
  count_lt : w.count < 8
  bits_eq : byteBits w.stream = bs ++ List.replicate w.count false

/-- `f` appends the bits `bs`. -/
def Writes (f : BWriter → BWriter) (bs : List Bool) : Prop :=
  ∀ w done, w.Wrote done → (f w).Wrote (done ++ bs)

theorem Writes.comp {f g : BWriter → BWriter} {bs cs : List Bool} (hf : Writes f bs)
    (hg : Writes g cs) : Writes (fun w => g (f w)) (bs ++ cs) := by
  intro w done hw
  rw [← append_assoc]
  exact hg _ _ (hf w done hw)

/-- Filling the free bits of the last byte. -/
theorem byteBits_orLast {stream : Bytes} {done : List Bool} {count : ℕ} {x : UInt8}
    (hpos : 0 < count) (hle : count ≤ 8)
    (h : byteBits stream = done ++ List.replicate count false) (hx : x.toNat < 2 ^ count) :
    byteBits (orLast stream x) = done ++ bitsBE count x.toNat := by
  have hne : stream ≠ [] := by
    rintro rfl
    have := congrArg List.length h
    simp only [byteBits_nil, length_nil, length_append, length_replicate] at this
    omega
  obtain ⟨init, last, rfl⟩ : ∃ init last, stream = init ++ [last] :=
    ⟨stream.dropLast, stream.getLast hne, (dropLast_append_getLast hne).symm⟩
  have hset : orLast (init ++ [last]) x = init ++ [last ||| x] := by
    simp [orLast]
  obtain ⟨m, hm⟩ : ∃ m, 8 = m + count := ⟨8 - count, by omega⟩
  rw [byteBits_append, byteBits_cons, byteBits_nil, append_nil, hm, bitsBE_add,
    ← append_assoc] at h
  obtain ⟨hdone, hzeros⟩ := append_inj' h (by simp)
  rw [hset, byteBits_append, byteBits_cons, byteBits_nil, append_nil, UInt8.toNat_or, hm,
    bitsBE_or hzeros hx, ← append_assoc, hdone]

theorem toNat_one_shiftLeft {n : ℕ} (h : n < 8) :
    ((1 : UInt8) <<< UInt8.ofNat n).toNat = 2 ^ n := by
  have hpow : 2 ^ n < 2 ^ 8 := Nat.pow_lt_pow_right (by omega) h
  rw [UInt8.toNat_shiftLeft, toNat_ofNat_of_lt (by omega), Nat.mod_eq_of_lt h, UInt8.toNat_one,
    Nat.one_shiftLeft, Nat.mod_eq_of_lt hpow]

/-- A bit is written into a byte with free bits. -/
theorem wrote_bit {stream : Bytes} {done : List Bool} {count : ℕ} (bit : Bool) (hlt : count < 8)
    (h : byteBits stream = done ++ List.replicate (count + 1) false) :
    Wrote ⟨if bit then orLast stream (1 <<< UInt8.ofNat count) else stream, count⟩
      (done ++ [bit]) := by
  refine ⟨hlt, ?_⟩
  rw [append_assoc, singleton_append]
  cases bit with
  | false =>
    rw [replicate_succ] at h
    simpa using h
  | true =>
    have hone : bitsBE (count + 1) (2 ^ count) = true :: List.replicate count false := by
      have hzeros := bitsBE_append_zeros 1 count 1
      rw [Nat.one_mul, Nat.add_comm] at hzeros
      exact hzeros.symm
    have hpow : 2 ^ count < 2 ^ (count + 1) := Nat.pow_lt_pow_right (by omega) (by omega)
    rw [if_pos rfl, byteBits_orLast (by omega) (by omega) h (by rwa [toNat_one_shiftLeft hlt]),
      toNat_one_shiftLeft hlt, hone]

theorem writes_writeBit (bit : Bool) : Writes (writeBit · bit) [bit] := by
  rintro ⟨stream, count⟩ done ⟨hlt, hbits⟩
  dsimp only at hlt hbits
  cases count with
  | zero =>
    have hnew : byteBits (stream ++ [0]) = done ++ List.replicate (7 + 1) false := by
      rw [byteBits_append, hbits]
      simp [bitsBE_zero]
    exact wrote_bit bit (show 7 < 8 by omega) hnew
  | succ count => exact wrote_bit bit (by omega : count < 8) hbits

theorem writes_writeByte (byt : UInt8) : Writes (writeByte · byt) (bitsBE 8 byt.toNat) := by
  rintro ⟨stream, count⟩ done ⟨hlt, hbits⟩
  dsimp only at hlt hbits ⊢
  rw [writeByte]
  by_cases hzero : count = 0
  · subst hzero
    rw [if_pos rfl]
    refine ⟨by omega, ?_⟩
    rw [byteBits_append, hbits]
    simp
  · rw [if_neg hzero]
    refine ⟨hlt, ?_⟩
    have hbyt := byt.toNat_lt
    obtain ⟨m, hm⟩ : ∃ m, 8 = count + m := ⟨8 - count, by omega⟩
    have hshr : (byt >>> UInt8.ofNat (8 - count)).toNat = byt.toNat / 2 ^ m := by
      rw [UInt8.toNat_shiftRight, toNat_ofNat_of_lt (by omega), Nat.mod_eq_of_lt (by omega),
        Nat.shiftRight_eq_div_pow, show 8 - count = m by omega]
    have hsmall : byt.toNat / 2 ^ m < 2 ^ count := by
      rw [Nat.div_lt_iff_lt_mul (Nat.two_pow_pos m), ← pow_add, ← hm]
      exact hbyt
    have hshl : (byt <<< UInt8.ofNat count).toNat = byt.toNat * 2 ^ count % 2 ^ 8 := by
      rw [UInt8.toNat_shiftLeft, toNat_ofNat_of_lt (by omega), Nat.mod_eq_of_lt hlt,
        Nat.shiftLeft_eq]
    have hlow : bitsBE 8 (byt <<< UInt8.ofNat count).toNat =
        bitsBE m byt.toNat ++ List.replicate count false := by
      rw [hshl, bitsBE_mod le_rfl, bitsBE_append_zeros, hm, Nat.add_comm m]
    have hfull : bitsBE 8 byt.toNat = bitsBE count (byt.toNat / 2 ^ m) ++ bitsBE m byt.toNat := by
      rw [hm, bitsBE_add]
    rw [byteBits_append, byteBits_orLast (by omega) (by omega) hbits (by rwa [hshr]), hshr,
      byteBits_cons, byteBits_nil, append_nil, hlow, hfull]
    simp only [append_assoc]

/-- The `n` highest bits of a word. -/
def highBits (n : ℕ) (u : UInt64) : List Bool := bitsBE n (u.toNat / 2 ^ (64 - n))

/-- The highest bits, and those that a shift brings to the top. -/
theorem highBits_add {m n : ℕ} (h : m + n ≤ 64) (hm : m < 64) (u : UInt64) :
    highBits (m + n) u = highBits m u ++ highBits n (u <<< UInt64.ofNat m) := by
  have hu := u.toNat_lt
  have hhigh : u.toNat / 2 ^ (64 - (m + n)) / 2 ^ n = u.toNat / 2 ^ (64 - m) := by
    rw [Nat.div_div_eq_div_mul, ← pow_add, show 64 - (m + n) + n = 64 - m by omega]
  have hlow : bitsBE n (u.toNat / 2 ^ (64 - (m + n))) = highBits n (u <<< UInt64.ofNat m) := by
    rw [highBits, UInt64.toNat_shiftLeft, UInt64.toNat_ofNat',
      Nat.mod_eq_of_lt (show m < 2 ^ 64 by omega), Nat.mod_eq_of_lt hm, Nat.shiftLeft_eq]
    refine bitsBE_congr fun i hi => ?_
    rw [Nat.testBit_div_two_pow, Nat.testBit_div_two_pow, Nat.testBit_mod_two_pow,
      Nat.testBit_mul_two_pow]
    have h1 : i + (64 - n) < 64 := by omega
    have h2 : m ≤ i + (64 - n) := by omega
    simp only [h1, h2, decide_true, Bool.true_and]
    congr 1
    omega
  rw [highBits, bitsBE_add, hhigh, hlow]
  rfl

theorem writes_writeLowBits {nbits : ℕ} (h : nbits ≤ 64) (u : UInt64) :
    Writes (writeLowBits nbits u) (highBits nbits u) := by
  induction nbits generalizing u with
  | zero =>
    intro w done hw
    rw [highBits, bitsBE, append_nil]
    exact hw
  | succ nbits ih =>
    have hbit : highBits 1 u = [decide (u >>> 63 = 1)] := by
      have hu := u.toNat_lt
      have htop : (u >>> 63 = 1) ↔ u.toNat / 2 ^ 63 % 2 = 1 := by
        rw [← UInt64.toNat_inj, UInt64.toNat_shiftRight,
          show (63 : UInt64).toNat % 64 = 63 from rfl, Nat.shiftRight_eq_div_pow, UInt64.toNat_one]
        omega
      simp only [highBits, bitsBE, Nat.testBit_zero, htop]
    have hsplit : highBits (nbits + 1) u = [decide (u >>> 63 = 1)] ++ highBits nbits (u <<< 1) := by
      rw [Nat.add_comm, highBits_add (by omega) (by omega), hbit]
      rfl
    rw [hsplit]
    exact (writes_writeBit _).comp (ih (by omega) _)

theorem writes_writeHighBits {nbits : ℕ} (h : nbits ≤ 64) (u : UInt64) :
    Writes (writeHighBits nbits u) (highBits nbits u) := by
  induction nbits using Nat.strong_induction_on generalizing u with
  | _ nbits ih =>
    by_cases hge : nbits ≥ 8
    · obtain ⟨n, rfl⟩ : ∃ n, nbits = n + 8 := ⟨nbits - 8, by omega⟩
      have hbyte : highBits 8 u = bitsBE 8 (u >>> 56).toUInt8.toNat := by
        rw [highBits, UInt64.toNat_toUInt8, bitsBE_mod le_rfl, UInt64.toNat_shiftRight,
          Nat.shiftRight_eq_div_pow]
        rfl
      have hsplit : highBits (n + 8) u = bitsBE 8 (u >>> 56).toUInt8.toNat ++
          highBits n (u <<< 8) := by
        rw [Nat.add_comm, highBits_add (by omega) (by omega), hbyte]
        rfl
      have heq : writeHighBits (n + 8) u =
          fun w => writeHighBits n (u <<< 8) (w.writeByte (u >>> 56).toUInt8) := by
        funext w
        rw [writeHighBits, if_pos hge, Nat.add_sub_cancel]
      rw [heq, hsplit]
      exact (writes_writeByte _).comp (ih n (by omega) (by omega) _)
    · have heq : writeHighBits nbits u = writeLowBits nbits u := by
        funext w
        rw [writeHighBits, if_neg hge]
      rw [heq]
      exact writes_writeLowBits h u

theorem writes_writeBits {nbits : ℕ} (hpos : 0 < nbits) (h : nbits ≤ 64) (u : UInt64) :
    Writes (writeBits · u nbits) (bitsBE nbits u.toNat) := by
  have hshift : highBits nbits (u <<< UInt64.ofNat (64 - nbits)) = bitsBE nbits u.toNat := by
    rw [highBits, UInt64.toNat_shiftLeft, UInt64.toNat_ofNat',
      Nat.mod_eq_of_lt (show 64 - nbits < 2 ^ 64 by omega),
      Nat.mod_eq_of_lt (show 64 - nbits < 64 by omega), Nat.shiftLeft_eq]
    refine bitsBE_congr fun i hi => ?_
    rw [Nat.testBit_div_two_pow, Nat.testBit_mod_two_pow, Nat.testBit_mul_two_pow]
    simp [show i + (64 - nbits) < 64 by omega]
  rw [← hshift]
  exact writes_writeHighBits h _

/-- The byte of a varint that is followed by others. -/
theorem or_0x80_eq (v : UInt64) : v.toUInt8 ||| 0x80 = UInt8.ofNat (v.toNat % 128 + 128) := by
  have hlow : v.toUInt8 ||| 0x80 = UInt8.ofNat (v.toNat % 128) ||| 0x80 := by
    rcases Nat.lt_or_ge (v.toNat % 256) 128 with h | h
    · congr 1
      apply UInt8.toNat_inj.mp
      rw [UInt64.toNat_toUInt8, toNat_ofNat_of_lt (by omega)]
      omega
    · have hhigh : v.toUInt8 = UInt8.ofNat (v.toNat % 128) ||| 0x80 := by
        rw [or_0x80 (by omega)]
        apply UInt8.toNat_inj.mp
        rw [UInt64.toNat_toUInt8, toNat_ofNat_of_lt (by omega)]
        omega
      rw [hhigh, UInt8.or_assoc, UInt8.or_self]
  rw [hlow, or_0x80 (by omega)]

theorem writes_writeUvarint (v : UInt64) :
    Writes (writeUvarint · v) (byteBits (leb128 v.toNat)) := by
  generalize hn : v.toNat = n
  induction n using Nat.strong_induction_on generalizing v with
  | _ n ih =>
    by_cases hge : v ≥ 0x80
    · have hge' : 128 ≤ n := by
        rw [← hn]
        exact UInt64.le_iff_toNat_le.mp hge
      have hshift : (v >>> 7).toNat = n / 128 := by
        rw [UInt64.toNat_shiftRight, show (7 : UInt64).toNat % 64 = 7 from rfl,
          Nat.shiftRight_eq_div_pow, hn]
      have heq : (writeUvarint · v) =
          fun w : BWriter => (w.writeByte (v.toUInt8 ||| 0x80)).writeUvarint (v >>> 7) := by
        funext w
        rw [writeUvarint, dif_pos hge]
      rw [heq, leb128_of_ge hge', byteBits_cons, or_0x80_eq, hn]
      exact (writes_writeByte _).comp (ih (n / 128) (by omega) _ hshift)
    · have hlt : n < 128 := by
        rw [← hn]
        exact UInt64.lt_iff_toNat_lt.mp (UInt64.not_le.mp hge)
      have heq : (writeUvarint · v) = fun w : BWriter => w.writeByte v.toUInt8 := by
        funext w
        rw [writeUvarint, dif_neg hge]
      have hbyte : v.toUInt8 = UInt8.ofNat n := by
        rw [← hn]
        rfl
      rw [heq, leb128_of_lt hlt, byteBits_cons, byteBits_nil, append_nil, hbyte]
      exact writes_writeByte _

theorem writes_writeVarint (v : Int64) :
    Writes (writeVarint · v) (byteBits (leb128 (zigzagEncode v).toNat)) :=
  writes_writeUvarint _

end BWriter

end Esmetrics.Esmctl
