import Esmetrics.Lib.BigEndian
import Esmetrics.Lib.Bits
import Esmetrics.Lib.Leb128

/-!
# Integer marshaling

Model of `esm-encoding/src/int.rs`: fixed-width big-endian integers (the signed ones zig-zag
encoded) and base-128 varints. Every `marshal…` function appends to `dst`; the fixed-width
`unmarshal…` functions read a prefix whose length the caller has checked.

The varint writers come in several shapes — one-, two- and three-byte fast paths, a slow path
that spells out every length, an optimistic array writer that starts over on the first large
item. They all append a varint of the zig-zag code (`marshalVarInt64_spec`,
`marshalVarInt64s_eq`). The readers are a byte-at-a-time loop (`uvarint`), a reader that spells
out every length (`readVarUint64Slow`) and an eight-byte window reader (`readVarUint64Fast`);
each of them reads a varint back (`uvarint_eq`, `readVarUint64Slow_eq`,
`readVarUint64Fast_eq`), and so does the array reader (`IsVarInts.unmarshalVarInt64s_eq`).
-/

namespace Esmetrics

open List

/-! ### Fixed-width integers -/

def marshalUint16 (dst : Bytes) (u : UInt16) : Bytes := dst ++ beBytes 2 u.toNat

def unmarshalUint16 (src : Bytes) : UInt16 := UInt16.ofNat (beNat (src.take 2))

def marshalUint32 (dst : Bytes) (u : UInt32) : Bytes := dst ++ beBytes 4 u.toNat

def unmarshalUint32 (src : Bytes) : UInt32 := UInt32.ofNat (beNat (src.take 4))

def marshalUint64 (dst : Bytes) (u : UInt64) : Bytes := dst ++ beBytes 8 u.toNat

def unmarshalUint64 (src : Bytes) : UInt64 := UInt64.ofNat (beNat (src.take 8))

def zigzagEncode16 (v : Int16) : UInt16 := ((v <<< 1) ^^^ (v >>> 15)).toUInt16

def zigzagDecode16 (u : UInt16) : Int16 := (u >>> 1).toInt16 ^^^ ((u <<< 15).toInt16 >>> 15)

def zigzagEncode (v : Int64) : UInt64 := ((v <<< 1) ^^^ (v >>> 63)).toUInt64

def zigzagDecode (u : UInt64) : Int64 := (u >>> 1).toInt64 ^^^ ((u <<< 63).toInt64 >>> 63)

/-- Zig-zag encoded big-endian `v`. -/
def marshalInt16 (dst : Bytes) (v : Int16) : Bytes := marshalUint16 dst (zigzagEncode16 v)

def unmarshalInt16 (src : Bytes) : Int16 := zigzagDecode16 (unmarshalUint16 src)

/-- Zig-zag encoded big-endian `v`. -/
def marshalInt64 (dst : Bytes) (v : Int64) : Bytes := marshalUint64 dst (zigzagEncode v)

def unmarshalInt64 (src : Bytes) : Int64 := zigzagDecode (unmarshalUint64 src)

/-! ### Varint writers -/

/-- `1 << (k * 7)`. -/
def bit7 (k : ℕ) : UInt64 := 1 <<< UInt64.ofNat (k * 7)

/-- The bytes `u | 0x80, (u >> 7) | 0x80, …` of a varint, `k` of them. -/
def contBytes (u : UInt64) (k : ℕ) : Bytes :=
  (List.range k).map fun i => ((u >>> UInt64.ofNat (i * 7)) ||| 0x80).toUInt8

/-- A varint of `k + 1` bytes. -/
def varBytes (u : UInt64) (k : ℕ) : Bytes :=
  contBytes u k ++ [(u >>> UInt64.ofNat (k * 7)).toUInt8]

/-- Appends the full varint encoding of `u`; the cases are in descending order of frequency on
real data. -/
def appendVarUint64 (dst : Bytes) (u : UInt64) : Bytes :=
  if u < bit7 1 then dst ++ [u.toUInt8]
  else if u < bit7 2 then dst ++ varBytes u 1
  else if u < bit7 3 then dst ++ varBytes u 2
  else if u ≥ bit7 8 then
    if u < bit7 9 then dst ++ varBytes u 8
    else dst ++ (contBytes u 9 ++ [1])
  else if u < bit7 4 then dst ++ varBytes u 3
  else if u < bit7 5 then dst ++ varBytes u 4
  else if u < bit7 6 then dst ++ varBytes u 5
  else if u < bit7 7 then dst ++ varBytes u 6
  else dst ++ varBytes u 7

/-- Appends varint-encoded (zig-zag) `v`. -/
def marshalVarInt64 (dst : Bytes) (v : Int64) : Bytes :=
  let u := zigzagEncode v
  if v < 64 ∧ v > -64 then dst ++ [u.toUInt8]
  else if u < bit7 2 then dst ++ varBytes u 1
  else if u < bit7 3 then dst ++ varBytes u 2
  else appendVarUint64 dst u

def marshalVarInt64sSlow (dst : Bytes) (vs : List Int64) : Bytes :=
  vs.foldl (fun dst v => appendVarUint64 dst (zigzagEncode v)) dst

/-- The one-byte loop of `marshalVarInt64s`; `all` are the items to start over with, and
`dstLen` the length of the destination before the first of them. -/
def marshalVarInt64sLoop (dstLen : ℕ) (all : List Int64) : Bytes → List Int64 → Bytes
  | dst, [] => dst
  | dst, v :: vs =>
    if v ≥ 64 ∨ v ≤ -64 then marshalVarInt64sSlow (dst.take dstLen) all
    else marshalVarInt64sLoop dstLen all (dst ++ [(zigzagEncode v).toUInt8]) vs

/-- Appends varint-encoded (zig-zag) `vs`. -/
def marshalVarInt64s (dst : Bytes) (vs : List Int64) : Bytes :=
  marshalVarInt64sLoop dst.length vs dst vs

def marshalVarUint64 (dst : Bytes) (u : UInt64) : Bytes := appendVarUint64 dst u

/-! ### Varint readers -/

/-- The loop of `uvarint` at byte `i`, with the bits read so far and the next shift. -/
def uvarintLoop (x s : UInt64) (i : ℕ) : Bytes → UInt64 × ℤ
  | [] => (0, 0)
  | b :: src =>
    if i = 10 then (0, -(i + 1))
    else if b < 0x80 then
      if i = 9 ∧ b > 1 then (0, -(i + 1))
      else (x ||| b.toUInt64 <<< s, i + 1)
    else uvarintLoop (x ||| (b &&& 0x7f).toUInt64 <<< s) (s + 7) (i + 1) src

/-- The value and its size. Size `0` means that `src` is too small, a negative size that the
value overflows. -/
def uvarint (src : Bytes) : UInt64 × ℤ := uvarintLoop 0 0 0 src

/-- The value of a zig-zag varint and its size in bytes. -/
def unmarshalVarInt64 (src : Bytes) : Option (Int64 × ℕ) :=
  let (u, nSize) := uvarint src
  if nSize ≤ 0 then none else some (zigzagDecode u, nSize.toNat)

/-- The index just after the first byte below `0x80` from `idx` on. -/
def scanVarint (src : Bytes) (idx : ℕ) : Option ℕ :=
  ((src.drop idx).findIdx? (· < 0x80)).map fun n => idx + n + 1

/-- The bits of a varint from its fourth byte on. -/
def varintTail : Bytes → Except String UInt64
  | [b0] => .ok (b0.toUInt64 <<< (3 * 7))
  | [b0, b1] => .ok ((b0 &&& 0x7f).toUInt64 <<< (3 * 7) ||| b1.toUInt64 <<< (4 * 7))
  | [b0, b1, b2] =>
    .ok ((b0 &&& 0x7f).toUInt64 <<< (3 * 7) ||| (b1 &&& 0x7f).toUInt64 <<< (4 * 7) |||
      b2.toUInt64 <<< (5 * 7))
  | [b0, b1, b2, b3] =>
    .ok ((b0 &&& 0x7f).toUInt64 <<< (3 * 7) ||| (b1 &&& 0x7f).toUInt64 <<< (4 * 7) |||
      (b2 &&& 0x7f).toUInt64 <<< (5 * 7) ||| b3.toUInt64 <<< (6 * 7))
  | [b0, b1, b2, b3, b4] =>
    .ok ((b0 &&& 0x7f).toUInt64 <<< (3 * 7) ||| (b1 &&& 0x7f).toUInt64 <<< (4 * 7) |||
      (b2 &&& 0x7f).toUInt64 <<< (5 * 7) ||| (b3 &&& 0x7f).toUInt64 <<< (6 * 7) |||
      b4.toUInt64 <<< (7 * 7))
  | [b0, b1, b2, b3, b4, b5] =>
    .ok ((b0 &&& 0x7f).toUInt64 <<< (3 * 7) ||| (b1 &&& 0x7f).toUInt64 <<< (4 * 7) |||
      (b2 &&& 0x7f).toUInt64 <<< (5 * 7) ||| (b3 &&& 0x7f).toUInt64 <<< (6 * 7) |||
      (b4 &&& 0x7f).toUInt64 <<< (7 * 7) ||| b5.toUInt64 <<< (8 * 7))
  | [b0, b1, b2, b3, b4, b5, b6] =>
    if b6 > 1 then .error "too big encoded varint"
    else
      -- the tenth byte is taken for `1`, also when it is `0`
      .ok ((b0 &&& 0x7f).toUInt64 <<< (3 * 7) ||| (b1 &&& 0x7f).toUInt64 <<< (4 * 7) |||
        (b2 &&& 0x7f).toUInt64 <<< (5 * 7) ||| (b3 &&& 0x7f).toUInt64 <<< (6 * 7) |||
        (b4 &&& 0x7f).toUInt64 <<< (7 * 7) ||| (b5 &&& 0x7f).toUInt64 <<< (8 * 7) |||
        (1 : UInt64) <<< (9 * 7))
  | b =>
    let n := b.length + 3
    .error s!"too long encoded varint; the maximum allowed length is 10 bytes; got {n} bytes"

/-- Reads a single varint at `idx`; returns it with the index after it. -/
def readVarUint64Slow (src : Bytes) (idx : ℕ) : Except String (UInt64 × ℕ) :=
  match src[idx]? with
  | none => .error "cannot unmarshal varint from empty data"
  | some c =>
    if c < 0x80 then .ok (c.toUInt64, idx + 1)
    else
      match src[idx + 1]? with
      | none => .error "unexpected end of encoded varint at byte 1"
      | some d =>
        if d < 0x80 then .ok ((c &&& 0x7f).toUInt64 ||| d.toUInt64 <<< 7, idx + 2)
        else
          match src[idx + 2]? with
          | none => .error "unexpected end of encoded varint at byte 2"
          | some e =>
            if e < 0x80 then
              .ok ((c &&& 0x7f).toUInt64 ||| (d &&& 0x7f).toUInt64 <<< 7 |||
                e.toUInt64 <<< (2 * 7), idx + 3)
            else
              let u := (c &&& 0x7f).toUInt64 ||| (d &&& 0x7f).toUInt64 <<< 7 |||
                (e &&& 0x7f).toUInt64 <<< (2 * 7)
              let j := idx + 3
              match scanVarint src j with
              | none => .error "unexpected end of encoded varint"
              | some idx =>
                match varintTail ((src.drop j).take (idx - j)) with
                | .error err => .error err
                | .ok bits => .ok (u ||| bits, idx)

/-- Reads a single varint at `idx` through an eight-byte window when possible, and byte by byte
near the end of `src` and for varints longer than eight bytes. -/
def readVarUint64Fast (src : Bytes) (idx : ℕ) : Except String (UInt64 × ℕ) :=
  let window := (src.drop idx).take 8
  let w := UInt64.ofNat (leNat window)
  let stop := ~~~w &&& 0x8080808080808080
  if window.length = 8 ∧ stop ≠ 0 then
    let nbytes := trailingZeros stop >>> 3 + 1
    let u := (List.range' 1 (nbytes - 1)).foldl
      (fun u k => u ||| ((w >>> UInt64.ofNat (8 * k)) &&& 0x7f) <<< UInt64.ofNat (7 * k))
      (w &&& 0x7f)
    .ok (u, idx + nbytes)
  else readVarUint64Slow src idx

/-- The one-byte prefix of `unmarshalVarInt64s`: at most `n` leading bytes below `0x80`. -/
def oneByteVarInts : ℕ → Bytes → List Int64
  | n + 1, c :: src =>
    if c ≥ 0x80 then []
    else ((c >>> 1).toInt8 ^^^ ((c <<< 7).toInt8 >>> 7)).toInt64 :: oneByteVarInts n src
  | _, _ => []

/-- The mixed path of `unmarshalVarInt64s`: `n` more items from `idx` on. -/
def readVarInt64s (src : Bytes) : ℕ → ℕ → Except String (List Int64 × ℕ)
  | 0, idx => .ok ([], idx)
  | n + 1, idx =>
    match readVarUint64Fast src idx with
    | .error err => .error err
    | .ok (u, idx) =>
      match readVarInt64s src n idx with
      | .error err => .error err
      | .ok (vs, idx) => .ok (zigzagDecode u :: vs, idx)

/-- Unmarshals `n` values from `src`; returns them with the remaining tail. -/
def unmarshalVarInt64s (n : ℕ) (src : Bytes) : Except String (List Int64 × Bytes) :=
  if src.length < n then
    let len := src.length
    .error s!"too small len(src)={len}; it must be bigger or equal to len(dst)={n}"
  else
    let is := oneByteVarInts n src
    if is.length = n then .ok (is, src.drop n)
    else
      match readVarInt64s src (n - is.length) is.length with
      | .error err => .error err
      | .ok (vs, idx) => .ok (is ++ vs, src.drop idx)

/-- The value of a varint and its size in bytes. -/
def unmarshalVarUint64 (src : Bytes) : Option (UInt64 × ℕ) :=
  match src with
  | [] => none
  | c :: rest =>
    if c < 0x80 then some (c.toUInt64, 1)
    else
      match rest with
      | [] => none
      | d :: _ =>
        if d < 0x80 then some ((c &&& 0x7f).toUInt64 ||| d.toUInt64 <<< 7, 2)
        else
          let (u, nSize) := uvarint src
          if nSize ≤ 0 then none else some (u, nSize.toNat)

/-- Appends varint-length-prefixed `b`. -/
def marshalBytes (dst b : Bytes) : Bytes := marshalVarUint64 dst (UInt64.ofNat b.length) ++ b

/-- The bytes and the total consumed size. -/
def unmarshalBytes (src : Bytes) : Option (Bytes × ℕ) :=
  match unmarshalVarUint64 src with
  | none => none
  | some (n, nSize) =>
    if n > UInt64.ofNat (src.length - nSize) then none
    else some ((src.drop nSize).take n.toNat, nSize + n.toNat)

/-! ### Fixed-width round trips -/

theorem unmarshalUint16_marshalUint16 (u : UInt16) (t : Bytes) :
    unmarshalUint16 (marshalUint16 [] u ++ t) = u := by
  apply UInt16.toNat_inj.mp
  rw [unmarshalUint16, marshalUint16, nil_append, take_left' (length_beBytes 2 _),
    beNat_beBytes, UInt16.toNat_ofNat']
  have := u.toNat_lt
  omega

theorem unmarshalUint32_marshalUint32 (u : UInt32) (t : Bytes) :
    unmarshalUint32 (marshalUint32 [] u ++ t) = u := by
  apply UInt32.toNat_inj.mp
  rw [unmarshalUint32, marshalUint32, nil_append, take_left' (length_beBytes 4 _),
    beNat_beBytes, UInt32.toNat_ofNat']
  have := u.toNat_lt
  omega

theorem unmarshalUint64_marshalUint64 (u : UInt64) (t : Bytes) :
    unmarshalUint64 (marshalUint64 [] u ++ t) = u := by
  apply UInt64.toNat_inj.mp
  rw [unmarshalUint64, marshalUint64, nil_append, take_left' (length_beBytes 8 _),
    beNat_beBytes, UInt64.toNat_ofNat']
  have := u.toNat_lt
  omega

@[simp]
theorem drop_marshalUint16 (u : UInt16) (t : Bytes) : (marshalUint16 [] u ++ t).drop 2 = t :=
  drop_left' (length_beBytes 2 _)

@[simp]
theorem drop_marshalUint32 (u : UInt32) (t : Bytes) : (marshalUint32 [] u ++ t).drop 4 = t :=
  drop_left' (length_beBytes 4 _)

@[simp]
theorem drop_marshalUint64 (u : UInt64) (t : Bytes) : (marshalUint64 [] u ++ t).drop 8 = t :=
  drop_left' (length_beBytes 8 _)

/-- Zig-zag decoding undoes zig-zag encoding, bit by bit: bit `i` of the code is bit `i - 1` of
the value, flipped for a negative value. -/
theorem zigzagDecode_zigzagEncode (v : Int64) : zigzagDecode (zigzagEncode v) = v := by
  apply Int64.toBitVec_inj.mp
  simp only [zigzagDecode, zigzagEncode, Int64.toBitVec_xor, Int64.toBitVec_shiftRight]
  ext i hi
  simp [BitVec.getElem_sshiftRight, BitVec.getLsbD_sshiftRight]
  rcases Nat.lt_or_ge (1 + i) 64 with h | h
  · rcases Nat.eq_zero_or_pos i with rfl | hpos
    · simp [BitVec.getLsbD_eq_getElem, BitVec.msb_eq_getLsbD_last]
    · have h1 : ¬ 63 + (1 + i) < 64 := by omega
      have h2 : ¬ 64 ≤ 1 + i := by omega
      have h3 : ¬ 63 + i < 64 := by omega
      simp [h, h1, h2, h3, BitVec.getLsbD_eq_getElem, hi, BitVec.msb_eq_getLsbD_last,
        BitVec.getMsbD_eq_getLsbD]
  · obtain rfl : i = 63 := by omega
    simp [BitVec.getMsbD_eq_getLsbD, BitVec.getLsbD_eq_getElem]

theorem zigzagDecode16_zigzagEncode16 (v : Int16) : zigzagDecode16 (zigzagEncode16 v) = v := by
  apply Int16.toBitVec_inj.mp
  simp only [zigzagDecode16, zigzagEncode16, Int16.toBitVec_xor, Int16.toBitVec_shiftRight]
  ext i hi
  simp [BitVec.getElem_sshiftRight, BitVec.getLsbD_sshiftRight]
  rcases Nat.lt_or_ge (1 + i) 16 with h | h
  · rcases Nat.eq_zero_or_pos i with rfl | hpos
    · simp [BitVec.getLsbD_eq_getElem, BitVec.msb_eq_getLsbD_last]
    · have h1 : ¬ 15 + (1 + i) < 16 := by omega
      have h2 : ¬ 16 ≤ 1 + i := by omega
      have h3 : ¬ 15 + i < 16 := by omega
      simp [h, h1, h2, h3, BitVec.getLsbD_eq_getElem, hi, BitVec.msb_eq_getLsbD_last,
        BitVec.getMsbD_eq_getLsbD]
  · obtain rfl : i = 15 := by omega
    simp [BitVec.getMsbD_eq_getLsbD, BitVec.getLsbD_eq_getElem]

theorem unmarshalInt16_marshalInt16 (v : Int16) (t : Bytes) :
    unmarshalInt16 (marshalInt16 [] v ++ t) = v := by
  rw [unmarshalInt16, marshalInt16, unmarshalUint16_marshalUint16, zigzagDecode16_zigzagEncode16]

theorem unmarshalInt64_marshalInt64 (v : Int64) (t : Bytes) :
    unmarshalInt64 (marshalInt64 [] v ++ t) = v := by
  rw [unmarshalInt64, marshalInt64, unmarshalUint64_marshalUint64, zigzagDecode_zigzagEncode]

@[simp]
theorem drop_marshalInt16 (v : Int16) (t : Bytes) : (marshalInt16 [] v ++ t).drop 2 = t :=
  drop_marshalUint16 _ t

@[simp]
theorem drop_marshalInt64 (v : Int64) (t : Bytes) : (marshalInt64 [] v ++ t).drop 8 = t :=
  drop_marshalUint64 _ t

variable {v : Int64} {k i idx nSize : ℕ} {u : UInt64} {src e t window : Bytes} {vs : List Int64}

/-- Values of absolute value below 64 have a one-byte code. -/
theorem zigzagEncode_lt (h1 : v < 64) (h2 : v > -64) : zigzagEncode v < 0x80 := by
  have hall : ∀ n : Fin 127, zigzagEncode (Int64.ofInt ((n : ℤ) - 63)) < 0x80 := by
    decide
  have hlo := Int64.lt_iff_toInt_lt.mp h2
  have hhi := Int64.lt_iff_toInt_lt.mp h1
  simp at hlo hhi
  have hv := hall ⟨(v.toInt + 63).toNat, by omega⟩
  have hcast : (((v.toInt + 63).toNat : ℕ) : ℤ) - 63 = v.toInt := by omega
  rwa [hcast, Int64.ofInt_toInt] at hv

/-! ### The writers append the shortest form -/

private theorem toNat_bit7 (hk : k ≤ 9) : (bit7 k).toNat = 128 ^ k := by
  have hall : ∀ k : Fin 10, (bit7 k).toNat = 128 ^ (k : ℕ) := by decide
  exact hall ⟨k, by omega⟩

theorem toNat_shiftRight_7 (u : UInt64) (hi : i ≤ 9) :
    (u >>> UInt64.ofNat (i * 7)).toNat = u.toNat / 128 ^ i := by
  rw [UInt64.toNat_shiftRight, UInt64.toNat_ofNat',
    Nat.mod_eq_of_lt (show i * 7 < 2 ^ 64 by omega), Nat.mod_eq_of_lt (show i * 7 < 64 by omega),
    Nat.shiftRight_eq_div_pow, Nat.mul_comm, pow_mul, show (2 : ℕ) ^ 7 = 128 from rfl]

private theorem toUInt8_or_80 (x : UInt64) :
    (x ||| 0x80).toUInt8 = UInt8.ofNat (x.toNat % 128 + 128) := by
  apply UInt8.toNat_inj.mp
  have hor : ∀ n : Fin 256, (n : ℕ) ||| 128 = n % 128 + 128 := by decide +kernel
  have h := hor ⟨x.toNat % 256, Nat.mod_lt _ (by omega)⟩
  rw [toNat_ofNat_of_lt (by omega), UInt64.toNat_toUInt8, UInt64.toNat_or,
    Nat.or_mod_two_pow, show (0x80 : UInt64).toNat % 2 ^ 8 = 128 from rfl,
    show (2 : ℕ) ^ 8 = 256 from rfl]
  simp only at h
  rw [h]
  omega

private theorem contBytes_eq (u : UInt64) (hk : k ≤ 9) :
    contBytes u k = (List.range k).map fun i => UInt8.ofNat (u.toNat / 128 ^ i % 128 + 128) := by
  refine map_congr_left fun i hi => ?_
  rw [toUInt8_or_80, toNat_shiftRight_7 u (by have := mem_range.mp hi; omega)]

theorem varBytes_eq_leb128 (hk : k ≤ 9) (hlo : 128 ^ k ≤ u.toNat) (hhi : u.toNat < 128 ^ (k + 1)) :
    varBytes u k = leb128 u.toNat := by
  rw [varBytes, contBytes_eq u hk, leb128_eq_of_digits hlo hhi]
  congr 2
  apply UInt8.toNat_inj.mp
  rw [UInt64.toNat_toUInt8, toNat_shiftRight_7 u hk, UInt8.toNat_ofNat']

theorem singleton_toUInt8_eq_leb128 (h : u.toNat < 128) :
    [u.toUInt8] = leb128 u.toNat := by
  rw [leb128_of_lt h]
  rfl

/-- The ten-byte case: the last digit of a number from `2 ^ 63` on is `1`. -/
private theorem contBytes_nine (h : 128 ^ 9 ≤ u.toNat) :
    contBytes u 9 ++ [1] = leb128 u.toNat := by
  have hlt := u.toNat_lt
  rw [← varBytes_eq_leb128 (k := 9) le_rfl h (by omega), varBytes]
  congr 2
  apply UInt8.toNat_inj.mp
  rw [UInt64.toNat_toUInt8, toNat_shiftRight_7 u le_rfl]
  have hone : u.toNat / 128 ^ 9 = 1 := by omega
  rw [hone]
  rfl

/-- The spelled-out writer appends the shortest form. -/
theorem appendVarUint64_eq (dst : Bytes) (u : UInt64) :
    appendVarUint64 dst u = dst ++ leb128 u.toNat := by
  unfold appendVarUint64
  simp only [ge_iff_le, UInt64.lt_iff_toNat_lt, UInt64.le_iff_toNat_le, toNat_bit7,
    Nat.reduceLeDiff]
  split_ifs
  · rw [singleton_toUInt8_eq_leb128 (by omega)]
  all_goals first
    | rw [varBytes_eq_leb128 (by omega) (by omega) (by omega)]
    | rw [contBytes_nine (by omega)]

/-- Only `-64` has a one-byte code outside the range of the first test. -/
private theorem le_zigzagEncode (h : ¬ (v < 64 ∧ v > -64)) :
    v = -64 ∨ 128 ≤ (zigzagEncode v).toNat := by
  by_contra hcon
  obtain ⟨hne, hlt⟩ := not_or.mp hcon
  have hall : ∀ n : Fin 128, zigzagDecode (UInt64.ofNat n) = -64 ∨
      (zigzagDecode (UInt64.ofNat n) < 64 ∧ zigzagDecode (UInt64.ofNat n) > -64) := by
    decide
  have hv := hall ⟨(zigzagEncode v).toNat, by omega⟩
  rw [UInt64.ofNat_toNat, zigzagDecode_zigzagEncode] at hv
  exact hv.elim hne h

/-- The single-value writer appends the shortest form of the zig-zag code, except for `-64`. -/
theorem marshalVarInt64_of_ne (h64 : v ≠ -64) (dst : Bytes) :
    marshalVarInt64 dst v = dst ++ leb128 (zigzagEncode v).toNat := by
  rw [marshalVarInt64]
  simp only [UInt64.lt_iff_toNat_lt, toNat_bit7, Nat.reduceLeDiff]
  split_ifs with h1 h2 h3
  · rw [singleton_toUInt8_eq_leb128 (UInt64.lt_iff_toNat_lt.mp (zigzagEncode_lt h1.1 h1.2))]
  · have hge := (le_zigzagEncode h1).resolve_left h64
    rw [varBytes_eq_leb128 (by omega) (by omega) (by omega)]
  · rw [varBytes_eq_leb128 (by omega) (by omega) (by omega)]
  · exact appendVarUint64_eq dst _

/-- The single-value writer appends a varint of the zig-zag code. It is not always the
shortest: `-64`, outside the range of the first test, takes two bytes. -/
theorem marshalVarInt64_spec (v : Int64) :
    ∃ e, IsVarint64 e (zigzagEncode v) ∧ ∀ dst, marshalVarInt64 dst v = dst ++ e := by
  by_cases h64 : v = -64
  · subst h64
    refine ⟨[0xff, 0], ⟨⟨by decide, show (0 : UInt8).toNat < 128 by decide⟩, by decide, by decide,
      by decide⟩, fun dst => ?_⟩
    have h1 : ¬ ((-64 : Int64) < 64 ∧ (-64 : Int64) > -64) := by decide
    have h2 : zigzagEncode (-64) < bit7 2 := by decide
    rw [marshalVarInt64, if_neg h1, if_pos h2]
    rfl
  · exact ⟨leb128 (zigzagEncode v).toNat, isVarint64_leb128 _, marshalVarInt64_of_ne h64⟩

/-- The varints of a list of signed values. -/
def varInts (vs : List Int64) : Bytes := vs.flatMap fun v => leb128 (zigzagEncode v).toNat

@[simp]
theorem varInts_nil : varInts [] = [] := rfl

@[simp]
theorem varInts_cons (v : Int64) (vs : List Int64) :
    varInts (v :: vs) = leb128 (zigzagEncode v).toNat ++ varInts vs := rfl

/-- `src` is a sequence of varints of the zig-zag codes of `vs`, shortest or not. -/
inductive IsVarInts : Bytes → List Int64 → Prop
  | nil : IsVarInts [] []
  | cons {e src : Bytes} {v : Int64} {vs : List Int64} (he : IsVarint64 e (zigzagEncode v))
      (hsrc : IsVarInts src vs) : IsVarInts (e ++ src) (v :: vs)

theorem isVarInts_varInts (vs : List Int64) : IsVarInts (varInts vs) vs := by
  induction vs with
  | nil => exact .nil
  | cons v vs ih => exact .cons (isVarint64_leb128 _) ih

theorem IsVarInts.length_le (h : IsVarInts src vs) :
    src.length ≤ 10 * vs.length := by
  induction h with
  | nil => simp
  | cons he _ ih =>
    have := he.length_le
    rw [length_append, length_cons]
    omega

theorem IsVarInts.le_length (h : IsVarInts src vs) :
    vs.length ≤ src.length := by
  induction h with
  | nil => simp
  | cons he _ ih =>
    have := length_pos_iff.mpr he.isVarint.ne_nil
    rw [length_append, length_cons]
    omega

private theorem marshalVarInt64sSlow_eq (dst : Bytes) (vs : List Int64) :
    marshalVarInt64sSlow dst vs = dst ++ varInts vs := by
  induction vs generalizing dst with
  | nil => simp [marshalVarInt64sSlow]
  | cons v vs ih =>
    rw [marshalVarInt64sSlow, foldl_cons, appendVarUint64_eq, ← marshalVarInt64sSlow, ih,
      varInts_cons, append_assoc]

/-- The one-byte loop, started over or not, appends the varints of all the items: it has
appended those of the items `done` so far. -/
private theorem marshalVarInt64sLoop_eq (dst : Bytes) (done vs : List Int64) :
    marshalVarInt64sLoop dst.length (done ++ vs) (dst ++ varInts done) vs =
      dst ++ varInts (done ++ vs) := by
  induction vs generalizing done with
  | nil => simp [marshalVarInt64sLoop]
  | cons v vs ih =>
    rw [marshalVarInt64sLoop]
    split_ifs with h
    · rw [take_left, marshalVarInt64sSlow_eq]
    · have hv : v < 64 ∧ v > -64 := by
        simpa [not_or, Int64.not_le] using h
      have hone := singleton_toUInt8_eq_leb128 (UInt64.lt_iff_toNat_lt.mp
        (zigzagEncode_lt hv.1 hv.2))
      have hdone : varInts done ++ leb128 (zigzagEncode v).toNat = varInts (done ++ [v]) := by
        simp [varInts]
      have hlist : done ++ v :: vs = (done ++ [v]) ++ vs := by simp
      rw [hone, append_assoc, hdone, hlist]
      exact ih (done ++ [v])

/-- The array writer appends the shortest form of every zig-zag code. -/
theorem marshalVarInt64s_eq (dst : Bytes) (vs : List Int64) :
    marshalVarInt64s dst vs = dst ++ varInts vs := by
  simpa [marshalVarInt64s] using marshalVarInt64sLoop_eq dst [] vs

/-! ### The readers read a varint back -/

theorem not_lt_80 {b : UInt8} (h : 128 ≤ b.toNat) : ¬ b < 0x80 := by
  rw [UInt8.lt_iff_toNat_lt]
  exact Nat.not_lt.mpr h

theorem lt_80 {b : UInt8} (h : b.toNat < 128) : b < 0x80 := UInt8.lt_iff_toNat_lt.mpr h

theorem uvarintLoop_eq (x : UInt64) (i : ℕ) (as : Bytes) (b : UInt8) (t : Bytes)
    (has : ∀ a ∈ as, 128 ≤ a.toNat) (hb : b.toNat < 128) (hlen : i + as.length ≤ 9)
    (hten : i + as.length = 9 → b ≤ 1) :
    uvarintLoop x (UInt64.ofNat (7 * i)) i (as ++ b :: t) =
      (x ||| orPayload (7 * i) (as ++ [b]), ((i + as.length + 1 : ℕ) : ℤ)) := by
  induction as generalizing x i with
  | nil =>
    simp only [length_nil, Nat.add_zero] at hlen hten
    have hsmall : ¬ (i = 9 ∧ b > 1) := fun h => UInt8.not_lt.mpr (hten h.1) h.2
    rw [nil_append, uvarintLoop, if_neg (by omega), if_pos (lt_80 hb), if_neg hsmall]
    simp [orPayload, and_7f_of_lt hb]
  | cons a as ih =>
    rw [length_cons] at hlen hten
    rw [cons_append, uvarintLoop, if_neg (by omega),
      if_neg (not_lt_80 (has a mem_cons_self))]
    have hshift : UInt64.ofNat (7 * i) + 7 = UInt64.ofNat (7 * (i + 1)) := by
      rw [Nat.mul_add, UInt64.ofNat_add]
      rfl
    rw [hshift, ih _ (i + 1) (fun a ha => has a (mem_cons_of_mem _ ha)) (by omega)
      (fun h => hten (by omega)), cons_append, orPayload, UInt64.or_assoc, length_cons]
    congr 2
    omega

/-- The byte-at-a-time reader reads a varint back, whatever follows it. -/
theorem uvarint_eq (h : IsVarint64 e u) (t : Bytes) :
    uvarint (e ++ t) = (u, (e.length : ℤ)) := by
  obtain ⟨as, b, rfl, hb, has⟩ := h.isVarint.exists_last
  have hlen := h.length_le
  rw [length_append, length_singleton] at hlen
  have hten : 0 + as.length = 9 → b ≤ 1 := fun h9 =>
    (h.last_eq_one (by omega)).le
  have := uvarintLoop_eq 0 0 as b t has hb (by omega) hten
  rw [uvarint, append_assoc, singleton_append]
  simp only [Nat.mul_zero, UInt64.zero_or, h.orPayload_eq] at this
  simpa using this

theorem unmarshalVarInt64_eq (h : IsVarint64 e (zigzagEncode v)) (t : Bytes) :
    unmarshalVarInt64 (e ++ t) = some (v, e.length) := by
  have hpos : 0 < e.length := length_pos_iff.mpr h.isVarint.ne_nil
  rw [unmarshalVarInt64, uvarint_eq h t]
  simp only
  rw [if_neg (by omega), zigzagDecode_zigzagEncode, Int.toNat_natCast]

/-- The scan stops just after the varint. -/
theorem scanVarint_eq (he : IsVarint e) (hsrc : src.drop idx = e ++ t) :
    scanVarint src idx = some (idx + e.length) := by
  obtain ⟨as, b, rfl, hb, has⟩ := he.exists_last
  have hfind : ((as ++ [b]) ++ t).findIdx? (· < 0x80) = some as.length := by
    have hnone : as.findIdx? (· < 0x80) = none :=
      findIdx?_eq_none_iff.mpr fun a ha => by simpa using not_lt_80 (has a ha)
    simp [findIdx?_append, hnone, findIdx?_cons, lt_80 hb]
  rw [scanVarint, hsrc, hfind]
  simp [Nat.add_assoc]

private theorem varintTail_eq (he : IsVarint e) (hlen : e.length ≤ 7)
    (hlast : ∀ as b, e = as ++ [b] → as.length = 6 → b = 1) :
    varintTail e = .ok (orPayload 21 e) := by
  obtain ⟨as, b, rfl, hb, -⟩ := he.exists_last
  have hmask := and_7f_of_lt hb
  match as with
  | [] => simp [varintTail, orPayload, hmask]
  | [b0] => simp [varintTail, orPayload, hmask]
  | [b0, b1] => simp [varintTail, orPayload, hmask, UInt64.or_assoc]
  | [b0, b1, b2] => simp [varintTail, orPayload, hmask, UInt64.or_assoc]
  | [b0, b1, b2, b3] => simp [varintTail, orPayload, hmask, UInt64.or_assoc]
  | [b0, b1, b2, b3, b4] => simp [varintTail, orPayload, hmask, UInt64.or_assoc]
  | [b0, b1, b2, b3, b4, b5] =>
    obtain rfl := hlast _ b rfl rfl
    have hone : (1 : UInt8) &&& 0x7f = 1 := rfl
    simp [varintTail, orPayload, hone, UInt64.or_assoc]
  | b0 :: b1 :: b2 :: b3 :: b4 :: b5 :: b6 :: as =>
    simp only [length_append, length_cons] at hlen
    omega

/-- The spelled-out reader reads a varint back. -/
theorem readVarUint64Slow_eq (h : IsVarint64 e u) (hsrc : src.drop idx = e ++ t) :
    readVarUint64Slow src idx = .ok (u, idx + e.length) := by
  have hget : ∀ k, src[idx + k]? = (e ++ t)[k]? := fun k => by rw [← hsrc, getElem?_drop]
  have hor := h.orPayload_eq
  have hvar := h.isVarint
  have hlen := h.length_le
  unfold readVarUint64Slow
  rw [show src[idx]? = (e ++ t)[0]? from hget 0, hget 1, hget 2]
  match e with
  | [c] =>
    have hc : c.toNat < 128 := hvar
    simp [orPayload, and_7f_of_lt hc] at hor
    simp [lt_80 hc, hor]
  | [c, d] =>
    obtain ⟨hc, hd⟩ := hvar
    have hd : d.toNat < 128 := hd
    simp [orPayload, and_7f_of_lt hd] at hor
    simp [not_lt_80 hc, lt_80 hd, hor]
  | [c, d, f] =>
    obtain ⟨hc, hd, hf⟩ := hvar
    have hf : f.toNat < 128 := hf
    simp [orPayload, and_7f_of_lt hf] at hor
    simp [not_lt_80 hc, not_lt_80 hd, lt_80 hf, UInt64.or_assoc, hor]
  | c :: d :: f :: g :: e =>
    obtain ⟨hc, hd, hf, he⟩ := hvar
    have hdrop : src.drop (idx + 3) = (g :: e) ++ t := by
      rw [← drop_drop, hsrc]
      rfl
    have htake : (src.drop (idx + 3)).take (idx + 3 + (g :: e).length - (idx + 3)) = g :: e := by
      rw [hdrop, Nat.add_sub_cancel_left, take_left]
    have htail : varintTail (g :: e) = .ok (orPayload 21 (g :: e)) := by
      refine varintTail_eq he (by simp at hlen ⊢; omega) fun as b heq has => ?_
      rw [heq] at h
      have hall : IsVarint64 ((c :: d :: f :: as) ++ [b]) u := h
      exact hall.last_eq_one (by simp [has])
    simp only [cons_append, getElem?_cons_zero, getElem?_cons_succ, not_lt_80 hc,
      not_lt_80 hd, not_lt_80 hf, if_false, scanVarint_eq he hdrop, htake, htail]
    rw [← hor]
    simp only [orPayload, UInt64.or_assoc, length_cons]
    simp
    omega

/-! ### The eight-byte window -/

/-- Bit 7 of byte `k` of the window. -/
private theorem testBit_leNat {bs : Bytes} (hk : k < bs.length) :
    (leNat bs).testBit (8 * k + 7) = decide (128 ≤ (bs.get ⟨k, hk⟩).toNat) := by
  have hbyte := leNat_div_mod bs k hk
  have hdiv : leNat bs / 2 ^ (8 * k + 7) = leNat bs / 256 ^ k / 128 := by
    rw [Nat.div_div_eq_div_mul, pow_add, pow_mul]
    norm_num
  rw [Nat.testBit_eq_decide_div_mod_eq, hdiv, ← hbyte]
  congr 1
  rw [eq_iff_iff]
  omega

/-- The stop bits are the clear top bits of the bytes. -/
private theorem testBit_stop (w : UInt64) (hi : i < 64) :
    testBit (~~~w &&& 0x8080808080808080) i = (decide (i % 8 = 7) && !testBit w i) := by
  have hmask : ∀ i : Fin 64, testBit 0x8080808080808080 i = decide ((i : ℕ) % 8 = 7) := by
    decide
  rw [testBit_and, testBit_not hi, hmask ⟨i, hi⟩, Bool.and_comm]

private theorem toNat_window (h : window.length = 8) :
    (UInt64.ofNat (leNat window)).toNat = leNat window := by
  have := leNat_lt window
  rw [h] at this
  rw [UInt64.toNat_ofNat', Nat.mod_eq_of_lt (by omega)]

/-- The stop bits of a window are those of its bytes without the high bit. -/
private theorem testBit_stop_window (h : window.length = 8) (hi : i < 64) :
    testBit (~~~(UInt64.ofNat (leNat window)) &&& 0x8080808080808080) i =
      decide (i % 8 = 7 ∧ (window.get ⟨i / 8, by omega⟩).toNat < 128) := by
  rw [testBit_stop _ hi, testBit, toNat_window h]
  by_cases hmod : i % 8 = 7
  · have hsplit : 8 * (i / 8) + 7 = i := by omega
    have hbit := testBit_leNat (show i / 8 < window.length by omega)
    rw [hsplit] at hbit
    rw [hbit, ← decide_not, ← Bool.decide_and]
    simp only [Nat.not_le]
  · simp [hmod]

/-- The first stop bit gives the length of a varint that ends inside the window. -/
private theorem trailingZeros_stop {as : Bytes} {b : UInt8} (has : ∀ a ∈ as, 128 ≤ a.toNat)
    (hb : b.toNat < 128)
    (hlen : (as ++ b :: t).length = 8) :
    trailingZeros (~~~(UInt64.ofNat (leNat (as ++ b :: t))) &&& 0x8080808080808080) =
      8 * as.length + 7 := by
  have hlen' : as.length + (t.length + 1) = 8 := by simpa using hlen
  have hfind : (List.range 64).find? (fun i => testBit (~~~(UInt64.ofNat (leNat (as ++ b :: t))) &&&
      0x8080808080808080) i) = some (8 * as.length + 7) := by
    rw [find?_range_eq_some]
    refine ⟨?_, mem_range.mpr (by omega), ?_⟩
    · rw [testBit_stop_window hlen (by omega), decide_eq_true_iff]
      have hdiv : (8 * as.length + 7) / 8 = as.length := by omega
      refine ⟨by omega, ?_⟩
      simp [hdiv, hb]
    · intro j hj
      rw [testBit_stop_window hlen (by omega)]
      simp only [Bool.not_eq_true', decide_eq_false_iff_not, not_and, Nat.not_lt]
      intro hmod
      have hlt : j / 8 < as.length := by omega
      rw [get_eq_getElem, getElem_append_left hlt]
      exact has _ (getElem_mem hlt)
  rw [trailingZeros, hfind, Option.getD_some]

/-- Without a byte that ends a varint there is no stop bit. -/
theorem stop_eq_zero (h : window.length = 8) (hall : ∀ a ∈ window, 128 ≤ a.toNat) :
    ~~~(UInt64.ofNat (leNat window)) &&& 0x8080808080808080 = 0 := by
  refine eq_of_testBit fun i hi => ?_
  rw [testBit_zero, testBit_stop_window h hi, decide_eq_false_iff_not]
  exact fun hcon => Nat.not_lt.mpr (hall _ (get_mem _ _)) hcon.2

/-- Byte `k` of the window, masked. -/
private theorem window_byte (h : window.length = 8) (hk : k < 8) :
    (UInt64.ofNat (leNat window) >>> UInt64.ofNat (8 * k)) &&& 0x7f =
      (window.get ⟨k, by omega⟩ &&& 0x7f).toUInt64 := by
  apply UInt64.toNat_inj.mp
  have hbyte := leNat_div_mod window k (by omega)
  have hshift : (UInt64.ofNat (leNat window) >>> UInt64.ofNat (8 * k)).toNat =
      leNat window / 256 ^ k := by
    rw [UInt64.toNat_shiftRight, toNat_window h, UInt64.toNat_ofNat',
      Nat.mod_eq_of_lt (show 8 * k < 2 ^ 64 by omega), Nat.mod_eq_of_lt (show 8 * k < 64 by omega),
      Nat.shiftRight_eq_div_pow, pow_mul, show (2 : ℕ) ^ 8 = 256 from rfl]
  rw [UInt64.toNat_and, hshift, UInt8.toNat_toUInt64, toNat_and_7f, ← hbyte,
    show (0x7f : UInt64).toNat = 2 ^ 7 - 1 from rfl, Nat.and_two_pow_sub_one_eq_mod]
  omega

/-- The loop over the bytes of the window assembles their payload bits. -/
private theorem window_foldl (h : window.length = 8) {m : ℕ} (hm : m < 8) :
    let w := UInt64.ofNat (leNat window)
    (List.range' 1 m).foldl (fun u k => u ||| ((w >>> UInt64.ofNat (8 * k)) &&& 0x7f) <<<
      UInt64.ofNat (7 * k)) (w &&& 0x7f) = orPayload 0 (window.take (m + 1)) := by
  intro w
  induction m with
  | zero =>
    have hbyte := window_byte h (k := 0) (by omega)
    obtain ⟨b, bs, rfl⟩ := exists_cons_of_ne_nil (l := window) (by rintro rfl; simp at h)
    simpa [orPayload] using hbyte
  | succ m ih =>
    have htake : window.take (m + 1 + 1) = window.take (m + 1) ++
        [window.get ⟨m + 1, by omega⟩] := by
      rw [get_eq_getElem, take_append_getElem (by omega)]
    rw [range'_concat, foldl_append, ih (by omega), htake, orPayload_append]
    have hlen : (window.take (m + 1)).length = m + 1 := by
      rw [length_take]
      omega
    simp only [foldl_cons, foldl_nil, Nat.one_mul]
    rw [Nat.add_comm 1 m, window_byte h (by omega), hlen]
    simp [orPayload]

/-- The window reader reads a varint back. -/
theorem readVarUint64Fast_eq (h : IsVarint64 e u) (hsrc : src.drop idx = e ++ t) :
    readVarUint64Fast src idx = .ok (u, idx + e.length) := by
  unfold readVarUint64Fast
  dsimp only
  split_ifs with hwin
  · obtain ⟨hlen, hstop⟩ := hwin
    obtain ⟨as, b, rfl, hb, has⟩ := h.isVarint.exists_last
    rw [hsrc] at hlen hstop ⊢
    -- a varint longer than the window would have left no stop bit
    have hshort : as.length < 8 := by
      by_contra hge
      refine hstop (stop_eq_zero hlen fun a ha => has a ?_)
      rw [append_assoc, take_append_of_le_length (by omega)] at ha
      exact mem_of_mem_take ha
    have hwindow : ((as ++ [b]) ++ t).take 8 = as ++ b :: t.take (7 - as.length) := by
      have hm : 8 - (as ++ [b]).length = 7 - as.length := by
        rw [length_append, length_singleton]
        omega
      rw [take_append, take_of_length_le (by simp; omega), hm, append_assoc,
        singleton_append]
    rw [hwindow] at hlen ⊢
    have hn : trailingZeros (~~~(UInt64.ofNat (leNat (as ++ b :: t.take (7 - as.length)))) &&&
        0x8080808080808080) >>> 3 + 1 = as.length + 1 := by
      rw [trailingZeros_stop has hb hlen, Nat.shiftRight_eq_div_pow]
      omega
    have htake : (as ++ b :: t.take (7 - as.length)).take (as.length + 1) = as ++ [b] := by
      rw [← singleton_append, ← append_assoc, take_left' (by simp)]
    rw [hn, Nat.add_sub_cancel, window_foldl hlen hshort, htake, h.orPayload_eq,
      length_append, length_singleton]
  · exact readVarUint64Slow_eq h hsrc

/-! ### Arrays and length-prefixed bytes -/

theorem zigzagDecode_byte {c : UInt8} (hc : c.toNat < 128) :
    ((c >>> 1).toInt8 ^^^ ((c <<< 7).toInt8 >>> 7)).toInt64 = zigzagDecode c.toUInt64 := by
  have hall : ∀ n : Fin 128, (((UInt8.ofNat n) >>> 1).toInt8 ^^^
      (((UInt8.ofNat n) <<< 7).toInt8 >>> 7)).toInt64 = zigzagDecode (UInt8.ofNat n).toUInt64 := by
    decide
  have := hall ⟨c.toNat, hc⟩
  rwa [UInt8.ofNat_toNat] at this

/-- The one-byte loop decodes the values before the first longer varint. -/
private theorem IsVarInts.oneByteVarInts_eq (h : IsVarInts src vs) (t : Bytes) :
    ∃ i ≤ vs.length, oneByteVarInts vs.length (src ++ t) = vs.take i ∧
      ∃ rest, (src ++ t).drop i = rest ++ t ∧ IsVarInts rest (vs.drop i) := by
  induction h with
  | nil => exact ⟨0, le_rfl, by simp [oneByteVarInts], [], by simp, .nil⟩
  | @cons e src v vs he hsrc ih =>
    have hvar := he.isVarint
    match e with
    | [c] =>
      have hc : c.toNat < 128 := hvar
      obtain ⟨i, hi, hvals, rest, hdrop, hrest⟩ := ih
      have hword : c.toUInt64 = zigzagEncode v := by
        have := he.orPayload_eq
        simpa [orPayload, and_7f_of_lt hc] using this
      have hsmall : ¬ c ≥ 0x80 := UInt8.not_le.mpr (lt_80 hc)
      refine ⟨i + 1, by simpa using hi, ?_, rest, by simpa using hdrop, by simpa using hrest⟩
      simp only [cons_append, nil_append, length_cons, oneByteVarInts, if_neg hsmall,
        zigzagDecode_byte hc, hword, zigzagDecode_zigzagEncode, hvals, take_succ_cons]
    | c :: d :: e =>
      have hlarge : c ≥ 0x80 := UInt8.not_lt.mp (not_lt_80 hvar.1)
      refine ⟨0, Nat.zero_le _, ?_, (c :: d :: e) ++ src, by simp, .cons he hsrc⟩
      simp only [cons_append, length_cons, oneByteVarInts, if_pos hlarge, take_zero]

private theorem IsVarInts.readVarInt64s_eq {part : Bytes} (h : IsVarInts part vs)
    (hsrc : src.drop idx = part ++ t) :
    readVarInt64s src vs.length idx = .ok (vs, idx + part.length) := by
  induction h generalizing idx with
  | nil => simp [readVarInt64s]
  | @cons e part v vs he _ ih =>
    rw [append_assoc] at hsrc
    have hnext : src.drop (idx + e.length) = part ++ t := by
      rw [← drop_drop, hsrc, drop_left]
    rw [length_cons, readVarInt64s, readVarUint64Fast_eq he hsrc]
    simp only [ih hnext, zigzagDecode_zigzagEncode, length_append, Nat.add_assoc]

/-- Reading an array of varints gives the values and leaves what follows them. -/
theorem IsVarInts.unmarshalVarInt64s_eq (h : IsVarInts src vs) (t : Bytes) :
    unmarshalVarInt64s vs.length (src ++ t) = .ok (vs, t) := by
  have hlen := h.le_length
  obtain ⟨i, hi, hvals, rest, hdrop, hrest⟩ := h.oneByteVarInts_eq t
  have hil : (vs.take i).length = i := by
    rw [length_take]
    omega
  rw [unmarshalVarInt64s, if_neg (by rw [length_append]; omega)]
  simp only [hvals, hil]
  split_ifs with hall
  · subst hall
    have hnil : rest = [] := by
      rw [drop_length] at hrest
      cases hrest
      rfl
    simp [hdrop, hnil]
  · have hread := hrest.readVarInt64s_eq hdrop
    rw [length_drop] at hread
    have htail : (src ++ t).drop (i + rest.length) = t := by
      rw [← drop_drop, hdrop, drop_left]
    simp only [hread, take_append_drop, htail]

/-! ### Sizes of what is read -/

private theorem uvarintLoop_size_le (x s : UInt64) (i : ℕ) (src : Bytes) :
    (uvarintLoop x s i src).2 ≤ ((i + src.length : ℕ) : ℤ) := by
  induction src generalizing x s i with
  | nil =>
    simp only [uvarintLoop]
    omega
  | cons b src ih =>
    rw [uvarintLoop, length_cons]
    split_ifs
    · simp only
      omega
    · simp only
      omega
    · simp only
      omega
    · have := ih (x ||| (b &&& 0x7f).toUInt64 <<< s) (s + 7) (i + 1)
      omega

/-- A varint is read from inside the source. -/
theorem uvarint_size_le (src : Bytes) : (uvarint src).2 ≤ (src.length : ℤ) := by
  simpa [uvarint] using uvarintLoop_size_le 0 0 0 src

theorem unmarshalVarInt64_size_le (h : unmarshalVarInt64 src = some (v, nSize)) :
    nSize ≤ src.length := by
  have hle := uvarint_size_le src
  rw [unmarshalVarInt64] at h
  simp only at h
  split_ifs at h
  cases h
  omega

theorem unmarshalVarUint64_size_le (h : unmarshalVarUint64 src = some (u, nSize)) :
    nSize ≤ src.length := by
  have hle := uvarint_size_le src
  match src with
  | [] => cases h
  | [c] =>
    simp only [unmarshalVarUint64] at h
    split_ifs at h
    cases h
    simp
  | c :: d :: rest =>
    simp only [unmarshalVarUint64] at h
    split at h
    · cases h
      simp
    split at h
    · cases h
      simp
    split at h
    · cases h
    · cases h
      omega

theorem unmarshalBytes_size_le {b : Bytes} (h : unmarshalBytes src = some (b, nSize)) :
    nSize ≤ src.length := by
  rw [unmarshalBytes] at h
  cases hn : unmarshalVarUint64 src with
  | none => simp [hn] at h
  | some p =>
    have hle := unmarshalVarUint64_size_le hn
    simp only [hn] at h
    split_ifs at h with hfits
    cases h
    rw [gt_iff_lt, UInt64.not_lt, UInt64.le_iff_toNat_le, UInt64.toNat_ofNat'] at hfits
    have := Nat.mod_le (src.length - p.2) (2 ^ 64)
    omega

private theorem length_oneByteVarInts_le (n : ℕ) (src : Bytes) :
    (oneByteVarInts n src).length ≤ n := by
  induction n generalizing src with
  | zero => simp [oneByteVarInts]
  | succ n ih =>
    match src with
    | [] => simp [oneByteVarInts]
    | c :: src =>
      rw [oneByteVarInts]
      split_ifs
      · simp
      · simpa using ih src

private theorem length_of_readVarInt64s {n idx' : ℕ}
    (h : readVarInt64s src n idx = .ok (vs, idx')) :
    vs.length = n := by
  induction n generalizing idx vs with
  | zero =>
    cases h
    rfl
  | succ n ih =>
    rw [readVarInt64s] at h
    split at h
    · cases h
    · split at h
      · cases h
      · rename_i hrest
        cases h
        rw [length_cons, ih hrest]

/-- The array reader returns as many values as it was asked for. -/
theorem length_of_unmarshalVarInt64s {n : ℕ} (h : unmarshalVarInt64s n src = .ok (vs, t)) :
    vs.length = n := by
  have hle := length_oneByteVarInts_le n src
  rw [unmarshalVarInt64s] at h
  simp only at h
  split_ifs at h with hlen hall
  · cases h
    exact hall
  · split at h
    · cases h
    · rename_i hrest
      cases h
      have := length_of_readVarInt64s hrest
      rw [length_append]
      omega

end Esmetrics
