import Esmetrics.Lib.FixedWidth
import Esmetrics.Lib.Outcome

/-!
# Block compression

Model of `esm-encoding/src/compress.rs` over the `zstd` crate. The crate is a parameter: a
`Zstd` gives the calls that `compress_zstd_level` and `decompress_zstd` make. What the rest of the
development relies on is `Zstd.RoundTrips`: decompressing a compressed block gives the block
back.
-/

namespace Esmetrics

/-- The calls into the `zstd` crate. -/
structure Zstd where
  /-- `Compressor::compress_to_buffer` at a level, into a buffer of `compress_bound` bytes. -/
  compressToBuffer : ℤ → Bytes → Bytes
  /-- `get_frame_content_size`, when it is `Ok(Some(_))`. -/
  getFrameContentSize : Bytes → Option UInt64
  /-- `Decompressor::decompress_to_buffer` into a buffer of the given size. -/
  decompressToBuffer : Bytes → ℕ → Except String Bytes
  /-- `stream::read::Decoder`, read to the end. -/
  decodeStream : Bytes → Except String Bytes

variable (z : Zstd)

/-- Appends compressed `src`. -/
def compressZstdLevel (dst src : Bytes) (compressLevel : ℤ) : Bytes :=
  dst ++ z.compressToBuffer compressLevel src

def decompressZstdInternal (dst src : Bytes) : Outcome Bytes :=
  if src = [] then .ok dst
  else
    match z.getFrameContentSize src with
    | some contentSize =>
      -- `resize` to a length that `isize` cannot hold, or past the end of `usize`
      if dst.length + contentSize.toNat > isizeMax then .panic "capacity overflow"
      else
        match z.decompressToBuffer src contentSize.toNat with
        | .ok b => .ok (dst ++ b)
        | .error err => .err err
    | none =>
      match z.decodeStream src with
      | .ok b => .ok (dst ++ b)
      | .error err => .err err

/-- Decompresses `src`, appending the result to `dst`. -/
def decompressZstd (dst src : Bytes) : Outcome Bytes :=
  (decompressZstdInternal z dst src).mapErr fun err =>
    let len := src.length
    s!"cannot decompress zstd block with len={len}: {err}"

/-- What a caller of the compressor relies on. -/
def Zstd.RoundTrips : Prop :=
  ∀ (src : Bytes) (compressLevel : ℤ),
    decompressZstd z [] (compressZstdLevel z [] src compressLevel) = .ok src

/-- Decompression into an empty buffer panics exactly when the frame claims more than a `Vec`
can hold. -/
theorem panics_decompressZstd_iff (src : Bytes) :
    (decompressZstd z [] src).Panics ↔
      src ≠ [] ∧ ∃ n, z.getFrameContentSize src = some n ∧ isizeMax < n.toNat := by
  rw [decompressZstd, Outcome.panics_mapErr, decompressZstdInternal]
  split_ifs with hnil
  · simp [hnil]
  · cases hsize : z.getFrameContentSize src with
    | none =>
      cases z.decodeStream src <;> simp
    | some n =>
      rcases Nat.lt_or_ge isizeMax n.toNat with h | h
      · simp [hnil, h]
      · cases hdec : z.decompressToBuffer src n.toNat <;> simp [hdec, Nat.not_lt.mpr h]

/-- A compressor without compression: a marker byte, then the data. -/
def Zstd.stored : Zstd where
  compressToBuffer _ src := 0x28 :: src
  getFrameContentSize _ := none
  decompressToBuffer _ _ := .error "unused"
  decodeStream src := .ok src.tail

theorem Zstd.roundTrips_stored : Zstd.stored.RoundTrips := fun src compressLevel => by
  simp [decompressZstd, decompressZstdInternal, compressZstdLevel, Zstd.stored]

end Esmetrics
