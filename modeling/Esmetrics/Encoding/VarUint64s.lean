import Esmetrics.Encoding.Int

/-!
# Arrays of unsigned varints

Model of `marshal_var_uint64s` and `unmarshal_var_uint64s` of `esm-encoding/src/int.rs`. The writer
starts over with the general form at the first value that takes more than one byte; the reader takes
one-byte values as long as there are any and goes on with the window reader. A written array is read
back whatever follows it (`unmarshalVarUint64s_varUints`).
-/

namespace Esmetrics

open List

def marshalVarUint64sSlow (dst : Bytes) (us : List UInt64) : Bytes := us.foldl appendVarUint64 dst

/-- The one-byte loop of `marshalVarUint64s`; `all` are the items to start over with, and `dstLen`
the length of the destination before the first of them. -/
def marshalVarUint64sLoop (dstLen : ℕ) (all : List UInt64) : Bytes → List UInt64 → Bytes
  | dst, [] => dst
  | dst, u :: us =>
    if u ≥ 128 then marshalVarUint64sSlow (dst.take dstLen) all
    else marshalVarUint64sLoop dstLen all (dst ++ [u.toUInt8]) us

/-- Appends varint-encoded `us`. -/
def marshalVarUint64s (dst : Bytes) (us : List UInt64) : Bytes :=
  marshalVarUint64sLoop dst.length us dst us

/-- At most `n` leading bytes below `0x80`. -/
def oneByteVarUints : ℕ → Bytes → List UInt64
  | n + 1, c :: src => if c ≥ 0x80 then [] else c.toUInt64 :: oneByteVarUints n src
  | _, _ => []

/-- The mixed path of `unmarshalVarUint64s`: `n` more items from `idx` on. -/
def readVarUint64s (src : Bytes) : ℕ → ℕ → Except String (List UInt64 × ℕ)
  | 0, idx => .ok ([], idx)
  | n + 1, idx =>
    match readVarUint64Fast src idx with
    | .error err => .error err
    | .ok (u, idx) =>
      match readVarUint64s src n idx with
      | .error err => .error err
      | .ok (us, idx) => .ok (u :: us, idx)

/-- Unmarshals `n` values from `src`; returns them with the remaining tail. -/
def unmarshalVarUint64s (n : ℕ) (src : Bytes) : Except String (List UInt64 × Bytes) :=
  if src.length < n then
    let len := src.length
    .error s!"too small len(src)={len}; it must be bigger or equal to len(dst)={n}"
  else
    let is := oneByteVarUints n src
    if is.length = n then .ok (is, src.drop n)
    else
      match readVarUint64s src (n - is.length) is.length with
      | .error err => .error err
      | .ok (us, idx) => .ok (is ++ us, src.drop idx)

/-! ### The writer -/

/-- The varints of a list of values. -/
def varUints (us : List UInt64) : Bytes := us.flatMap fun u => leb128 u.toNat

@[simp]
theorem varUints_nil : varUints [] = [] := rfl

@[simp]
theorem varUints_cons (u : UInt64) (us : List UInt64) :
    varUints (u :: us) = leb128 u.toNat ++ varUints us := rfl

theorem length_le_varUints (us : List UInt64) : us.length ≤ (varUints us).length := by
  induction us with
  | nil => rfl
  | cons u us ih =>
    have := one_le_length_leb128 u.toNat
    rw [varUints_cons, length_append, length_cons]
    omega

private theorem marshalVarUint64sSlow_eq (dst : Bytes) (us : List UInt64) :
    marshalVarUint64sSlow dst us = dst ++ varUints us := by
  induction us generalizing dst with
  | nil => simp [marshalVarUint64sSlow]
  | cons u us ih =>
    rw [marshalVarUint64sSlow, foldl_cons, appendVarUint64_eq, ← marshalVarUint64sSlow, ih,
      varUints_cons, append_assoc]

/-- The one-byte loop, started over or not, appends the varints of all the items. -/
private theorem marshalVarUint64sLoop_eq (dst : Bytes) (done us : List UInt64) :
    marshalVarUint64sLoop dst.length (done ++ us) (dst ++ varUints done) us =
      dst ++ varUints (done ++ us) := by
  induction us generalizing done with
  | nil => simp [marshalVarUint64sLoop]
  | cons u us ih =>
    rw [marshalVarUint64sLoop]
    split_ifs with h
    · rw [take_left, marshalVarUint64sSlow_eq]
    · have hu : u.toNat < 128 := UInt64.lt_iff_toNat_lt.mp (UInt64.not_le.mp h)
      have hdone : varUints done ++ leb128 u.toNat = varUints (done ++ [u]) := by
        simp [varUints]
      have hlist : done ++ u :: us = (done ++ [u]) ++ us := by simp
      rw [singleton_toUInt8_eq_leb128 hu, append_assoc, hdone, hlist]
      exact ih (done ++ [u])

theorem marshalVarUint64s_eq (dst : Bytes) (us : List UInt64) :
    marshalVarUint64s dst us = dst ++ varUints us := by
  simpa [marshalVarUint64s] using marshalVarUint64sLoop_eq dst [] us

/-! ### The reader -/

/-- The one-byte loop reads the values before the first longer varint. -/
private theorem oneByteVarUints_eq (us : List UInt64) (t : Bytes) :
    ∃ i ≤ us.length, oneByteVarUints us.length (varUints us ++ t) = us.take i ∧
      (varUints us ++ t).drop i = varUints (us.drop i) ++ t := by
  induction us with
  | nil => exact ⟨0, le_rfl, by simp [oneByteVarUints], by simp⟩
  | cons u us ih =>
    rcases Nat.lt_or_ge u.toNat 128 with hu | hu
    · obtain ⟨i, hi, hvals, hdrop⟩ := ih
      rw [varUints_cons, ← singleton_toUInt8_eq_leb128 hu, cons_append, cons_append,
        nil_append]
      have hbyte : u.toUInt8.toNat = u.toNat := by
        rw [UInt64.toNat_toUInt8]
        omega
      have hsmall : ¬ u.toUInt8 ≥ 0x80 := by
        rw [ge_iff_le, UInt8.le_iff_toNat_le, hbyte]
        exact Nat.not_le.mpr hu
      have hword : u.toUInt8.toUInt64 = u := by
        refine UInt64.toNat_inj.mp ?_
        rw [UInt8.toNat_toUInt64, hbyte]
      refine ⟨i + 1, by simpa using hi, ?_, by simpa using hdrop⟩
      rw [length_cons, oneByteVarUints, if_neg hsmall, hvals, hword, take_succ_cons]
    · refine ⟨0, Nat.zero_le _, ?_, by simp⟩
      rw [varUints_cons, leb128_of_ge hu, cons_append, cons_append, length_cons,
        oneByteVarUints, take_zero, if_pos]
      rw [ge_iff_le, UInt8.le_iff_toNat_le, toNat_ofNat_of_lt (by omega)]
      exact Nat.le_add_left _ _

private theorem readVarUint64s_eq (us : List UInt64) {src t : Bytes} {idx : ℕ}
    (hsrc : src.drop idx = varUints us ++ t) :
    readVarUint64s src us.length idx = .ok (us, idx + (varUints us).length) := by
  induction us generalizing idx with
  | nil => simp [readVarUint64s]
  | cons u us ih =>
    rw [varUints_cons, append_assoc] at hsrc
    have hnext : src.drop (idx + (leb128 u.toNat).length) = varUints us ++ t := by
      rw [← drop_drop, hsrc, drop_left]
    rw [length_cons, readVarUint64s, readVarUint64Fast_eq (isVarint64_leb128 u) hsrc]
    simp only [ih hnext, varUints_cons, length_append, Nat.add_assoc]

/-- A written array is read back, and what follows it is left. -/
theorem unmarshalVarUint64s_varUints (us : List UInt64) (t : Bytes) :
    unmarshalVarUint64s us.length (varUints us ++ t) = .ok (us, t) := by
  have hlen := length_le_varUints us
  obtain ⟨i, hi, hvals, hdrop⟩ := oneByteVarUints_eq us t
  have hil : (us.take i).length = i := by
    rw [length_take]
    omega
  rw [unmarshalVarUint64s, if_neg (by rw [length_append]; omega)]
  simp only [hvals, hil]
  split_ifs with hall
  · subst hall
    simp [hdrop]
  · have hread := readVarUint64s_eq (us.drop i) hdrop
    rw [length_drop] at hread
    have htail : (varUints us ++ t).drop (i + (varUints (us.drop i)).length) = t := by
      rw [← drop_drop, hdrop, drop_left]
    simp only [hread, take_append_drop, htail]

end Esmetrics
