import Esmetrics.Lib.BigEndian

/-!
# Bit strings, high bits first

`bitsBE n v` are the low `n` bits of a number, the highest of them first, and `byteBits` the bits of
a byte string in the order in which a bit stream reads them. `bitsBE_add` cuts a bit string where a
reader has to continue in its next buffer, `bitsBE_beNat` says what is in a buffer that was filled
from bytes, and `bitsBE_inj` is that a number is given by its bits. `bitsValue` is the number that a
list of bits stands for.
-/

namespace Esmetrics

open List

/-- The low `n` bits of a number, the highest of them first. -/
def bitsBE : ℕ → ℕ → List Bool
  | 0, _ => []
  | n + 1, v => v.testBit n :: bitsBE n v

/-- The bits of a byte string. -/
def byteBits (bs : Bytes) : List Bool := bs.flatMap fun b => bitsBE 8 b.toNat

/-- The number of a list of bits. -/
def bitsValue (bs : List Bool) : ℕ := bs.foldl (fun v b => 2 * v + b.toNat) 0

@[simp]
theorem length_bitsBE (n v : ℕ) : (bitsBE n v).length = n := by
  induction n with
  | zero => rfl
  | succ n ih => rw [bitsBE, length_cons, ih]

/-- Only the low bits are read. -/
theorem bitsBE_congr {n v w : ℕ} (h : ∀ i < n, v.testBit i = w.testBit i) :
    bitsBE n v = bitsBE n w := by
  induction n with
  | zero => rfl
  | succ n ih => rw [bitsBE, bitsBE, h n (by omega), ih fun i hi => h i (by omega)]

theorem bitsBE_mod {n m : ℕ} (h : n ≤ m) (v : ℕ) : bitsBE n (v % 2 ^ m) = bitsBE n v := by
  refine bitsBE_congr fun i hi => ?_
  rw [Nat.testBit_mod_two_pow]
  simp [show i < m by omega]

/-- A bit string in two parts. -/
theorem bitsBE_add (m n v : ℕ) : bitsBE (m + n) v = bitsBE m (v / 2 ^ n) ++ bitsBE n v := by
  induction m with
  | zero => rw [Nat.zero_add, bitsBE, nil_append]
  | succ m ih =>
    rw [show m + 1 + n = m + n + 1 by omega, bitsBE, bitsBE, ih, cons_append,
      Nat.testBit_div_two_pow]

/-- Numbers with the same low bits. -/
theorem bitsBE_inj {n v w : ℕ} (h : bitsBE n v = bitsBE n w) : v % 2 ^ n = w % 2 ^ n := by
  apply Nat.eq_of_testBit_eq
  intro i
  rw [Nat.testBit_mod_two_pow, Nat.testBit_mod_two_pow]
  induction n with
  | zero => simp
  | succ n ih =>
    obtain ⟨hbit, hrest⟩ := List.cons.inj h
    rcases Nat.lt_trichotomy i n with hi | rfl | hi
    · have hin := ih hrest
      simp only [hi, decide_true, Bool.true_and] at hin
      simp [show i < n + 1 by omega, hin]
    · rw [hbit]
    · simp [show ¬ i < n + 1 by omega]

theorem bitsBE_zero (n : ℕ) : bitsBE n 0 = List.replicate n false := by
  induction n with
  | zero => rfl
  | succ n ih => rw [bitsBE, ih, Nat.zero_testBit, replicate_succ]

/-- A bit string followed by zeros. -/
theorem bitsBE_append_zeros (m n v : ℕ) :
    bitsBE m v ++ List.replicate n false = bitsBE (m + n) (v * 2 ^ n) := by
  have hzero : bitsBE n (v * 2 ^ n) = List.replicate n false := by
    rw [← bitsBE_mod le_rfl, Nat.mul_mod_left, bitsBE_zero]
  rw [bitsBE_add, Nat.mul_div_cancel _ (Nat.two_pow_pos n), hzero]

/-- Filling zeros at the end of a bit string. -/
theorem bitsBE_or {m n v x : ℕ} (hv : bitsBE n v = List.replicate n false) (hx : x < 2 ^ n) :
    bitsBE (m + n) (v ||| x) = bitsBE m (v / 2 ^ n) ++ bitsBE n x := by
  have hlow : v % 2 ^ n = 0 := by
    rw [bitsBE_inj (hv.trans (bitsBE_zero n).symm), Nat.zero_mod]
  have hhigh : bitsBE m ((v ||| x) / 2 ^ n) = bitsBE m (v / 2 ^ n) := by
    rw [Nat.or_div_two_pow, Nat.div_eq_of_lt hx, Nat.or_zero]
  have hrest : bitsBE n (v ||| x) = bitsBE n x := by
    rw [← bitsBE_mod le_rfl, Nat.or_mod_two_pow, hlow, Nat.zero_or, bitsBE_mod le_rfl]
  rw [bitsBE_add, hhigh, hrest]

theorem bitsValue_append_singleton (bs : List Bool) (b : Bool) :
    bitsValue (bs ++ [b]) = 2 * bitsValue bs + b.toNat := by
  rw [bitsValue, bitsValue, foldl_append]
  rfl

theorem bitsValue_lt (bs : List Bool) : bitsValue bs < 2 ^ bs.length := by
  induction bs using List.reverseRecOn with
  | nil => simp [bitsValue]
  | append_singleton bs b ih =>
    have hb := b.toNat_lt
    rw [bitsValue_append_singleton, length_append, length_singleton, pow_succ]
    omega

theorem bitsBE_bitsValue (bs : List Bool) : bitsBE bs.length (bitsValue bs) = bs := by
  induction bs using List.reverseRecOn with
  | nil => rfl
  | append_singleton bs b ih =>
    have hb := b.toNat_lt
    have hdiv : (2 * bitsValue bs + b.toNat) / 2 ^ 1 = bitsValue bs := by omega
    have hlast : bitsBE 1 (2 * bitsValue bs + b.toNat) = [b] := by
      cases b <;> simp [bitsBE]
    rw [bitsValue_append_singleton, length_append, length_singleton, bitsBE_add, hdiv, ih, hlast]

/-! ### Byte strings -/

@[simp]
theorem byteBits_nil : byteBits [] = [] := rfl

@[simp]
theorem byteBits_cons (b : UInt8) (bs : Bytes) :
    byteBits (b :: bs) = bitsBE 8 b.toNat ++ byteBits bs := rfl

@[simp]
theorem byteBits_append (as bs : Bytes) : byteBits (as ++ bs) = byteBits as ++ byteBits bs := by
  simp [byteBits]

@[simp]
theorem length_byteBits (bs : Bytes) : (byteBits bs).length = 8 * bs.length := by
  induction bs with
  | nil => rfl
  | cons b bs ih =>
    rw [byteBits_cons, length_append, length_bitsBE, ih, length_cons]
    omega

theorem drop_byteBits (bs : Bytes) (n : ℕ) : (byteBits bs).drop (8 * n) = byteBits (bs.drop n) := by
  induction n generalizing bs with
  | zero => rfl
  | succ n ih =>
    cases bs with
    | nil => simp
    | cons b bs =>
      rw [byteBits_cons, drop_succ_cons, ← ih, show 8 * (n + 1) = 8 + 8 * n by omega,
        ← drop_drop, drop_left' (length_bitsBE 8 _)]

theorem beNat_append_singleton (bs : Bytes) (b : UInt8) :
    beNat (bs ++ [b]) = beNat bs * 256 + b.toNat := by
  rw [beNat, beNat, foldl_append]
  rfl

theorem beNat_lt (bs : Bytes) : beNat bs < 2 ^ (8 * bs.length) := by
  induction bs using List.reverseRecOn with
  | nil => simp [beNat]
  | append_singleton bs b ih =>
    have hb := b.toNat_lt
    rw [beNat_append_singleton, length_append, length_singleton, Nat.mul_add, pow_add]
    omega

/-- The bits of the number that a big-endian byte string stands for. -/
theorem bitsBE_beNat (bs : Bytes) : bitsBE (8 * bs.length) (beNat bs) = byteBits bs := by
  induction bs using List.reverseRecOn with
  | nil => rfl
  | append_singleton bs b ih =>
    have hb := b.toNat_lt
    have hdiv : (beNat bs * 256 + b.toNat) / 2 ^ 8 = beNat bs := by omega
    have hmod : bitsBE 8 (beNat bs * 256 + b.toNat) = bitsBE 8 b.toNat := by
      rw [← bitsBE_mod le_rfl, show (beNat bs * 256 + b.toNat) % 2 ^ 8 = b.toNat by omega]
    rw [beNat_append_singleton, length_append, length_singleton, Nat.mul_add, bitsBE_add,
      hdiv, ih, hmod, byteBits_append, byteBits_cons, byteBits_nil, append_nil]

end Esmetrics
