import Esmetrics.Lib.FixedWidth

/-!
# Big- and little-endian byte strings

`beBytes w n` are the `w` big-endian bytes of `n` (`to_be_bytes`), `beNat` reads a big-endian
byte string of any length (`from_be_bytes`), and `leNat` reads a little-endian one. Lengths
are explicit, so the fixed-width readers of a format are `beNat` on a slice.
-/

namespace Esmetrics

/-- The `w` big-endian bytes of a number, high bytes first. -/
def beBytes : ℕ → ℕ → Bytes
  | 0, _ => []
  | w + 1, n => UInt8.ofNat (n / 256 ^ w) :: beBytes w n

/-- The number a big-endian byte string stands for. -/
def beNat (bs : Bytes) : ℕ := bs.foldl (fun acc b => acc * 256 + b.toNat) 0

/-- The number a little-endian byte string stands for. -/
def leNat : Bytes → ℕ
  | [] => 0
  | b :: bs => b.toNat + 256 * leNat bs

@[simp]
theorem length_beBytes (w n : ℕ) : (beBytes w n).length = w := by
  induction w with
  | zero => rfl
  | succ w ih => rw [beBytes, List.length_cons, ih]

private theorem foldl_be_beBytes (w n acc : ℕ) :
    (beBytes w n).foldl (fun acc b => acc * 256 + b.toNat) acc = acc * 256 ^ w + n % 256 ^ w := by
  induction w generalizing acc with
  | zero => simp [beBytes, Nat.mod_one]
  | succ w ih =>
    have hdiv : n % 256 ^ (w + 1) = n / 256 ^ w % 256 * 256 ^ w + n % 256 ^ w := by
      rw [pow_succ, Nat.mod_mul, Nat.add_comm, Nat.mul_comm]
    rw [beBytes, List.foldl_cons, ih, UInt8.toNat_ofNat', hdiv, show (2 : ℕ) ^ 8 = 256 from rfl]
    ring

/-- Reading the `w` bytes of a number gives it back, modulo `256 ^ w`. -/
theorem beNat_beBytes (w n : ℕ) : beNat (beBytes w n) = n % 256 ^ w := by
  rw [beNat, foldl_be_beBytes]
  simp

theorem leNat_lt (bs : Bytes) : leNat bs < 256 ^ bs.length := by
  induction bs with
  | nil => simp [leNat]
  | cons b bs ih =>
    have hb := b.toNat_lt
    rw [leNat, List.length_cons, pow_succ]
    omega

/-- Byte `k` of a little-endian string. -/
theorem leNat_div_mod (bs : Bytes) (k : ℕ) (hk : k < bs.length) :
    leNat bs / 256 ^ k % 256 = (bs.get ⟨k, hk⟩).toNat := by
  induction bs generalizing k with
  | nil => simp at hk
  | cons b bs ih =>
    have hb := b.toNat_lt
    cases k with
    | zero =>
      simp only [leNat, pow_zero, Nat.div_one, List.get_eq_getElem, List.getElem_cons_zero]
      omega
    | succ k =>
      have hdiv : (b.toNat + 256 * leNat bs) / 256 ^ (k + 1) = leNat bs / 256 ^ k := by
        have hone : (b.toNat + 256 * leNat bs) / 256 = leNat bs := by omega
        rw [pow_succ', ← Nat.div_div_eq_div_mul, hone]
      rw [leNat, hdiv]
      exact ih k (by simpa using hk)

/-- The `w` little-endian bytes of a number (`to_le_bytes`). -/
def leBytes : ℕ → ℕ → Bytes
  | 0, _ => []
  | w + 1, n => UInt8.ofNat n :: leBytes w (n / 256)

@[simp]
theorem length_leBytes (w n : ℕ) : (leBytes w n).length = w := by
  induction w generalizing n with
  | zero => rfl
  | succ w ih => rw [leBytes, List.length_cons, ih]

theorem leNat_leBytes (w n : ℕ) : leNat (leBytes w n) = n % 256 ^ w := by
  induction w generalizing n with
  | zero => simp [leBytes, leNat, Nat.mod_one]
  | succ w ih =>
    rw [leBytes, leNat, ih, pow_succ', Nat.mod_mul, UInt8.toNat_ofNat']

end Esmetrics
