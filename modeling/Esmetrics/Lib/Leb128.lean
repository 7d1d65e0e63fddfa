import Esmetrics.Lib.FixedWidth

/-!
# Base-128 integers

Little-endian base-128 ("LEB128", varint) byte sequences over `ℕ`: seven payload bits a byte,
the high bit set on every byte but the last. `leb128 n` is the shortest such sequence of `n`,
`leb128Value` reads the payload bits of any byte sequence, and `IsVarint` is the shape a
reader can delimit.

`orPayload` is the machine-word form of `leb128Value`: the masked bytes shifted to their place
and combined with `|||`. A reader that assembles its result with shifts and `|||`, in whatever
order and batch, computes `orPayload`, and `toNat_orPayload` gives its value.
-/

namespace Esmetrics

open List

/-- The shortest base-128 form of a number. -/
def leb128 (n : ℕ) : Bytes :=
  if n < 128 then [UInt8.ofNat n] else UInt8.ofNat (n % 128 + 128) :: leb128 (n / 128)
termination_by n
decreasing_by omega

/-- The number given by the payload bits of a byte sequence. -/
def leb128Value : Bytes → ℕ
  | [] => 0
  | b :: bs => b.toNat % 128 + 128 * leb128Value bs

/-- The high bit is set on every byte but the last. -/
def IsVarint : Bytes → Prop
  | [] => False
  | [b] => b.toNat < 128
  | b :: bs => 128 ≤ b.toNat ∧ IsVarint bs

variable {n : ℕ} {b : UInt8} {bs e : Bytes}

theorem leb128_of_lt (h : n < 128) : leb128 n = [UInt8.ofNat n] := by
  rw [leb128, if_pos h]

theorem leb128_of_ge (h : 128 ≤ n) :
    leb128 n = UInt8.ofNat (n % 128 + 128) :: leb128 (n / 128) := by
  rw [leb128, if_neg (by omega)]

theorem toNat_ofNat_of_lt (h : n < 256) : (UInt8.ofNat n).toNat = n := by
  rw [UInt8.toNat_ofNat']
  omega

theorem leb128_ne_nil (n : ℕ) : leb128 n ≠ [] := by
  rw [leb128]
  split <;> simp

theorem isVarint_cons (h : bs ≠ []) :
    IsVarint (b :: bs) ↔ 128 ≤ b.toNat ∧ IsVarint bs := by
  cases bs with
  | nil => exact absurd rfl h
  | cons c bs => rfl

theorem IsVarint.ne_nil (h : IsVarint bs) : bs ≠ [] := by
  rintro rfl
  exact h

/-- The shortest form is a varint. -/
theorem isVarint_leb128 (n : ℕ) : IsVarint (leb128 n) := by
  induction n using Nat.strong_induction_on with
  | _ n ih =>
    by_cases h : n < 128
    · rw [leb128_of_lt h]
      change (UInt8.ofNat n).toNat < 128
      rw [toNat_ofNat_of_lt (by omega)]
      exact h
    · rw [leb128_of_ge (by omega), isVarint_cons (leb128_ne_nil _)]
      refine ⟨?_, ih (n / 128) (by omega)⟩
      rw [toNat_ofNat_of_lt (by omega)]
      omega

/-- Reading the payload bits of the shortest form gives the number back. -/
theorem leb128Value_leb128 (n : ℕ) : leb128Value (leb128 n) = n := by
  induction n using Nat.strong_induction_on with
  | _ n ih =>
    by_cases h : n < 128
    · rw [leb128_of_lt h, leb128Value, leb128Value, toNat_ofNat_of_lt (by omega)]
      omega
    · rw [leb128_of_ge (by omega), leb128Value, ih (n / 128) (by omega),
        toNat_ofNat_of_lt (by omega)]
      omega

theorem length_leb128_le {k : ℕ} (h : n < 128 ^ (k + 1)) : (leb128 n).length ≤ k + 1 := by
  induction k generalizing n with
  | zero => rw [leb128_of_lt (by simpa using h)]; simp
  | succ k ih =>
    by_cases hn : n < 128
    · rw [leb128_of_lt hn]
      simp
    · rw [leb128_of_ge (by omega), length_cons]
      have hdiv : n / 128 < 128 ^ (k + 1) := by
        rw [Nat.div_lt_iff_lt_mul (by omega)]
        rwa [pow_succ] at h
      have := ih hdiv
      omega

theorem leb128Value_lt (bs : Bytes) : leb128Value bs < 128 ^ bs.length := by
  induction bs with
  | nil => simp [leb128Value]
  | cons b bs ih =>
    rw [leb128Value, length_cons, pow_succ]
    omega

/-- No varint of a number is shorter than its shortest form. -/
theorem length_leb128_leb128Value_le (h : IsVarint e) :
    (leb128 (leb128Value e)).length ≤ e.length := by
  obtain ⟨k, hk⟩ : ∃ k, e.length = k + 1 :=
    Nat.exists_eq_succ_of_ne_zero (length_pos_iff.mpr h.ne_nil).ne'
  rw [hk]
  exact length_leb128_le (hk ▸ leb128Value_lt e)

/-- A 64-bit number takes at most ten bytes. -/
theorem length_leb128_le_ten (h : n < 2 ^ 64) : (leb128 n).length ≤ 10 :=
  length_leb128_le (k := 9) (by omega)

theorem one_le_length_leb128 (n : ℕ) : 1 ≤ (leb128 n).length :=
  length_pos_iff.mpr (leb128_ne_nil n)

/-- The shortest form of a number of `k + 1` base-128 digits, spelled out. -/
theorem leb128_eq_of_digits {k : ℕ} (hlo : 128 ^ k ≤ n) (hhi : n < 128 ^ (k + 1)) :
    leb128 n = ((List.range k).map fun i => UInt8.ofNat (n / 128 ^ i % 128 + 128)) ++
      [UInt8.ofNat (n / 128 ^ k)] := by
  induction k generalizing n with
  | zero =>
    rw [leb128_of_lt (by simpa using hhi)]
    simp
  | succ k ih =>
    have hpos : 0 < 128 ^ k := by positivity
    rw [pow_succ] at hlo hhi
    have hdiv : ∀ i, n / 128 / 128 ^ i = n / 128 ^ (i + 1) := fun i => by
      rw [Nat.div_div_eq_div_mul, pow_succ']
    have ih' := ih (n := n / 128) (by omega) (by omega)
    rw [leb128_of_ge (by omega), ih', range_succ_eq_map, map_cons, map_map,
      cons_append]
    simp only [pow_zero, Nat.div_one, hdiv, Function.comp_def, Nat.succ_eq_add_one]

/-! ### Assembling a machine word -/

/-- The masked bytes, shifted to their place from bit `s` on and combined. -/
def orPayload : ℕ → Bytes → UInt64
  | _, [] => 0
  | s, b :: bs => (b &&& 0x7f).toUInt64 <<< UInt64.ofNat s ||| orPayload (s + 7) bs

theorem toNat_and_7f (b : UInt8) : (b &&& 0x7f).toNat = b.toNat % 128 := by
  rw [UInt8.toNat_and, show (0x7f : UInt8).toNat = 2 ^ 7 - 1 from rfl,
    Nat.and_two_pow_sub_one_eq_mod]

/-- The mask does nothing on a last byte. -/
theorem and_7f_of_lt (h : b.toNat < 128) : b &&& 0x7f = b := by
  apply UInt8.toNat_inj.mp
  rw [toNat_and_7f]
  omega

/-- The high bit of a byte. -/
theorem and_80_eq_zero_iff (b : UInt8) : b &&& 0x80 = 0 ↔ b.toNat < 128 := by
  have hb := b.toNat_lt
  rw [← UInt8.toNat_inj, UInt8.toNat_and, show (0x80 : UInt8).toNat = 2 ^ 7 from rfl,
    Nat.and_two_pow, Nat.testBit_eq_decide_div_mod_eq]
  by_cases h : b.toNat < 128
  · have hbit : b.toNat / 2 ^ 7 % 2 = 0 := by omega
    rw [hbit]
    simp [h]
  · have hbit : b.toNat / 2 ^ 7 % 2 = 1 := by omega
    rw [hbit]
    simp [h]

/-- Setting the high bit of a byte. -/
theorem or_0x80 (h : n < 128) : UInt8.ofNat n ||| 0x80 = UInt8.ofNat (n + 128) := by
  have hor : 128 ||| n = n + 128 := by
    have hadd := Nat.two_pow_add_eq_or_of_lt (show n < 2 ^ 7 from h) 1
    rw [Nat.mul_one] at hadd
    rw [Nat.add_comm]
    exact hadd.symm
  apply UInt8.toNat_inj.mp
  rw [UInt8.toNat_or, toNat_ofNat_of_lt (by omega), toNat_ofNat_of_lt (by omega), Nat.or_comm]
  exact hor

/-- Shifting without losing bits. -/
theorem toNat_shiftLeft_of_lt {x : UInt64} {s : ℕ} (hs : s < 64) (h : x.toNat * 2 ^ s < 2 ^ 64) :
    (x <<< UInt64.ofNat s).toNat = x.toNat * 2 ^ s := by
  rw [UInt64.toNat_shiftLeft, UInt64.toNat_ofNat', Nat.mod_eq_of_lt (show s < 2 ^ 64 by omega),
    Nat.mod_eq_of_lt hs, Nat.shiftLeft_eq, Nat.mod_eq_of_lt h]

/-- The word assembled from the payload bits has their value, shifted. -/
theorem toNat_orPayload {s : ℕ} (h : leb128Value bs * 2 ^ s < 2 ^ 64)
    (hlen : s + 7 * bs.length < 64 + 7) :
    (orPayload s bs).toNat = leb128Value bs * 2 ^ s := by
  induction bs generalizing s with
  | nil => simp [orPayload, leb128Value]
  | cons b bs ih =>
    rw [length_cons] at hlen
    have hsplit : leb128Value (b :: bs) * 2 ^ s =
        b.toNat % 128 * 2 ^ s + leb128Value bs * 2 ^ (s + 7) := by
      rw [leb128Value, pow_add]
      ring
    rw [hsplit] at h ⊢
    have hhead : ((b &&& 0x7f).toUInt64 <<< UInt64.ofNat s).toNat = b.toNat % 128 * 2 ^ s := by
      have hb : (b &&& 0x7f).toUInt64.toNat = b.toNat % 128 := by
        rw [UInt8.toNat_toUInt64, toNat_and_7f]
      rw [toNat_shiftLeft_of_lt (by omega) (by rw [hb]; omega), hb]
    have hlow : b.toNat % 128 * 2 ^ s < 2 ^ (s + 7) := by
      rw [pow_add, Nat.mul_comm]
      exact Nat.mul_lt_mul_of_pos_left (Nat.mod_lt _ (by omega)) (by positivity)
    rw [orPayload, UInt64.toNat_or, hhead, ih (by omega) (by omega), Nat.or_comm,
      Nat.mul_comm (leb128Value bs), ← Nat.two_pow_add_eq_or_of_lt hlow, Nat.add_comm]

theorem orPayload_append (s : ℕ) (as bs : Bytes) :
    orPayload s (as ++ bs) = orPayload s as ||| orPayload (s + 7 * as.length) bs := by
  induction as generalizing s with
  | nil => simp [orPayload]
  | cons a as ih =>
    rw [cons_append, orPayload, orPayload, ih (s + 7), length_cons, UInt64.or_assoc]
    congr 3
    omega

/-- A varint of a 64-bit number assembles to it. -/
theorem orPayload_zero (h : leb128Value bs < 2 ^ 64) (hlen : bs.length ≤ 10) :
    orPayload 0 bs = UInt64.ofNat (leb128Value bs) := by
  apply UInt64.toNat_inj.mp
  rw [toNat_orPayload (by simpa using h) (by omega), UInt64.toNat_ofNat', Nat.mod_eq_of_lt h]
  simp

/-! ### Varints of 64-bit words -/

/-- `e` is a varint of the word `u`: it need not be the shortest one, but ten bytes are used
only when the top bit needs them. -/
structure IsVarint64 (e : Bytes) (u : UInt64) : Prop where
  isVarint : IsVarint e
  value : leb128Value e = u.toNat
  length_le : e.length ≤ 10
  le_of_ten : e.length = 10 → 2 ^ 63 ≤ u.toNat

theorem leb128Value_append (as bs : Bytes) :
    leb128Value (as ++ bs) = leb128Value as + 128 ^ as.length * leb128Value bs := by
  induction as with
  | nil => simp [leb128Value]
  | cons a as ih =>
    rw [cons_append, leb128Value, leb128Value, ih, length_cons]
    ring

theorem isVarint64_leb128 (u : UInt64) : IsVarint64 (leb128 u.toNat) u where
  isVarint := isVarint_leb128 _
  value := leb128Value_leb128 _
  length_le := length_leb128_le_ten u.toNat_lt
  le_of_ten h := by
    by_contra hlt
    have := length_leb128_le (n := u.toNat) (k := 8) (by omega)
    omega

/-- The word of a varint, assembled from its payload bits. -/
theorem IsVarint64.orPayload_eq {u : UInt64} (h : IsVarint64 e u) :
    orPayload 0 e = u := by
  rw [orPayload_zero (h.value ▸ u.toNat_lt) h.length_le, h.value, UInt64.ofNat_toNat]

/-- A varint ends in a byte without the high bit. -/
theorem IsVarint.exists_last (h : IsVarint e) :
    ∃ as b, e = as ++ [b] ∧ b.toNat < 128 ∧ ∀ a ∈ as, 128 ≤ a.toNat := by
  induction e with
  | nil => exact h.elim
  | cons c e ih =>
    cases e with
    | nil => exact ⟨[], c, rfl, h, by simp⟩
    | cons d e =>
      obtain ⟨hc, he⟩ := h
      obtain ⟨as, b, heq, hb, has⟩ := ih he
      refine ⟨c :: as, b, by rw [heq, cons_append], hb, ?_⟩
      intro a ha
      rcases mem_cons.mp ha with rfl | ha
      · exact hc
      · exact has a ha

/-- Bytes with the high bit in front of one without it. -/
theorem isVarint_concat {as : Bytes} (hb : b.toNat < 128) (has : ∀ a ∈ as, 128 ≤ a.toNat) :
    IsVarint (as ++ [b]) := by
  induction as with
  | nil => exact hb
  | cons a as ih =>
    rw [cons_append, isVarint_cons (by simp)]
    exact ⟨has a mem_cons_self, ih fun c hc => has c (mem_cons_of_mem _ hc)⟩

/-- A varint is delimited by its own bytes. -/
theorem IsVarint.append_inj {e' t t' : Bytes} (h : IsVarint e) (h' : IsVarint e')
    (heq : e ++ t = e' ++ t') : e = e' ∧ t = t' := by
  induction e generalizing e' with
  | nil => exact h.elim
  | cons c e ih =>
    obtain ⟨c', e', rfl⟩ := exists_cons_of_ne_nil h'.ne_nil
    obtain ⟨rfl, htail⟩ := cons_eq_cons.mp heq
    rcases eq_or_ne e [] with rfl | he <;> rcases eq_or_ne e' [] with rfl | he'
    · exact ⟨rfl, htail⟩
    · have hlt : c.toNat < 128 := h
      exact absurd ((isVarint_cons he').mp h').1 (by omega)
    · have hlt : c.toNat < 128 := h'
      exact absurd ((isVarint_cons he).mp h).1 (by omega)
    · obtain ⟨hee, htt⟩ := ih ((isVarint_cons he).mp h).2 ((isVarint_cons he').mp h').2 htail
      exact ⟨by rw [hee], htt⟩

/-- A byte sequence starts with a varint, unless the high bit is set on every byte. -/
theorem exists_isVarint_append (src : Bytes) :
    (∃ e t, src = e ++ t ∧ IsVarint e) ∨ ∀ a ∈ src, 128 ≤ a.toNat := by
  induction src with
  | nil => exact .inr (by simp)
  | cons c src ih =>
    by_cases hc : c.toNat < 128
    · exact .inl ⟨[c], src, rfl, hc⟩
    · rcases ih with ⟨e, t, rfl, he⟩ | hall
      · exact .inl ⟨c :: e, t, rfl, (isVarint_cons he.ne_nil).mpr ⟨by omega, he⟩⟩
      · refine .inr fun a ha => ?_
        rcases mem_cons.mp ha with rfl | ha
        · omega
        · exact hall a ha

/-- The tenth byte of a ten-byte varint is `1`. -/
theorem IsVarint64.last_eq_one {as : Bytes} {u : UInt64} (h : IsVarint64 (as ++ [b]) u)
    (hten : as.length = 9) : b = 1 := by
  have hlt := u.toNat_lt
  have hge := h.le_of_ten (by simp [hten])
  have hval := h.value
  have has := leb128Value_lt as
  have hb := h.isVarint.exists_last
  obtain ⟨as', b', heq, hb', -⟩ := hb
  obtain ⟨rfl, hbb⟩ := append_inj' heq rfl
  obtain rfl : b = b' := by simpa using hbb
  rw [leb128Value_append, hten] at hval
  rw [hten] at has
  simp only [leb128Value] at hval
  apply UInt8.toNat_inj.mp
  change b.toNat = 1
  omega

end Esmetrics
