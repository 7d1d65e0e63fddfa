import Esmetrics.Encoding.Int

/-!
# The varint writers against each other

`marshal_var_int64` and `marshal_var_int64s` of `esm-encoding/src/int.rs` choose the length of an
encoding by different tests: the first by the bounds of the value, the second by those of its
zig-zag code once it has started over. The tests differ at `-64`, whose code `127` fits in one byte
but which the single-value writer takes to the two-byte case. Everywhere else both write the
shortest form (`writesShortest_iff`).
-/

namespace Esmetrics

/-- The single-value writer writes what the array writer does, in as few bytes as possible. -/
structure WritesShortest (v : Int64) : Prop where
  eq_array : ∀ dst, marshalVarInt64 dst v = marshalVarInt64s dst [v]
  minimal : ∀ e, IsVarint e → leb128Value e = (zigzagEncode v).toNat →
    (marshalVarInt64 [] v).length ≤ e.length
  one_byte : zigzagEncode v < 128 → (marshalVarInt64 [] v).length = 1

/-- The array writer writes the encodings of the single values one after another, and they are read
back whatever follows them. -/
structure WritesEach (vs : List Int64) : Prop where
  concat : ∀ dst, marshalVarInt64s dst vs = dst ++ vs.flatMap fun v => marshalVarInt64 [] v
  decode : ∀ t, unmarshalVarInt64s vs.length (marshalVarInt64s [] vs ++ t) = .ok (vs, t)

theorem zigzagEncode_neg_64 : zigzagEncode (-64) = 127 := by decide

/-- The single-value writer takes two bytes for `-64`. -/
theorem marshalVarInt64_neg_64 (dst : Bytes) : marshalVarInt64 dst (-64) = dst ++ [0xff, 0] := by
  have hbounds : ¬ ((-64 : Int64) < 64 ∧ (-64 : Int64) > -64) := by decide
  have htwo : zigzagEncode (-64) < bit7 2 := by decide
  rw [marshalVarInt64, if_neg hbounds, if_pos htwo]
  rfl

/-- Written one by one, the values take one byte more for every `-64` than the array writer
needs. -/
theorem length_flatMap_marshalVarInt64 (vs : List Int64) :
    (vs.flatMap fun v => marshalVarInt64 [] v).length =
      (varInts vs).length + vs.count (-64) := by
  induction vs with
  | nil => rfl
  | cons v vs ih =>
    rw [List.flatMap_cons, List.length_append, ih, varInts_cons, List.length_append,
      List.count_cons]
    rcases eq_or_ne v (-64) with rfl | hv
    · rw [marshalVarInt64_neg_64, zigzagEncode_neg_64, leb128_of_lt (by decide)]
      simp
      omega
    · rw [marshalVarInt64_of_ne hv]
      simp [hv]
      omega

/-- The writers agree and write the shortest form at every value but `-64`, and an array is written
as its values are one by one exactly when `-64` is not among them. -/
theorem writesShortest_iff (v : Int64) (vs : List Int64) :
    (WritesShortest v ↔ v ≠ -64) ∧ (WritesEach vs ↔ -64 ∉ vs) := by
  constructor
  · constructor
    · rintro h rfl
      have hone := h.one_byte (by decide)
      rw [marshalVarInt64_neg_64] at hone
      exact absurd hone (by decide)
    · intro hv
      have heq : ∀ dst, marshalVarInt64 dst v = dst ++ leb128 (zigzagEncode v).toNat :=
        fun dst => marshalVarInt64_of_ne hv dst
      constructor
      · intro dst
        rw [heq, marshalVarInt64s_eq, varInts_cons, varInts_nil, List.append_nil]
      · intro e he hval
        rw [heq, ← hval]
        exact length_leb128_leb128Value_le he
      · intro hlt
        rw [heq, leb128_of_lt (UInt64.lt_iff_toNat_lt.mp hlt)]
        rfl
  · constructor
    · intro h
      have hlen := congrArg List.length (h.concat [])
      rw [marshalVarInt64s_eq, List.nil_append, List.nil_append,
        length_flatMap_marshalVarInt64] at hlen
      exact List.count_eq_zero.mp (by omega)
    · intro hvs
      constructor
      · intro dst
        rw [marshalVarInt64s_eq]
        refine congrArg (dst ++ ·) (List.flatMap_congr fun v hv => ?_)
        exact (marshalVarInt64_of_ne (ne_of_mem_of_not_mem hv hvs) []).symm
      · intro t
        rw [marshalVarInt64s_eq]
        exact (isVarInts_varInts vs).unmarshalVarInt64s_eq t

/-- The writers differ at `-64`. -/
theorem not_writesShortest_neg_64 : marshalVarInt64 [] (-64) ≠ marshalVarInt64s [] [-64] := by
  decide

end Esmetrics
