import Esmetrics.Encoding.VarUint64s

/-!
# The varint readers against each other

`esm-encoding/src/int.rs` has three ways to read a varint: the loop `uvarint` behind the
single-value readers, the reader that spells out every length, and the eight-byte window in front
of it that the array readers use. The window never changes a result
(`readVarUint64Fast_eq_slow`), and all of them accept the same byte sequences
(`IsVarintWord`).

They disagree on one kind of input: the spelled-out reader checks that the tenth byte of a
ten-byte varint is not above `1` and then takes it for `1`, also when it is `0`. So an array is
read as its items are one by one unless one of the items has ten bytes and ends in a zero byte
(`unmarshalVars_agree_iff`).
-/

namespace Esmetrics

open List

/-! ### Reading one value after another -/

section Successive

variable {α : Type} (read : Bytes → Option (α × ℕ))

/-- `n` successive calls of a single-value reader, each on the remaining bytes. -/
def readSuccessively : ℕ → Bytes → Option (List α × Bytes)
  | 0, src => some ([], src)
  | n + 1, src =>
    match read src with
    | none => none
    | some (a, nSize) =>
      match readSuccessively n (src.drop nSize) with
      | none => none
      | some (as, tail) => some (a :: as, tail)

end Successive

/-- The array reader reads the values and leaves the tail that successive calls of the single-value
reader do, and fails where they do. -/
def ReadsAlike {α : Type} (readArray : Except String (List α × Bytes))
    (readEach : Option (List α × Bytes)) : Prop :=
  ∀ vs tail, readArray = .ok (vs, tail) ↔ readEach = some (vs, tail)

/-! ### What the readers accept -/

/-- A varint that the readers accept: at most ten bytes, of which the tenth is at most `1`. -/
structure IsVarintWord (e : Bytes) : Prop where
  isVarint : IsVarint e
  length_le : e.length ≤ 10
  tenth_le : ∀ b, e[9]? = some b → b ≤ 1

/-- An over-long varint of ten bytes: the last of them adds nothing. -/
def ZeroTenth (e : Bytes) : Prop := e[9]? = some 0

instance (e : Bytes) : Decidable (ZeroTenth e) := inferInstanceAs (Decidable (_ = _))

/-- The word the spelled-out reader makes of a varint. -/
def slowWord (e : Bytes) : UInt64 :=
  if ZeroTenth e then orPayload 0 e ||| (1 : UInt64) <<< (9 * 7) else orPayload 0 e

variable {e t src : Bytes} {idx : ℕ}

/-- All bytes but the last have the high bit, and the last is small enough. -/
theorem IsVarintWord.exists_last (h : IsVarintWord e) :
    ∃ as b, e = as ++ [b] ∧ b.toNat < 128 ∧ (∀ a ∈ as, 128 ≤ a.toNat) ∧ as.length ≤ 9 ∧
      (as.length = 9 → b ≤ 1) := by
  obtain ⟨as, b, rfl, hb, has⟩ := h.isVarint.exists_last
  have hlen := h.length_le
  rw [length_append, length_singleton] at hlen
  refine ⟨as, b, rfl, hb, has, by omega, fun hnine => h.tenth_le b ?_⟩
  rw [← hnine, getElem?_concat_length]

/-- A varint whose tenth byte is not `0` is one of its word. -/
theorem IsVarintWord.isVarint64 (h : IsVarintWord e) (hz : ¬ ZeroTenth e) :
    IsVarint64 e (orPayload 0 e) := by
  obtain ⟨as, b, rfl, hb, has, hlen, hten⟩ := h.exists_last
  have hval : leb128Value (as ++ [b]) = leb128Value as + 128 ^ as.length * b.toNat := by
    rw [leb128Value_append, leb128Value, leb128Value, Nat.mod_eq_of_lt hb]
    rfl
  have hlt := leb128Value_lt as
  have hone : as.length = 9 → b.toNat = 1 := by
    intro hnine
    have hle := UInt8.le_iff_toNat_le.mp (hten hnine)
    have hne : b.toNat ≠ 0 := fun hb0 => hz (by
      rw [ZeroTenth, ← hnine, getElem?_concat_length]
      exact congrArg some (UInt8.toNat_inj.mp hb0))
    simp at hle
    omega
  have hword : leb128Value (as ++ [b]) < 2 ^ 64 := by
    rcases hlen.lt_or_eq with hlt9 | hnine
    · have hlt' := leb128Value_lt (as ++ [b])
      have hpow : 128 ^ (as ++ [b]).length ≤ 128 ^ 9 :=
        Nat.pow_le_pow_right (by omega) (by simp; omega)
      omega
    · rw [hval, hone hnine, hnine]
      rw [hnine] at hlt
      omega
  have horp := orPayload_zero hword h.length_le
  refine ⟨h.isVarint, ?_, h.length_le, fun hlen10 => ?_⟩
  · rw [horp, UInt64.toNat_ofNat', Nat.mod_eq_of_lt hword]
  · have hnine : as.length = 9 := by simpa using hlen10
    rw [horp, UInt64.toNat_ofNat', Nat.mod_eq_of_lt hword, hval, hone hnine, hnine]
    omega

/-- Taking the tenth byte for `1` changes the word. -/
theorem slowWord_eq_iff (h : IsVarintWord e) : slowWord e = orPayload 0 e ↔ ¬ ZeroTenth e := by
  rw [slowWord]
  split_ifs with hz
  · refine iff_of_false (fun heq => ?_) (not_not_intro hz)
    obtain ⟨as, b, rfl, hb, has, hlen, hten⟩ := h.exists_last
    have hlen9 : as.length = 9 := by
      obtain ⟨hi, -⟩ := List.getElem?_eq_some_iff.mp hz
      rw [length_append, length_singleton] at hi
      omega
    obtain rfl : b = 0 := by
      rw [ZeroTenth, ← hlen9, getElem?_concat_length] at hz
      exact Option.some.inj hz
    have hval : leb128Value (as ++ [0]) < 2 ^ 63 := by
      have hlt := leb128Value_lt as
      rw [hlen9] at hlt
      simp only [leb128Value_append, leb128Value]
      simpa using hlt
    have hword := orPayload_zero (by omega) h.length_le
    have hbit := congrArg (fun u : UInt64 => u.toNat.testBit 63) heq
    simp only [UInt64.toNat_or, Nat.testBit_or] at hbit
    rw [hword, UInt64.toNat_ofNat', Nat.mod_eq_of_lt (by omega),
      Nat.testBit_lt_two_pow hval] at hbit
    exact absurd hbit (by decide)
  · exact iff_of_true rfl hz

/-! ### The readers accept the same varints -/

/-- The loop gives no size to a byte sequence that starts with no acceptable varint. -/
theorem uvarintLoop_size_nonpos (x s : UInt64) (i : ℕ) (src : Bytes) (hi : i ≤ 10)
    (h : ∀ as b t, src = as ++ b :: t → b.toNat < 128 → (∀ a ∈ as, 128 ≤ a.toNat) →
      9 < i + as.length ∨ i + as.length = 9 ∧ b > 1) : (uvarintLoop x s i src).2 ≤ 0 := by
  induction src generalizing x s i with
  | nil => simp [uvarintLoop]
  | cons c src ih =>
    rw [uvarintLoop]
    split_ifs with hten hlast hbig
    · simp only
      omega
    · simp only
      omega
    · have hc := h [] c src rfl (UInt8.lt_iff_toNat_lt.mp hlast) (by simp)
      rw [length_nil, Nat.add_zero] at hc
      rcases hc with hc | hc
      · omega
      · exact absurd hc hbig
    · refine ih _ _ (i + 1) (by omega) fun as b t heq hb has => ?_
      have hc : 128 ≤ c.toNat := Nat.not_lt.mp fun hlt => hlast (UInt8.lt_iff_toNat_lt.mpr hlt)
      have hcons := h (c :: as) b t (by rw [heq, cons_append]) hb (by simpa [hc] using has)
      rw [length_cons, ← Nat.add_assoc, Nat.add_right_comm] at hcons
      exact hcons

theorem uvarint_of_isVarintWord (h : IsVarintWord e) (t : Bytes) :
    uvarint (e ++ t) = (orPayload 0 e, (e.length : ℤ)) := by
  obtain ⟨as, b, rfl, hb, has, hlen, hten⟩ := h.exists_last
  have hloop := uvarintLoop_eq 0 0 as b t has hb (by omega) (fun hnine => hten (by omega))
  rw [uvarint, append_assoc, singleton_append]
  simpa using hloop

theorem uvarint_of_not_isVarintWord (h : ∀ e t, src = e ++ t → ¬ IsVarintWord e) :
    (uvarint src).2 ≤ 0 := by
  refine uvarintLoop_size_nonpos 0 0 0 src (by omega) fun as b t heq hb has => ?_
  by_contra hcon
  obtain ⟨hlen, hten⟩ := not_or.mp hcon
  refine h (as ++ [b]) t (by simp [heq]) ⟨?_, by simp; omega, fun c hc => ?_⟩
  · exact isVarint_concat hb has
  · obtain ⟨hi, -⟩ := List.getElem?_eq_some_iff.mp hc
    have hnine : as.length = 9 := by
      rw [length_append, length_singleton] at hi
      omega
    rw [← hnine, getElem?_concat_length] at hc
    obtain rfl := Option.some.inj hc
    exact UInt8.not_lt.mp fun hlt => hten ⟨by omega, hlt⟩

/-- The spelled-out reader gives the word of an acceptable varint, with the tenth byte taken for
`1`. -/
theorem readVarUint64Slow_of_isVarintWord (h : IsVarintWord e) (hsrc : src.drop idx = e ++ t) :
    readVarUint64Slow src idx = .ok (slowWord e, idx + e.length) := by
  by_cases hz : ZeroTenth e
  · obtain ⟨as, b, rfl, hb, has, hlen, -⟩ := h.exists_last
    obtain ⟨hi, -⟩ := List.getElem?_eq_some_iff.mp hz
    have hnine : as.length = 9 := by
      rw [length_append, length_singleton] at hi
      omega
    rw [slowWord, if_pos hz]
    rw [ZeroTenth, ← hnine, getElem?_concat_length] at hz
    obtain rfl := Option.some.inj hz
    match as, hnine with
    | [c, d, f, b0, b1, b2, b3, b4, b5], _ =>
      have hget : ∀ k, src[idx + k]? = ([c, d, f, b0, b1, b2, b3, b4, b5] ++ [0] ++ t)[k]? :=
        fun k => by rw [← hsrc, getElem?_drop]
      have hdrop : src.drop (idx + 3) = [b0, b1, b2, b3, b4, b5, 0] ++ t := by
        rw [← drop_drop, hsrc]
        rfl
      have htake : (src.drop (idx + 3)).take (idx + 3 + [b0, b1, b2, b3, b4, b5, 0].length -
          (idx + 3)) = [b0, b1, b2, b3, b4, b5, 0] := by
        rw [hdrop, Nat.add_sub_cancel_left, take_left]
      have hvarint : IsVarint ([b0, b1, b2, b3, b4, b5] ++ [0]) :=
        isVarint_concat hb fun a ha => has a (by simp at ha ⊢; tauto)
      have hscan := scanVarint_eq hvarint hdrop
      have hbig := fun x hx => not_lt_80 (has x hx)
      unfold readVarUint64Slow
      rw [show src[idx]? = _ from hget 0, hget 1, hget 2]
      simp only [cons_append, nil_append, getElem?_cons_zero,
        getElem?_cons_succ, hbig c (by simp), hbig d (by simp), hbig f (by simp), if_false]
      simp only [cons_append, nil_append] at hscan
      rw [hscan]
      simp only [htake]
      simp [varintTail, orPayload, UInt64.or_assoc]
  · rw [slowWord, if_neg hz]
    exact readVarUint64Slow_eq (h.isVarint64 hz) hsrc

/-- The rest of a varint that is too long or too big is refused. -/
theorem varintTail_error (hlen : 7 ≤ e.length) (hbig : ∀ b, e.length = 7 → e[6]? = some b → b > 1) :
    ∃ err, varintTail e = .error err := by
  match e with
  | [b0, b1, b2, b3, b4, b5, b6] =>
    have hb6 := hbig b6 rfl rfl
    exact ⟨_, by rw [varintTail, if_pos hb6]⟩
  | b0 :: b1 :: b2 :: b3 :: b4 :: b5 :: b6 :: b7 :: e => exact ⟨_, rfl⟩
  | [] | [_] | [_, _] | [_, _, _] | [_, _, _, _] | [_, _, _, _, _] | [_, _, _, _, _, _] =>
    simp only [length_cons, length_nil] at hlen
    omega

/-- A varint that is not acceptable has more than ten bytes, or a tenth byte above `1`. -/
theorem tenth_of_not_isVarintWord (he : IsVarint e) (h : ¬ IsVarintWord e) :
    10 ≤ e.length ∧ ∀ b, e.length = 10 → e[9]? = some b → b > 1 := by
  by_cases hlen : e.length ≤ 10
  · have hten : ∃ b, e[9]? = some b ∧ ¬ b ≤ 1 := by
      by_contra hcon
      push Not at hcon
      exact h ⟨he, hlen, hcon⟩
    obtain ⟨b, hb, hgt⟩ := hten
    obtain ⟨hi, -⟩ := List.getElem?_eq_some_iff.mp hb
    refine ⟨by omega, fun c _ hc => ?_⟩
    obtain rfl : b = c := Option.some.inj (hb.symm.trans hc)
    exact UInt8.not_le.mp hgt
  · exact ⟨by omega, fun b hten => absurd hten (by omega)⟩

/-- Without an acceptable varint at `idx` the spelled-out reader fails. -/
theorem readVarUint64Slow_of_not_isVarintWord
    (h : ∀ e t, src.drop idx = e ++ t → ¬ IsVarintWord e) :
    ∃ err, readVarUint64Slow src idx = .error err := by
  have hget : ∀ k, src[idx + k]? = (src.drop idx)[k]? := fun k => by rw [getElem?_drop]
  unfold readVarUint64Slow
  rw [show src[idx]? = _ from hget 0, hget 1, hget 2]
  rcases exists_isVarint_append (src.drop idx) with ⟨e, t, hsrc, he⟩ | hall
  · obtain ⟨hten, hbig⟩ := tenth_of_not_isVarintWord he (h e t hsrc)
    obtain _ | ⟨c, _ | ⟨d, _ | ⟨f, _ | ⟨g, e⟩⟩⟩⟩ := e
    iterate 4 exact absurd hten (by simp)
    · obtain ⟨hc, hd, hf, htail⟩ := he
      have hdrop : src.drop (idx + 3) = (g :: e) ++ t := by
        rw [← drop_drop, hsrc]
        rfl
      have htake : (src.drop (idx + 3)).take (idx + 3 + (g :: e).length - (idx + 3)) = g :: e := by
        rw [hdrop, Nat.add_sub_cancel_left, take_left]
      obtain ⟨err, herr⟩ := varintTail_error (e := g :: e) (by simpa using hten)
        fun b hlen hb => hbig b (by simpa using hlen) (by simpa using hb)
      refine ⟨err, ?_⟩
      simp only [hsrc, cons_append, getElem?_cons_zero, getElem?_cons_succ,
        not_lt_80 hc, not_lt_80 hd, not_lt_80 hf, if_false, scanVarint_eq htail hdrop, htake, herr]
  · -- the scan does not find the end of a varint
    have hscan : scanVarint src (idx + 3) = none := by
      rw [scanVarint, Option.map_eq_none_iff, findIdx?_eq_none_iff]
      intro a ha
      rw [← drop_drop] at ha
      simpa using not_lt_80 (hall a (mem_of_mem_drop ha))
    rcases hs : src.drop idx with _ | ⟨c, _ | ⟨d, _ | ⟨f, rest⟩⟩⟩
    · exact ⟨_, rfl⟩
    · have hc := not_lt_80 (hall c (by simp [hs]))
      exact ⟨_, by simp only [getElem?_cons_zero, hc, if_false]; rfl⟩
    · have hc := not_lt_80 (hall c (by simp [hs]))
      have hd := not_lt_80 (hall d (by simp [hs]))
      exact ⟨_, by
        simp only [getElem?_cons_zero, getElem?_cons_succ, hc, hd, if_false]; rfl⟩
    · have hc := not_lt_80 (hall c (by simp [hs]))
      have hd := not_lt_80 (hall d (by simp [hs]))
      have hf := not_lt_80 (hall f (by simp [hs]))
      exact ⟨_, by
        simp only [getElem?_cons_zero, getElem?_cons_succ, hc, hd, hf, if_false, hscan]
        rfl⟩

/-- The window only makes the reader faster. -/
theorem readVarUint64Fast_eq_slow (src : Bytes) (idx : ℕ) :
    readVarUint64Fast src idx = readVarUint64Slow src idx := by
  by_cases hwin : ((src.drop idx).take 8).length = 8 ∧
      ~~~(UInt64.ofNat (leNat ((src.drop idx).take 8))) &&& 0x8080808080808080 ≠ 0
  · obtain ⟨hlen, hstop⟩ := hwin
    rcases exists_isVarint_append ((src.drop idx).take 8) with ⟨e, t, hsrc, he⟩ | hall
    · have hshort : e.length ≤ 8 := by
        have := congrArg List.length hsrc
        rw [hlen, length_append] at this
        omega
      have hnot : e[9]? = none := getElem?_eq_none (by omega)
      have hword : IsVarintWord e := ⟨he, by omega, fun b hb => by simp [hnot] at hb⟩
      have h64 := hword.isVarint64 (by simp [ZeroTenth, hnot])
      have hdrop : src.drop idx = e ++ (t ++ (src.drop idx).drop 8) := by
        rw [← append_assoc, ← hsrc, take_append_drop]
      rw [readVarUint64Fast_eq h64 hdrop, readVarUint64Slow_eq h64 hdrop]
    · exact absurd (stop_eq_zero hlen hall) hstop
  · unfold readVarUint64Fast
    simp only
    rw [if_neg hwin]

/-- What both kinds of reader do at `idx`. -/
theorem readVarUint64_cases (src : Bytes) (idx : ℕ) :
    (∃ e t, IsVarintWord e ∧ src.drop idx = e ++ t ∧
      uvarint (src.drop idx) = (orPayload 0 e, (e.length : ℤ)) ∧
      readVarUint64Fast src idx = .ok (slowWord e, idx + e.length)) ∨
    ((∀ e t, src.drop idx = e ++ t → ¬ IsVarintWord e) ∧ (uvarint (src.drop idx)).2 ≤ 0 ∧
      ∃ err, readVarUint64Fast src idx = .error err) := by
  rw [readVarUint64Fast_eq_slow]
  by_cases h : ∃ e t, src.drop idx = e ++ t ∧ IsVarintWord e
  · obtain ⟨e, t, hsrc, he⟩ := h
    refine .inl ⟨e, t, he, hsrc, ?_, readVarUint64Slow_of_isVarintWord he hsrc⟩
    rw [hsrc, uvarint_of_isVarintWord he]
  · have hnone : ∀ e t, src.drop idx = e ++ t → ¬ IsVarintWord e :=
      fun e t hsrc he => h ⟨e, t, hsrc, he⟩
    exact .inr ⟨hnone, uvarint_of_not_isVarintWord hnone,
      readVarUint64Slow_of_not_isVarintWord hnone⟩

/-- The two fast paths of the single-value reader give what the loop gives. -/
theorem unmarshalVarUint64_eq_uvarint (src : Bytes) :
    unmarshalVarUint64 src =
      if (uvarint src).2 ≤ 0 then none else some ((uvarint src).1, (uvarint src).2.toNat) := by
  match src with
  | [] => rfl
  | [c] =>
    simp only [unmarshalVarUint64, uvarint, uvarintLoop]
    by_cases hc : c < 0x80 <;> simp [hc]
  | c :: d :: rest =>
    by_cases hc : c < 0x80
    · simp [unmarshalVarUint64, uvarint, uvarintLoop, hc]
    · by_cases hd : d < 0x80
      · simp [unmarshalVarUint64, uvarint, uvarintLoop, hc, hd]
      · simp only [unmarshalVarUint64, hc, hd, if_false]

theorem unmarshalVarInt64_eq_map (src : Bytes) :
    unmarshalVarInt64 src = (unmarshalVarUint64 src).map fun p => (zigzagDecode p.1, p.2) := by
  rw [unmarshalVarInt64, unmarshalVarUint64_eq_uvarint]
  simp only
  split_ifs <;> rfl

/-! ### Runs of varints -/

/-- `src` starts with the `n` acceptable varints `es`, and `tail` follows them. -/
structure SplitsVarints (n : ℕ) (src : Bytes) (es : List Bytes) (tail : Bytes) : Prop where
  length_eq : es.length = n
  words : ∀ e ∈ es, IsVarintWord e
  src_eq : src = es.flatten ++ tail

variable {n : ℕ} {es es' : List Bytes} {tail tail' : Bytes}

theorem SplitsVarints.cons (he : IsVarintWord e) (h : SplitsVarints n src es tail) :
    SplitsVarints (n + 1) (e ++ src) (e :: es) tail := by
  constructor
  · rw [length_cons, h.length_eq]
  · intro e' he'
    rcases mem_cons.mp he' with rfl | he'
    · exact he
    · exact h.words e' he'
  · rw [h.src_eq, flatten_cons, append_assoc]

/-- A run of `n + 1` varints is a varint and a run of `n`. -/
theorem SplitsVarints.uncons (h : SplitsVarints (n + 1) src es tail) :
    ∃ e es' rest, es = e :: es' ∧ src = e ++ rest ∧ IsVarintWord e ∧
      SplitsVarints n rest es' tail := by
  obtain ⟨e, es', rfl⟩ := exists_cons_of_length_eq_add_one h.length_eq
  refine ⟨e, es', es'.flatten ++ tail, rfl, ?_, h.words e mem_cons_self, ?_, ?_, rfl⟩
  · rw [h.src_eq, flatten_cons, append_assoc]
  · simpa using h.length_eq
  · exact fun e' he' => h.words e' (mem_cons_of_mem _ he')

/-- The varints at the front of a byte sequence are determined by it. -/
theorem SplitsVarints.unique (h : SplitsVarints n src es tail)
    (h' : SplitsVarints n src es' tail') :
    es = es' ∧ tail = tail' := by
  induction n generalizing src es es' with
  | zero =>
    obtain rfl := length_eq_zero_iff.mp h.length_eq
    obtain rfl := length_eq_zero_iff.mp h'.length_eq
    exact ⟨rfl, h.src_eq.symm.trans h'.src_eq⟩
  | succ n ih =>
    obtain ⟨e, es, rest, rfl, hsrc, he, hrest⟩ := h.uncons
    obtain ⟨e', es', rest', rfl, hsrc', he', hrest'⟩ := h'.uncons
    obtain ⟨rfl, rfl⟩ := he.isVarint.append_inj he'.isVarint (hsrc.symm.trans hsrc')
    obtain ⟨rfl, htail⟩ := ih hrest hrest'
    exact ⟨rfl, htail⟩

theorem SplitsVarints.le_length (h : SplitsVarints n src es tail) : n ≤ src.length := by
  induction n generalizing src es with
  | zero => exact Nat.zero_le _
  | succ n ih =>
    obtain ⟨e, es, rest, rfl, rfl, he, hrest⟩ := h.uncons
    have hpos := length_pos_iff.mpr he.isVarint.ne_nil
    have hle := ih hrest
    rw [length_append]
    omega

/-- A single-value reader that accepts the varints and gives `word` of them reads a run of them. -/
theorem readSuccessively_iff {α : Type} {read : Bytes → Option (α × ℕ)} {word : Bytes → α}
    (hok : ∀ e t, IsVarintWord e → read (e ++ t) = some (word e, e.length))
    (hno : ∀ src, (∀ e t, src = e ++ t → ¬ IsVarintWord e) → read src = none) {vs : List α} :
    readSuccessively read n src = some (vs, tail) ↔
      ∃ es, SplitsVarints n src es tail ∧ vs = es.map word := by
  induction n generalizing src vs with
  | zero =>
    simp only [readSuccessively, Option.some.injEq, Prod.mk.injEq]
    constructor
    · rintro ⟨rfl, rfl⟩
      exact ⟨[], ⟨rfl, by simp, rfl⟩, rfl⟩
    · rintro ⟨es, hes, rfl⟩
      obtain rfl := length_eq_zero_iff.mp hes.length_eq
      exact ⟨rfl, hes.src_eq⟩
  | succ n ih =>
    by_cases h : ∃ e t, src = e ++ t ∧ IsVarintWord e
    · obtain ⟨e, t, rfl, he⟩ := h
      rw [readSuccessively, hok e t he]
      simp only [drop_left]
      constructor
      · intro hread
        cases hrest : readSuccessively read n t with
        | none => simp [hrest] at hread
        | some p =>
          simp only [hrest, Option.some.injEq, Prod.mk.injEq] at hread
          obtain ⟨rfl, rfl⟩ := hread
          obtain ⟨es, hes, hvs⟩ := ih.mp hrest
          exact ⟨e :: es, hes.cons he, by rw [map_cons, hvs]⟩
      · rintro ⟨es, hes, rfl⟩
        obtain ⟨e', es, rest, rfl, hsrc, he', hrest⟩ := hes.uncons
        obtain ⟨rfl, rfl⟩ := he.isVarint.append_inj he'.isVarint hsrc
        rw [ih.mpr ⟨es, hrest, rfl⟩]
        rfl
    · have hnone : ∀ e t, src = e ++ t → ¬ IsVarintWord e := fun e t hsrc he => h ⟨e, t, hsrc, he⟩
      rw [readSuccessively, hno src hnone]
      refine iff_of_false (by simp) ?_
      rintro ⟨es, hes, -⟩
      obtain ⟨e, es, rest, -, hsrc, he, -⟩ := hes.uncons
      exact hnone e rest hsrc he

/-! ### The array readers -/

/-- The loop of the array reader reads a run of varints from `idx` on. -/
theorem readVarUint64s_iff {us : List UInt64} {idx' : ℕ} :
    readVarUint64s src n idx = .ok (us, idx') ↔
      ∃ es tail, SplitsVarints n (src.drop idx) es tail ∧ us = es.map slowWord ∧
        idx' = idx + es.flatten.length := by
  induction n generalizing idx idx' us with
  | zero =>
    simp only [readVarUint64s, Except.ok.injEq, Prod.mk.injEq]
    constructor
    · rintro ⟨rfl, rfl⟩
      exact ⟨[], src.drop idx, ⟨rfl, by simp, rfl⟩, rfl, rfl⟩
    · rintro ⟨es, tail, hes, rfl, rfl⟩
      obtain rfl := length_eq_zero_iff.mp hes.length_eq
      exact ⟨rfl, rfl⟩
  | succ n ih =>
    rw [readVarUint64s]
    rcases readVarUint64_cases src idx with ⟨e, t, he, hsrc, -, hread⟩ | ⟨hnone, -, err, hread⟩
    · have hnext : src.drop (idx + e.length) = t := by
        rw [← drop_drop, hsrc, drop_left]
      rw [hread]
      simp only
      constructor
      · intro hok
        split at hok
        · cases hok
        · rename_i us idx'' hrest
          cases hok
          obtain ⟨es, tail, hes, rfl, rfl⟩ := ih.mp hrest
          rw [hnext] at hes
          refine ⟨e :: es, tail, hsrc ▸ hes.cons he, rfl, ?_⟩
          rw [flatten_cons, length_append, Nat.add_assoc]
      · rintro ⟨es, tail, hes, rfl, rfl⟩
        obtain ⟨e', es, rest, rfl, hsrc', he', hrest⟩ := hes.uncons
        obtain ⟨rfl, rfl⟩ := he.isVarint.append_inj he'.isVarint (hsrc.symm.trans hsrc')
        have hread' : readVarUint64s src n (idx + e.length) =
            .ok (es.map slowWord, idx + e.length + es.flatten.length) :=
          ih.mpr ⟨es, tail, hnext.symm ▸ hrest, rfl, rfl⟩
        rw [hread']
        simp [Nat.add_assoc]
    · rw [hread]
      refine iff_of_false (by simp) ?_
      rintro ⟨es, tail, hes, -⟩
      obtain ⟨e, es, rest, -, hsrc, he, -⟩ := hes.uncons
      exact hnone e rest hsrc he

/-- The one-byte loop reads what the general loop would. -/
theorem readVarUint64s_oneByteVarUints (src : Bytes) (n idx : ℕ) :
    readVarUint64s src n idx =
      (readVarUint64s src (n - (oneByteVarUints n (src.drop idx)).length)
        (idx + (oneByteVarUints n (src.drop idx)).length)).map
          fun p => (oneByteVarUints n (src.drop idx) ++ p.1, p.2) := by
  have hsame : ∀ r : Except String (List UInt64 × ℕ), r.map (fun p => ([] ++ p.1, p.2)) = r := by
    rintro (err | p) <;> rfl
  induction n generalizing idx with
  | zero => simp [oneByteVarUints, readVarUint64s, Except.map]
  | succ n ih =>
    cases hsrc : src.drop idx with
    | nil => simpa [oneByteVarUints] using (hsame _).symm
    | cons c rest =>
      rw [oneByteVarUints]
      split_ifs with hc
      · simpa using (hsame _).symm
      · have hlt : c.toNat < 128 := UInt8.lt_iff_toNat_lt.mp (UInt8.not_le.mp hc)
        have hword : IsVarintWord [c] := ⟨hlt, by simp, by simp⟩
        have hread : readVarUint64Fast src idx = .ok (c.toUInt64, idx + 1) := by
          rw [readVarUint64Fast_eq_slow, readVarUint64Slow_of_isVarintWord hword hsrc]
          simp [slowWord, ZeroTenth, orPayload, and_7f_of_lt hlt]
        have hnext : src.drop (idx + 1) = rest := by
          rw [← drop_drop, hsrc]
          rfl
        have hih := ih (idx + 1)
        rw [hnext] at hih
        rw [readVarUint64s, hread]
        simp only [length_cons, Nat.add_sub_add_right, ← Nat.add_assoc, Nat.add_right_comm idx _ 1]
        rw [hih]
        cases readVarUint64s src (n - (oneByteVarUints n rest).length)
          (idx + 1 + (oneByteVarUints n rest).length) <;> rfl

/-- The array reader reads a run of varints, whichever of its loops reads which of them. -/
theorem unmarshalVarUint64s_iff {us : List UInt64} :
    unmarshalVarUint64s n src = .ok (us, tail) ↔
      ∃ es, SplitsVarints n src es tail ∧ us = es.map slowWord := by
  have hloops := readVarUint64s_oneByteVarUints src n 0
  rw [drop_zero, Nat.zero_add] at hloops
  have hread : unmarshalVarUint64s n src = .ok (us, tail) ↔
      n ≤ src.length ∧ ∃ idx, readVarUint64s src n 0 = .ok (us, idx) ∧ src.drop idx = tail := by
    rw [unmarshalVarUint64s]
    split_ifs with hlen
    · refine iff_of_false (by simp) fun h => ?_
      omega
    simp only
    split_ifs with hall
    · rw [hall, Nat.sub_self, readVarUint64s] at hloops
      rw [hloops]
      simp [Except.map, Nat.not_lt.mp hlen]
    · rw [hloops]
      cases readVarUint64s src (n - (oneByteVarUints n src).length) (oneByteVarUints n src).length
      · simp [Except.map]
      · simp [Except.map, Nat.not_lt.mp hlen]
  rw [hread]
  constructor
  · rintro ⟨-, idx, hidx, rfl⟩
    obtain ⟨es, tail, hes, rfl, rfl⟩ := readVarUint64s_iff.mp hidx
    rw [drop_zero] at hes
    refine ⟨es, ?_, rfl⟩
    rw [hes.src_eq, Nat.zero_add, drop_left]
    exact hes.src_eq ▸ hes
  · rintro ⟨es, hes, rfl⟩
    refine ⟨hes.le_length, 0 + es.flatten.length,
      readVarUint64s_iff.mpr ⟨es, tail, by rwa [drop_zero], rfl, rfl⟩, ?_⟩
    rw [hes.src_eq, Nat.zero_add, drop_left]

theorem oneByteVarInts_eq_map (n : ℕ) (src : Bytes) :
    oneByteVarInts n src = (oneByteVarUints n src).map zigzagDecode := by
  induction n generalizing src with
  | zero => simp [oneByteVarInts, oneByteVarUints]
  | succ n ih =>
    cases src with
    | nil => simp [oneByteVarInts, oneByteVarUints]
    | cons c src =>
      rw [oneByteVarInts, oneByteVarUints]
      split_ifs with hc
      · rfl
      · rw [map_cons, ih, zigzagDecode_byte (UInt8.lt_iff_toNat_lt.mp (UInt8.not_le.mp hc))]

theorem readVarInt64s_eq_map (src : Bytes) (n idx : ℕ) :
    readVarInt64s src n idx =
      (readVarUint64s src n idx).map fun p => (p.1.map zigzagDecode, p.2) := by
  induction n generalizing idx with
  | zero => rfl
  | succ n ih =>
    rw [readVarInt64s, readVarUint64s]
    cases readVarUint64Fast src idx with
    | error err => rfl
    | ok p =>
      simp only [ih]
      cases readVarUint64s src n p.2 <;> rfl

/-- The two array readers differ in the zig-zag code only. -/
theorem unmarshalVarInt64s_eq_map (n : ℕ) (src : Bytes) :
    unmarshalVarInt64s n src =
      (unmarshalVarUint64s n src).map fun p => (p.1.map zigzagDecode, p.2) := by
  rw [unmarshalVarInt64s, unmarshalVarUint64s]
  split_ifs
  · rfl
  · simp only [oneByteVarInts_eq_map, length_map, readVarInt64s_eq_map]
    split_ifs
    · rfl
    · cases readVarUint64s src (n - (oneByteVarUints n src).length)
        (oneByteVarUints n src).length with
      | error err => rfl
      | ok p => simp [Except.map]

theorem unmarshalVarInt64s_iff {vs : List Int64} :
    unmarshalVarInt64s n src = .ok (vs, tail) ↔
      ∃ es, SplitsVarints n src es tail ∧ vs = es.map fun e => zigzagDecode (slowWord e) := by
  rw [unmarshalVarInt64s_eq_map]
  constructor
  · intro h
    cases hread : unmarshalVarUint64s n src with
    | error err => simp [hread, Except.map] at h
    | ok p =>
      obtain ⟨us, tail'⟩ := p
      obtain ⟨es, hes, rfl⟩ := unmarshalVarUint64s_iff.mp hread
      simp only [hread, Except.map, Except.ok.injEq, Prod.mk.injEq, map_map] at h
      obtain ⟨rfl, rfl⟩ := h
      exact ⟨es, hes, rfl⟩
  · rintro ⟨es, hes, rfl⟩
    rw [unmarshalVarUint64s_iff.mpr ⟨es, hes, rfl⟩]
    simp [Except.map]

/-! ### Agreement -/

/-- Zig-zag encoding undoes zig-zag decoding: bit `i` of the value is bit `i + 1` of the code,
flipped when the lowest bit is set. -/
theorem zigzagEncode_zigzagDecode (u : UInt64) : zigzagEncode (zigzagDecode u) = u := by
  apply UInt64.toBitVec_inj.mp
  simp only [zigzagDecode, zigzagEncode]
  ext i hi
  have hlow : u.toBitVec.getMsbD 63 = u.toBitVec[0] := by
    simp [BitVec.getMsbD_eq_getLsbD, BitVec.getLsbD_eq_getElem]
  simp [BitVec.getElem_sshiftRight, hlow]
  rcases i with _ | i
  · simp
  · have hhigh : ¬ 63 + (i + 1) < 64 := by omega
    have hsame : (if h : 63 + i < 64 then u.toBitVec[i] else u.toBitVec[0]) = u.toBitVec[0] := by
      split_ifs with h
      · obtain rfl : i = 0 := by omega
        rfl
      · rfl
    simp [hhigh, hsame, Nat.add_comm 1 i]
    exact BitVec.getLsbD_eq_getElem hi

theorem zigzagDecode_injective : Function.Injective zigzagDecode :=
  Function.LeftInverse.injective zigzagEncode_zigzagDecode

/-- Two readings of runs of varints agree unless some varint is read differently. -/
theorem readsAlike_iff {α : Type} {readArray : Except String (List α × Bytes)}
    {readEach : Option (List α × Bytes)} (wordArray wordEach : Bytes → α)
    (harray : ∀ vs tail, readArray = .ok (vs, tail) ↔
      ∃ es, SplitsVarints n src es tail ∧ vs = es.map wordArray)
    (heach : ∀ vs tail, readEach = some (vs, tail) ↔
      ∃ es, SplitsVarints n src es tail ∧ vs = es.map wordEach)
    (hword : ∀ e, IsVarintWord e → (wordArray e = wordEach e ↔ ¬ ZeroTenth e)) :
    ReadsAlike readArray readEach ↔
      ¬ ∃ es tail, SplitsVarints n src es tail ∧ ∃ e ∈ es, ZeroTenth e := by
  constructor
  · rintro h ⟨es, tail, hes, e, he, hz⟩
    obtain ⟨es', hes', hmap⟩ :=
      (harray _ _).mp ((h _ _).mpr ((heach _ tail).mpr ⟨es, hes, rfl⟩))
    obtain ⟨rfl, -⟩ := hes.unique hes'
    have hsame := map_inj_left.mp hmap e he
    exact (hword e (hes.words e he)).mp hsame.symm hz
  · intro h vs tail
    rw [harray, heach]
    refine exists_congr fun es => and_congr_right fun hes => ?_
    have hmap : es.map wordArray = es.map wordEach := map_congr_left fun e he =>
      (hword e (hes.words e he)).mpr fun hz => h ⟨es, tail, hes, e, he, hz⟩
    rw [hmap]

theorem unmarshalVarUint64_of_isVarintWord (he : IsVarintWord e) (t : Bytes) :
    unmarshalVarUint64 (e ++ t) = some (orPayload 0 e, e.length) := by
  have hpos := length_pos_iff.mpr he.isVarint.ne_nil
  rw [unmarshalVarUint64_eq_uvarint, uvarint_of_isVarintWord he]
  simp only
  rw [if_neg (by omega), Int.toNat_natCast]

theorem unmarshalVarUint64_of_not_isVarintWord (h : ∀ e t, src = e ++ t → ¬ IsVarintWord e) :
    unmarshalVarUint64 src = none := by
  rw [unmarshalVarUint64_eq_uvarint, if_pos (uvarint_of_not_isVarintWord h)]

/-- An array of `n` varints is read as its items are one by one, unless one of them takes ten bytes
of which the last is `0`; the eight-byte window makes no difference. -/
theorem unmarshalVars_agree_iff (n : ℕ) (src : Bytes) :
    (∀ idx, readVarUint64Fast src idx = readVarUint64Slow src idx) ∧
      (ReadsAlike (unmarshalVarUint64s n src) (readSuccessively unmarshalVarUint64 n src) ↔
        ¬ ∃ es tail, SplitsVarints n src es tail ∧ ∃ e ∈ es, ZeroTenth e) ∧
      (ReadsAlike (unmarshalVarInt64s n src) (readSuccessively unmarshalVarInt64 n src) ↔
        ¬ ∃ es tail, SplitsVarints n src es tail ∧ ∃ e ∈ es, ZeroTenth e) := by
  refine ⟨readVarUint64Fast_eq_slow src, ?_, ?_⟩
  · refine readsAlike_iff slowWord (orPayload 0) (fun vs tail => unmarshalVarUint64s_iff)
      (fun vs tail => ?_) fun e he => slowWord_eq_iff he
    exact readSuccessively_iff (fun e t he => unmarshalVarUint64_of_isVarintWord he t)
      fun src => unmarshalVarUint64_of_not_isVarintWord
  · refine readsAlike_iff (fun e => zigzagDecode (slowWord e))
      (fun e => zigzagDecode (orPayload 0 e)) (fun vs tail => unmarshalVarInt64s_iff)
      (fun vs tail => ?_) fun e he => zigzagDecode_injective.eq_iff.trans (slowWord_eq_iff he)
    refine readSuccessively_iff (fun e t he => ?_) fun src hsrc => ?_
    · rw [unmarshalVarInt64_eq_map, unmarshalVarUint64_of_isVarintWord he]
      rfl
    · rw [unmarshalVarInt64_eq_map, unmarshalVarUint64_of_not_isVarintWord hsrc]
      rfl

/-- Nine bytes with the high bit and a zero byte: read alone they are `0`, in an array `2 ^ 63`. -/
theorem not_readsAlike_zeroTenth :
    ¬ ReadsAlike (unmarshalVarUint64s 1 (List.replicate 9 0x80 ++ [0]))
      (readSuccessively unmarshalVarUint64 1 (List.replicate 9 0x80 ++ [0])) := by
  intro h
  have harray : unmarshalVarUint64s 1 (List.replicate 9 0x80 ++ [0]) =
      .ok ([(1 : UInt64) <<< 63], []) := by decide
  have heach : readSuccessively unmarshalVarUint64 1 (List.replicate 9 0x80 ++ [0]) =
      some ([0], []) := by decide
  have hsame := (h _ _).mp harray
  rw [heach] at hsame
  exact absurd hsame (by decide)

end Esmetrics
