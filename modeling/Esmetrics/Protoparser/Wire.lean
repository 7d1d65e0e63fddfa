import Esmetrics.Lib.BigEndian
import Esmetrics.Lib.Leb128
import Esmetrics.Lib.Outcome

/-!
# The protobuf wire reader

Model of `esm-protoparser/src/wire.rs`: a cursor over a byte string that reads tags, varints,
length-delimited strings and fixed-width words, and skips values by their wire type. Offsets are
machine words: an addition that leaves their range is a panic, and so are a shift by the width of a
word and a read behind the end.

The loop over the fields of a message is the same in every decoder. `fields` is this loop, with what
is done with a field as an argument. The fuel is the number of bytes and one: every field takes a
byte at least, so that it never ends (`not_panics_fields`). A part of the input that the body of the
loop reads whatever stands before and behind it is a `Reads`, and a message made of such parts is
read part by part (`fields_of_reads`).
-/

namespace Esmetrics.Protoparser

open List Outcome
open Prod (fst)

/-- Errors of the reader. -/
inductive WireError where
  | unexpectedEof
  | varintOverflow
  | lengthOutOfRange
  | invalidWireType (wt : ℕ)
  | integerOutOfRange
deriving DecidableEq

def WireError.display : WireError → String
  | unexpectedEof => "unexpected end of protobuf input"
  | varintOverflow => "varint is too long (more than 10 bytes)"
  | lengthOutOfRange => "length-delimited field length exceeds remaining input"
  | invalidWireType wt => s!"unsupported protobuf wire type {wt}"
  | integerOutOfRange => "varint value does not fit into the target integer type"

/-- A returned error. -/
def WireError.fail {α : Type} (e : WireError) : Outcome α := .err e.display

/-- The number of values of an offset. -/
def usizeSize : ℕ := 2 ^ 64

/-- An addition of offsets. -/
def addUsize (a b : ℕ) : Outcome ℕ :=
  if a + b < usizeSize then .ok (a + b) else .panic "attempt to add with overflow"

/-- A cursor over a byte string. -/
structure WireReader where
  src : Bytes
  pos : ℕ
deriving DecidableEq

namespace WireReader

def new (src : Bytes) : WireReader := ⟨src, 0⟩

def isEof (r : WireReader) : Bool := r.src.length ≤ r.pos

/-- The loop of `read_varint`, from bit `shift` on; `n` bytes may follow. -/
def readVarintLoop (r : WireReader) (result : UInt64) (shift : ℕ) :
    ℕ → Outcome (UInt64 × WireReader)
  | 0 => WireError.varintOverflow.fail
  | n + 1 =>
    match r.src[r.pos]? with
    | none => WireError.unexpectedEof.fail
    | some byte => do
      let pos ← addUsize r.pos 1
      .assert (shift < 64) "attempt to shift left with overflow"
      let result := result ||| (byte &&& 0x7f).toUInt64 <<< UInt64.ofNat shift
      if byte &&& 0x80 = 0 then .ok (result, { r with pos := pos })
      else readVarintLoop { r with pos := pos } result (shift + 7) n

/-- Reads a varint: the loop is left with an error when `shift` is 70. -/
def readVarint (r : WireReader) : Outcome (UInt64 × WireReader) := readVarintLoop r 0 0 10

/-- Reads `len` bytes. The end of the slice is a checked addition. -/
def advance (r : WireReader) (len : ℕ) : Outcome (Bytes × WireReader) :=
  if r.pos + len < usizeSize ∧ r.pos + len ≤ r.src.length then
    .ok ((r.src.drop r.pos).take len, { r with pos := r.pos + len })
  else WireError.lengthOutOfRange.fail

/-- Reads a length and that many bytes. -/
def readLenDelim (r : WireReader) : Outcome (Bytes × WireReader) := do
  let (len, r) ← r.readVarint
  r.advance len.toNat

/-- Reads a fixed-width word, the bits of a number. -/
def readFixed64 (r : WireReader) : Outcome (UInt64 × WireReader) := do
  let (bytes, r) ← r.advance 8
  .ok (UInt64.ofNat (leNat bytes), r)

/-- Reads the number and the wire type of a field. The number is cut to 32 bits. -/
def readTag (r : WireReader) : Outcome ((ℕ × ℕ) × WireReader) := do
  let (tag, r) ← r.readVarint
  let wireType := tag.toNat % 8
  let fieldNum := tag.toNat / 8 % 2 ^ 32
  if wireType = 0 ∨ wireType = 1 ∨ wireType = 2 ∨ wireType = 5 then .ok ((fieldNum, wireType), r)
  else (WireError.invalidWireType wireType).fail

/-- Skips the value of a field. -/
def skip (r : WireReader) (wireType : ℕ) : Outcome (Unit × WireReader) :=
  match wireType with
  | 0 => do
    let (_, r) ← r.readVarint
    .ok ((), r)
  | 1 => do
    let (_, r) ← r.advance 8
    .ok ((), r)
  | 2 => do
    let (_, r) ← r.readLenDelim
    .ok ((), r)
  | 5 => do
    let (_, r) ← r.advance 4
    .ok ((), r)
  | wt => (WireError.invalidWireType wt).fail

/-- The reader behind `done` and before `rest`. -/
def between (done rest : Bytes) : WireReader := ⟨done ++ rest, done.length⟩

end WireReader

open WireReader

/-- What a decoder does with a field: from its number, its wire type and what it has decoded. -/
abbrev OnField (σ : Type) := ℕ → ℕ → σ → WireReader → Outcome (σ × WireReader)

/-- One field: its tag and what is done with it. -/
def field {σ : Type} (onField : OnField σ) (s : σ) (r : WireReader) : Outcome (σ × WireReader) := do
  let ((fieldNum, wireType), r) ← r.readTag
  onField fieldNum wireType s r

/-- The loop `while !r.is_eof()` over the fields of a message. -/
def fields {σ : Type} (onField : OnField σ) : ℕ → σ → WireReader → Outcome σ
  | 0, _, _ => .panic "out of fuel"
  | fuel + 1, s, r =>
    if r.isEof then .ok s
    else do
      let (s, r) ← field onField s r
      fields onField fuel s r

/-- Decodes a message, from what is there without any field. -/
def message {σ : Type} (onField : OnField σ) (default : σ) (src : Bytes) : Outcome σ :=
  fields onField (src.length + 1) default (.new src)

/-- A field that is not known is skipped. -/
def skipField {σ : Type} (wireType : ℕ) (s : σ) (r : WireReader) : Outcome (σ × WireReader) := do
  let (_, r) ← r.skip wireType
  .ok (s, r)

/-- The wire type of a field must be the expected one. -/
def expect (wireType expected : ℕ) : Outcome Unit :=
  if wireType = expected then .ok () else (WireError.invalidWireType wireType).fail

/-! ### What stands before and behind -/

section Between

variable {done rest bs : Bytes}

theorem addUsize_of_le {a b : ℕ} (h : a + b ≤ isizeMax) : addUsize a b = .ok (a + b) := by
  refine if_pos ?_
  simp only [isizeMax, usizeSize] at h ⊢
  omega

theorem getElem?_between (b : UInt8) :
    (between done (b :: rest)).src[(between done (b :: rest)).pos]? = some b := by
  simp [between]

theorem between_append (done bs rest : Bytes) :
    (⟨done ++ (bs ++ rest), done.length + bs.length⟩ : WireReader) = between (done ++ bs) rest := by
  rw [between, append_assoc, length_append]

/-- A varint of at most ten bytes is read to its end. -/
theorem readVarintLoop_between {n shift : ℕ} {result : UInt64} (h : IsVarint bs)
    (hn : bs.length ≤ n) (hshift : shift + 7 * bs.length < 64 + 7)
    (hlen : (done ++ (bs ++ rest)).length ≤ isizeMax) :
    readVarintLoop (between done (bs ++ rest)) result shift n =
      .ok (result ||| orPayload shift bs, between (done ++ bs) rest) := by
  induction bs generalizing done n shift result with
  | nil => exact h.elim
  | cons b bs ih =>
    obtain ⟨n, rfl⟩ : ∃ m, n = m + 1 := ⟨n - 1, by rw [length_cons] at hn; omega⟩
    rw [length_cons] at hn hshift
    have hpos : addUsize (between done (b :: (bs ++ rest))).pos 1 = .ok (done.length + 1) := by
      refine addUsize_of_le ?_
      simp only [between, length_append, length_cons] at hlen ⊢
      omega
    have hnext : (⟨done ++ b :: (bs ++ rest), done.length + 1⟩ : WireReader) =
        between (done ++ [b]) (bs ++ rest) := by
      rw [← between_append]
      rfl
    rw [cons_append, readVarintLoop, getElem?_between]
    simp only [hpos, ok_bind, assert_of (show shift < 64 by omega)]
    by_cases hb : b &&& 0x80 = 0
    · obtain rfl : bs = [] := by
        by_contra hne
        have hge := ((isVarint_cons hne).mp h).1
        have hlt := (and_80_eq_zero_iff b).mp hb
        omega
      rw [if_pos hb, orPayload, orPayload, UInt64.or_zero]
      exact congrArg (fun r => Outcome.ok (_, r)) hnext
    · have hne : bs ≠ [] := by
        rintro rfl
        exact hb ((and_80_eq_zero_iff b).mpr h)
      rw [if_neg hb]
      change readVarintLoop ⟨done ++ b :: (bs ++ rest), done.length + 1⟩ _ _ n = _
      rw [hnext, ih ((isVarint_cons hne).mp h).2 (by omega) (by omega) (by simpa using hlen),
        UInt64.or_assoc, orPayload, append_assoc]
      rfl

theorem readVarint_between (h : IsVarint bs) (hten : bs.length ≤ 10)
    (hlen : (done ++ (bs ++ rest)).length ≤ isizeMax) :
    (between done (bs ++ rest)).readVarint = .ok (orPayload 0 bs, between (done ++ bs) rest) := by
  rw [readVarint, readVarintLoop_between h hten (by omega) hlen, UInt64.zero_or]

theorem advance_between (hlen : (done ++ (bs ++ rest)).length ≤ isizeMax) :
    (between done (bs ++ rest)).advance bs.length = .ok (bs, between (done ++ bs) rest) := by
  have hok : (between done (bs ++ rest)).pos + bs.length < usizeSize ∧
      (between done (bs ++ rest)).pos + bs.length ≤ (between done (bs ++ rest)).src.length := by
    simp only [between, length_append, isizeMax, usizeSize] at hlen ⊢
    omega
  rw [advance, if_pos hok, ← between_append]
  simp only [between, drop_left, take_left]

/-- A length as a varint, and that many bytes. -/
theorem readLenDelim_between {len : Bytes} (h : IsVarint len) (hten : len.length ≤ 10)
    (hvalue : leb128Value len = bs.length)
    (hlen : (done ++ (len ++ (bs ++ rest))).length ≤ isizeMax) :
    (between done (len ++ (bs ++ rest))).readLenDelim = .ok (bs,
      between (done ++ (len ++ bs)) rest) := by
  have hsize : leb128Value len < 2 ^ 64 := by
    simp only [length_append, isizeMax] at hlen
    omega
  have hnat : (orPayload 0 len).toNat = bs.length := by
    rw [orPayload_zero hsize hten, UInt64.toNat_ofNat', Nat.mod_eq_of_lt hsize, hvalue]
  rw [readLenDelim, readVarint_between h hten hlen]
  simp only [ok_bind, hnat]
  rw [advance_between (by simpa using hlen), append_assoc]

theorem readFixed64_between (v : UInt64)
    (hlen : (done ++ (leBytes 8 v.toNat ++ rest)).length ≤ isizeMax) :
    (between done (leBytes 8 v.toNat ++ rest)).readFixed64 =
      .ok (v, between (done ++ leBytes 8 v.toNat) rest) := by
  have hadv := advance_between hlen
  rw [length_leBytes] at hadv
  have hv : leNat (leBytes 8 v.toNat) = v.toNat := by
    rw [leNat_leBytes]
    exact Nat.mod_eq_of_lt v.toNat_lt
  rw [readFixed64, hadv]
  simp only [ok_bind, hv, UInt64.ofNat_toNat]

/-- The tag of a field. -/
theorem readTag_between {fieldNum wireType : ℕ} (h : IsVarint bs) (hten : bs.length ≤ 10)
    (hvalue : leb128Value bs = 8 * fieldNum + wireType) (hnum : fieldNum < 2 ^ 32)
    (hwt : wireType = 0 ∨ wireType = 1 ∨ wireType = 2 ∨ wireType = 5)
    (hlen : (done ++ (bs ++ rest)).length ≤ isizeMax) :
    (between done (bs ++ rest)).readTag = .ok ((fieldNum, wireType),
      between (done ++ bs) rest) := by
  have hsize : leb128Value bs < 2 ^ 64 := by omega
  have hnat : (orPayload 0 bs).toNat = 8 * fieldNum + wireType := by
    rw [orPayload_zero hsize hten, UInt64.toNat_ofNat', Nat.mod_eq_of_lt hsize, hvalue]
  have hmod : (8 * fieldNum + wireType) % 8 = wireType := by omega
  have hdiv : (8 * fieldNum + wireType) / 8 % 2 ^ 32 = fieldNum := by omega
  rw [readTag, readVarint_between h hten hlen]
  simp only [ok_bind, hnat, hmod, hdiv, if_pos hwt]

end Between

/-! ### Messages made of parts -/

/-- The body of the loop reads `part`, whatever stands around it, and changes what is decoded by
`f`. -/
def Reads {σ : Type} (onField : OnField σ) (part : Bytes) (f : σ → σ) : Prop :=
  part ≠ [] ∧ ∀ done rest s, (done ++ (part ++ rest)).length ≤ isizeMax →
    field onField s (between done (part ++ rest)) = .ok (f s, between (done ++ part) rest)

/-- A message made of parts is read part by part. -/
theorem fields_of_reads {σ : Type} {onField : OnField σ} (parts : List (Bytes × (σ → σ)))
    (h : ∀ p ∈ parts, Reads onField p.1 p.2) {done : Bytes} {s : σ} {fuel : ℕ}
    (hfuel : (parts.flatMap fst).length < fuel)
    (hlen : (done ++ parts.flatMap fst).length ≤ isizeMax) :
    fields onField fuel s (between done (parts.flatMap fst)) =
      .ok (parts.foldl (fun s p => p.2 s) s) := by
  induction parts generalizing done s fuel with
  | nil =>
    obtain ⟨fuel, rfl⟩ : ∃ m, fuel = m + 1 := ⟨fuel - 1, by omega⟩
    have heof : (between done []).isEof = true := by simp [between, isEof]
    rw [flatMap_nil, fields, if_pos heof, foldl_nil]
  | cons p parts ih =>
    obtain ⟨fuel, rfl⟩ : ∃ m, fuel = m + 1 := ⟨fuel - 1, by omega⟩
    obtain ⟨hne, hread⟩ := h p mem_cons_self
    have hpos : 0 < p.1.length := length_pos_iff.mpr hne
    rw [flatMap_cons] at hfuel hlen ⊢
    have heof : ¬ (between done (p.1 ++ parts.flatMap fst)).isEof = true := by
      simp only [between, isEof, length_append, decide_eq_true_eq]
      omega
    rw [length_append] at hfuel
    rw [fields, if_neg heof, hread _ _ _ hlen, ok_bind]
    exact ih (fun q hq => h q (mem_cons_of_mem _ hq)) (by omega) (by simpa using hlen)

/-- A whole message made of parts. -/
theorem message_of_reads {σ : Type} {onField : OnField σ} {default : σ}
    (parts : List (Bytes × (σ → σ))) (h : ∀ p ∈ parts, Reads onField p.1 p.2)
    (hlen : (parts.flatMap fst).length ≤ isizeMax) :
    message onField default (parts.flatMap fst) =
      .ok (parts.foldl (fun s p => p.2 s) default) := by
  have hlen' : (([] : Bytes) ++ parts.flatMap fst).length ≤ isizeMax := hlen
  exact fields_of_reads parts h (Nat.lt_succ_self _) hlen'

/-! ### Any input -/

/-- The cursor is in the input, which fits the memory. -/
def WireReader.Valid (r : WireReader) : Prop := r.pos ≤ r.src.length ∧ r.src.length ≤ isizeMax

/-- A read ends with a value or an error, and a value leaves the cursor in the input and not before
where it was. -/
structure Safe {α : Type} (r : WireReader) (x : Outcome (α × WireReader)) : Prop where
  not_panics : ¬ x.Panics
  valid : ∀ a r', x = .ok (a, r') → r'.Valid ∧ r'.src = r.src ∧ r.pos ≤ r'.pos

section Safe

variable {α β σ : Type} {r : WireReader}

theorem Safe.fail (e : WireError) : Safe r (e.fail : Outcome (α × WireReader)) :=
  ⟨not_panics_err _, fun _ _ h => nomatch h⟩

theorem Safe.ok {r' : WireReader} {a : α} (h : r'.Valid) (hsrc : r'.src = r.src)
    (hpos : r.pos ≤ r'.pos) : Safe r (.ok (a, r')) := by
  refine ⟨not_panics_ok _, fun b r'' heq => ?_⟩
  obtain ⟨-, rfl⟩ := Prod.mk.inj (Outcome.ok.inj heq)
  exact ⟨h, hsrc, hpos⟩

theorem Safe.bind {x : Outcome (α × WireReader)} {f : α × WireReader → Outcome (β × WireReader)}
    (hx : Safe r x)
    (hf : ∀ a r', x = .ok (a, r') → r'.Valid → Safe r' (f (a, r'))) : Safe r (x >>= f) := by
  refine ⟨fun h => ?_, fun b r'' h => ?_⟩
  · obtain h | ⟨⟨a, r'⟩, heq, h⟩ := panics_bind_iff.mp h
    · exact hx.not_panics h
    · exact (hf a r' heq (hx.valid a r' heq).1).not_panics h
  · obtain ⟨⟨a, r'⟩, heq, h⟩ := bind_eq_ok_iff.mp h
    obtain ⟨hvalid, hsrc, hpos⟩ := hx.valid a r' heq
    obtain ⟨hvalid', hsrc', hpos'⟩ := (hf a r' heq hvalid).valid b r'' h
    exact ⟨hvalid', hsrc'.trans hsrc, hpos.trans hpos'⟩

theorem safe_readVarintLoop (hr : r.Valid) (result : UInt64) {shift n : ℕ}
    (hshift : shift + 7 * n ≤ 70) :
    Safe r (readVarintLoop r result shift n) ∧
      ∀ v r', readVarintLoop r result shift n = .ok (v, r') → r.pos < r'.pos := by
  induction n generalizing r result shift with
  | zero => exact ⟨Safe.fail _, fun v r' h => nomatch h⟩
  | succ n ih =>
    rw [readVarintLoop]
    split
    · exact ⟨Safe.fail _, fun v r' h => nomatch h⟩
    · rename_i byte hbyte
      obtain ⟨hlt, -⟩ := List.getElem?_eq_some_iff.mp hbyte
      obtain ⟨-, hsize⟩ := hr
      have hnext : (⟨r.src, r.pos + 1⟩ : WireReader).Valid := ⟨hlt, hsize⟩
      rw [addUsize_of_le (by omega)]
      simp only [ok_bind, assert_of (show shift < 64 by omega)]
      split
      · refine ⟨Safe.ok hnext rfl (Nat.le_succ _), fun v r' h => ?_⟩
        obtain ⟨-, rfl⟩ := Prod.mk.inj (Outcome.ok.inj h)
        exact Nat.lt_succ_self _
      · obtain ⟨hsafe, hpos⟩ := ih hnext
          (result ||| (byte &&& 0x7f).toUInt64 <<< UInt64.ofNat shift)
          (by omega : shift + 7 + 7 * n ≤ 70)
        refine ⟨⟨hsafe.not_panics, fun v r' h => ?_⟩, fun v r' h => ?_⟩
        · obtain ⟨hvalid, hsrc, hle⟩ := hsafe.valid v r' h
          exact ⟨hvalid, hsrc, (Nat.le_succ _).trans hle⟩
        · exact (Nat.lt_succ_self _).trans (hpos v r' h)

theorem safe_readVarint (hr : r.Valid) : Safe r r.readVarint :=
  (safe_readVarintLoop hr 0 (by omega)).1

theorem lt_of_readVarint (hr : r.Valid) {v : UInt64} {r' : WireReader}
    (h : r.readVarint = .ok (v, r')) : r.pos < r'.pos :=
  (safe_readVarintLoop hr 0 (by omega)).2 v r' h

theorem safe_advance (hr : r.Valid) (len : ℕ) : Safe r (r.advance len) := by
  rw [advance]
  split
  · rename_i h
    exact Safe.ok ⟨h.2, hr.2⟩ rfl (Nat.le_add_right _ _)
  · exact Safe.fail _

theorem safe_readLenDelim (hr : r.Valid) : Safe r r.readLenDelim :=
  (safe_readVarint hr).bind fun _ _ _ hr' => safe_advance hr' _

theorem safe_readFixed64 (hr : r.Valid) : Safe r r.readFixed64 :=
  (safe_advance hr 8).bind fun _ _ _ hr' => Safe.ok hr' rfl le_rfl

theorem safe_readTag (hr : r.Valid) :
    Safe r r.readTag ∧ ∀ tag r', r.readTag = .ok (tag, r') → r.pos < r'.pos := by
  constructor
  · refine (safe_readVarint hr).bind fun tag r' _ hr' => ?_
    dsimp only
    split
    · exact Safe.ok hr' rfl le_rfl
    · exact Safe.fail _
  · intro tag r' h
    obtain ⟨⟨v, r''⟩, hv, h⟩ := bind_eq_ok_iff.mp h
    dsimp only at h
    split at h
    · obtain ⟨-, rfl⟩ := Prod.mk.inj (Outcome.ok.inj h)
      exact lt_of_readVarint hr hv
    · exact nomatch h

theorem safe_skip (hr : r.Valid) (wireType : ℕ) : Safe r (r.skip wireType) := by
  unfold skip
  split
  · exact (safe_readVarint hr).bind fun _ _ _ hr' => Safe.ok hr' rfl le_rfl
  · exact (safe_advance hr 8).bind fun _ _ _ hr' => Safe.ok hr' rfl le_rfl
  · exact (safe_readLenDelim hr).bind fun _ _ _ hr' => Safe.ok hr' rfl le_rfl
  · exact (safe_advance hr 4).bind fun _ _ _ hr' => Safe.ok hr' rfl le_rfl
  · exact Safe.fail _

theorem safe_skipField (hr : r.Valid) (wireType : ℕ) (s : σ) : Safe r (skipField wireType s r) :=
  (safe_skip hr wireType).bind fun _ _ _ hr' => Safe.ok hr' rfl le_rfl

theorem safe_expect {wireType expected : ℕ} {x : Outcome (α × WireReader)} (h : Safe r x) :
    Safe r (do expect wireType expected; x) := by
  unfold expect
  split
  · exact h
  · exact Safe.fail _

/-- The loop over the fields ends, with a value or an error. -/
theorem not_panics_fields {onField : OnField σ}
    (h : ∀ num wt s r, r.Valid → Safe r (onField num wt s r)) {fuel : ℕ} {s : σ} (hr : r.Valid)
    (hfuel : r.src.length - r.pos < fuel) : ¬ (fields onField fuel s r).Panics := by
  induction fuel generalizing s r with
  | zero => omega
  | succ fuel ih =>
    rw [fields]
    split
    · exact not_panics_ok _
    · intro hp
      have hfield : Safe r (field onField s r) :=
        (safe_readTag hr).1.bind fun tag r' _ hr' => h _ _ _ _ hr'
      obtain hp | ⟨⟨s', r'⟩, heq, hp⟩ := panics_bind_iff.mp hp
      · exact hfield.not_panics hp
      · obtain ⟨hr', hsrc, -⟩ := hfield.valid s' r' heq
        refine ih hr' ?_ hp
        obtain ⟨⟨tag, r''⟩, htag, heq⟩ := bind_eq_ok_iff.mp heq
        have hlt := (safe_readTag hr).2 tag r'' htag
        obtain ⟨hr'', hsrc'', -⟩ := (safe_readTag hr).1.valid tag r'' htag
        obtain ⟨-, -, hle⟩ := (h _ _ _ _ hr'').valid s' r' heq
        have hin := hr''.1
        rw [hsrc'']  at hin
        rw [hsrc]
        omega

theorem not_panics_message {onField : OnField σ} {default : σ}
    (h : ∀ num wt s r, r.Valid → Safe r (onField num wt s r)) {src : Bytes}
    (hsrc : src.length ≤ isizeMax) : ¬ (message onField default src).Panics :=
  not_panics_fields h ⟨Nat.zero_le _, hsrc⟩ (by simp [WireReader.new])

end Safe

end Esmetrics.Protoparser
