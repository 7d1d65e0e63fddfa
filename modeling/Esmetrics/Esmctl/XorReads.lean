import Esmetrics.Esmctl.BitReader
import Esmetrics.Esmctl.XorChunk
import Esmetrics.Lib.Program

/-!
# The reads of the XOR decoder

The decoder of `XorChunk` as a program over the calls of the bit reader. On the buffered reader it
is the decoder (`run_collect`), and on the plain reader it is the decoder of the chunk as a list of
bits, which stops with an error at the first read that there are too few bits for (`decodeXorBits`).

Every read of the program asks for one to 64 bits (`meets_collect`), whatever the bits are: the
window of significant bits is never empty (`XorState.HasWindow`), though it may stick out of the
word. So the two decoders agree on every chunk in which no read overruns.
-/

namespace Esmetrics.Esmctl

open BstreamReader

/-- A program over the calls of the bit reader. -/
abbrev Reading (α : Type) := Program Call Call.Ret α

/-- The decoder without its reader. -/
structure XorState where
  numTotal : UInt16
  numRead : UInt16
  t : Int64
  val : UInt64
  leading : UInt8
  trailing : UInt8
  tDelta : UInt64

namespace Reading

def readBit : Reading Bool := Program.perform Call.bit

def readBits (nbits : UInt8) : Reading UInt64 := Program.perform (Call.bits nbits)

def readByte : Reading UInt8 := Program.perform Call.byte

/-- The bytes of a varint, at most as many as there is fuel. -/
def readUvarintLoop : ℕ → UInt64 → ℕ → Reading UInt64
  | 0, _, _ => .fail
  | fuel + 1, x, s => do
    let b ← readByte
    if b < 0x80 then pure (x ||| b.toUInt64 <<< UInt64.ofNat s)
    else readUvarintLoop fuel (x ||| (b &&& 0x7f).toUInt64 <<< UInt64.ofNat s) (s + 7)

def readUvarint : Reading UInt64 := readUvarintLoop 10 0 0

/-- A zigzag-encoded number. -/
def readVarint : Reading Int64 := do
  let ux ← readUvarint
  let x := (ux >>> 1).toInt64
  pure (if ux &&& 1 ≠ 0 then ~~~x else x)

/-- The changed bits of a value, in the window of the leading and trailing zeros. -/
def xorReadWindow (value : UInt64) (leading trailing mBits : UInt8) : Reading XorValue := do
  let bits ← readBits mBits
  pure ⟨value ^^^ bits <<< trailing.toUInt64, leading, trailing⟩

/-- A value: unchanged, changed in the last window, or with a new window. -/
def xorRead (value : UInt64) (leading trailing : UInt8) : Reading XorValue := do
  let changed ← readBit
  if !changed then pure ⟨value, leading, trailing⟩
  else do
    let control ← readBit
    if !control then xorReadWindow value leading trailing (64 - leading - trailing)
    else do
      let newLeading ← readBits 5
      let mb ← readBits 6
      let leading := newLeading.toUInt8
      let mBits := if mb.toUInt8 = 0 then 64 else mb.toUInt8
      xorReadWindow value leading (64 - leading - mBits) mBits

/-- The ones of the selector, up to its zero or the fourth of them. -/
def readSelector : ℕ → UInt8 → Reading UInt8
  | 0, d => pure d
  | n + 1, d => do
    let bit ← readBit
    if !bit then pure (d <<< 1) else readSelector n (d <<< 1 ||| 1)

/-- A signed number in `sz` bits. -/
def readSized (sz : UInt8) : Reading Int64 := do
  let bits ← readBits sz
  let bits := if bits > 1 <<< (sz - 1).toUInt64 then bits - 1 <<< sz.toUInt64 else bits
  pure bits.toInt64

/-- The delta of a delta: its size is told by the selector. -/
def readDod : Reading Int64 := do
  let d ← readSelector 4 0
  match d with
  | 0b0 => pure 0
  | 0b10 => readSized 14
  | 0b110 => readSized 17
  | 0b1110 => readSized 20
  | 0b1111 => do
    let bits ← readBits 64
    pure bits.toInt64
  | _ => .fail

/-- The value of a sample whose timestamp is read. -/
def readValue (it : XorState) : Reading (XorSample × XorState) := do
  let v ← xorRead it.val it.leading it.trailing
  let it := { it with
    val := v.val
    leading := v.leading
    trailing := v.trailing
    numRead := it.numRead + 1 }
  pure ((it.t, it.val), it)

/-- The next sample: the first two are written in their own way. -/
def next (it : XorState) : Reading (XorSample × XorState) :=
  if it.numRead = it.numTotal then .fail
  else if it.numRead = 0 then do
    let t ← readVarint
    let v ← readBits 64
    let it := { it with t := t, val := v, numRead := it.numRead + 1 }
    pure ((it.t, it.val), it)
  else if it.numRead = 1 then do
    let tDelta ← readUvarint
    readValue { it with tDelta := tDelta, t := it.t + tDelta.toInt64 }
  else do
    let dod ← readDod
    let tDelta := (it.tDelta.toInt64 + dod).toUInt64
    readValue { it with tDelta := tDelta, t := it.t + tDelta.toInt64 }

def collect : ℕ → XorState → List XorSample → Reading (List XorSample)
  | 0, _, out => pure out
  | n + 1, it, out => do
    let (sample, it) ← next it
    collect n it (out ++ [sample])

end Reading

namespace XorState

/-- The state of `XorIterator::new`. -/
def start (numTotal : UInt16) : XorState :=
  { numTotal := numTotal, numRead := 0, t := Int64.minValue, val := 0, leading := 0, trailing := 0,
    tDelta := 0 }

def withReader (it : XorState) (br : BstreamReader) : XorIterator where
  br := br
  numTotal := it.numTotal
  numRead := it.numRead
  t := it.t
  val := it.val
  leading := it.leading
  trailing := it.trailing
  tDelta := it.tDelta

end XorState

/-! ### The program is the decoder -/

section Run

variable (br : BstreamReader)

@[simp]
theorem run_readBit : Reading.readBit.run step br = br.readBit :=
  Program.run_perform step Call.bit br

@[simp]
theorem run_readBits (nbits : UInt8) : (Reading.readBits nbits).run step br = br.readBits nbits :=
  Program.run_perform step (Call.bits nbits) br

@[simp]
theorem run_readByte : Reading.readByte.run step br = br.readByte :=
  Program.run_perform step Call.byte br

theorem run_readUvarintLoop (fuel : ℕ) (x : UInt64) (s : ℕ) :
    (Reading.readUvarintLoop fuel x s).run step br = readUvarintLoop fuel x s br := by
  induction fuel generalizing x s br with
  | zero => rfl
  | succ fuel ih =>
    rw [Reading.readUvarintLoop, readUvarintLoop, Program.run_bind, run_readByte]
    refine congrArg _ (funext fun ⟨b, br⟩ => ?_)
    dsimp only
    split
    · rfl
    · exact ih br _ _

@[simp]
theorem run_readUvarint : Reading.readUvarint.run step br = br.readUvarint :=
  run_readUvarintLoop br 10 0 0

@[simp]
theorem run_readVarint : Reading.readVarint.run step br = br.readVarint := by
  rw [Reading.readVarint, readVarint, Program.run_bind, run_readUvarint]
  rfl

theorem run_xorReadWindow (value : UInt64) (leading trailing mBits : UInt8) :
    (Reading.xorReadWindow value leading trailing mBits).run step br =
      xorReadWindow value leading trailing mBits br := by
  rw [Reading.xorReadWindow, xorReadWindow, Program.run_bind, run_readBits]
  rfl

@[simp]
theorem run_xorRead (value : UInt64) (leading trailing : UInt8) :
    (Reading.xorRead value leading trailing).run step br = xorRead value leading trailing br := by
  rw [Reading.xorRead, xorRead, Program.run_bind, run_readBit]
  refine congrArg _ (funext fun p => ?_)
  obtain ⟨changed, br⟩ := p
  dsimp only
  split
  · rfl
  · rw [Program.run_bind, run_readBit]
    refine congrArg _ (funext fun p => ?_)
    obtain ⟨control, br⟩ := p
    dsimp only
    split
    · exact run_xorReadWindow ..
    · rw [Program.run_bind, run_readBits]
      refine congrArg _ (funext fun p => ?_)
      obtain ⟨newLeading, br⟩ := p
      rw [Program.run_bind, run_readBits]
      exact congrArg _ (funext fun _ => run_xorReadWindow ..)

theorem run_readSelector (n : ℕ) (d : UInt8) :
    (Reading.readSelector n d).run step br = readSelector n d br := by
  induction n generalizing d br with
  | zero => rfl
  | succ n ih =>
    rw [Reading.readSelector, readSelector, Program.run_bind, run_readBit]
    refine congrArg _ (funext fun p => ?_)
    obtain ⟨bit, br⟩ := p
    dsimp only
    split
    · rfl
    · exact ih br _

theorem run_readSized (sz : UInt8) : (Reading.readSized sz).run step br = readSized sz br := by
  rw [Reading.readSized, readSized, Program.run_bind, run_readBits]
  rfl

@[simp]
theorem run_readDod : Reading.readDod.run step br = readDod br := by
  rw [Reading.readDod, readDod, Program.run_bind, run_readSelector]
  refine congrArg _ (funext fun p => ?_)
  obtain ⟨d, br⟩ := p
  dsimp only
  split
  · rfl
  · exact run_readSized ..
  · exact run_readSized ..
  · exact run_readSized ..
  · rw [Program.run_bind, run_readBits]
    rfl
  · simp [*]

theorem run_readValue (it : XorState) :
    ((Reading.readValue it).run step br).map (fun p => (p.1.1, p.1.2.withReader p.2)) =
      (it.withReader br).readValue := by
  rw [Reading.readValue, XorIterator.readValue, Program.run_bind, run_xorRead, Option.map_bind]
  rfl

theorem run_next (it : XorState) :
    ((Reading.next it).run step br).map (fun p => (p.1.1, p.1.2.withReader p.2)) =
    (it.withReader br).next := by
  rw [Reading.next, XorIterator.next]
  change _ = if it.numRead = it.numTotal then _ else if it.numRead = 0 then _
    else if it.numRead = 1 then _ else _
  split
  · rfl
  · split
    · rw [Program.run_bind, run_readVarint, Option.map_bind]
      refine congrArg _ (funext fun p => ?_)
      obtain ⟨t, br⟩ := p
      rw [Function.comp_apply, Program.run_bind, run_readBits, Option.map_bind]
      rfl
    · split
      · rw [Program.run_bind, run_readUvarint, Option.map_bind]
        exact congrArg _ (funext fun p => run_readValue p.2 _)
      · rw [Program.run_bind, run_readDod, Option.map_bind]
        exact congrArg _ (funext fun p => run_readValue p.2 _)

theorem run_collect (n : ℕ) (it : XorState) (out : List XorSample) :
    (it.withReader br).collect n out =
      match (Reading.collect n it out).run step br with
      | some (samples, _) => .ok samples
      | none => .err "truncated XOR chunk" := by
  induction n generalizing it out br with
  | zero => rfl
  | succ n ih =>
    rw [XorIterator.collect, ← run_next, Reading.collect, Program.run_bind]
    cases (Reading.next it).run step br with
    | none => rfl
    | some p => exact ih p.2 p.1.2 _

end Run

/-! ### What the program asks for -/

namespace BstreamReader.Call

/-- A value of the size that was asked for. -/
def Fits : (c : Call) → c.Ret → Prop
  | bit, _ => True
  | bits nbits, v => v.toNat < 2 ^ nbits.toNat
  | byte, _ => True

theorem fits_value {c : Call} {bs : List Bool} (hlen : bs.length = c.size) :
    c.Fits (c.value bs) := by
  cases c with
  | bit => trivial
  | bits nbits =>
    have hlt := bitsValue_lt bs
    rw [hlen] at hlt
    refine lt_of_le_of_lt ?_ hlt
    rw [value, UInt64.toNat_ofNat']
    exact Nat.mod_le _ _
  | byte => trivial

end BstreamReader.Call

/-- The window of significant bits is not empty, and not larger than a word. -/
def HasWindow (leading trailing : UInt8) : Prop :=
  1 ≤ (64 - leading - trailing).toNat ∧ (64 - leading - trailing).toNat ≤ 64

/-- Whatever the leading zeros are, the window has the bits that it was made for. -/
theorem hasWindow_of_bits (leading : UInt8) {mBits : UInt8} (hpos : 1 ≤ mBits.toNat)
    (hle : mBits.toNat ≤ 64) : HasWindow leading (64 - leading - mBits) := by
  have hback : 64 - leading - (64 - leading - mBits) = mBits := by grind
  rw [HasWindow, hback]
  exact ⟨hpos, hle⟩

section Meets

theorem meets_readBit : Reading.readBit.Meets Call.Sized Call.Fits fun _ => True :=
  Program.meets_perform (show Call.bit.Sized from ⟨le_rfl, by decide⟩)

theorem meets_readBits {nbits : UInt8} (h : (Call.bits nbits).Sized) :
    (Reading.readBits nbits).Meets Call.Sized Call.Fits fun v => v.toNat < 2 ^ nbits.toNat :=
  Program.meets_perform h

theorem meets_readByte : Reading.readByte.Meets Call.Sized Call.Fits fun _ => True :=
  Program.meets_perform (show Call.byte.Sized from ⟨by decide, by decide⟩)

theorem sized_bits {nbits : UInt8} (hpos : 1 ≤ nbits.toNat) (hle : nbits.toNat ≤ 64) :
    (Call.bits nbits).Sized :=
  ⟨hpos, hle⟩

theorem meets_readUvarintLoop (fuel : ℕ) (x : UInt64) (s : ℕ) :
    (Reading.readUvarintLoop fuel x s).Meets Call.Sized Call.Fits fun _ => True := by
  induction fuel generalizing x s with
  | zero => trivial
  | succ fuel ih =>
    refine meets_readByte.bind fun b _ => ?_
    split
    · trivial
    · exact ih _ _

theorem meets_readVarint : Reading.readVarint.Meets Call.Sized Call.Fits fun _ => True :=
  (meets_readUvarintLoop 10 0 0).bind fun _ _ => trivial

theorem meets_xorReadWindow (value : UInt64) {leading trailing mBits : UInt8}
    (h : HasWindow leading trailing)
    (hpos : 1 ≤ mBits.toNat) (hle : mBits.toNat ≤ 64) :
    (Reading.xorReadWindow value leading trailing mBits).Meets Call.Sized Call.Fits
      fun v => HasWindow v.leading v.trailing :=
  (meets_readBits (sized_bits hpos hle)).bind fun _ _ => h

theorem meets_xorRead (value : UInt64) {leading trailing : UInt8} (h : HasWindow leading trailing) :
    (Reading.xorRead value leading trailing).Meets Call.Sized Call.Fits
      fun v => HasWindow v.leading v.trailing := by
  refine meets_readBit.bind fun changed _ => ?_
  split
  · exact h
  · refine meets_readBit.bind fun control _ => ?_
    split
    · exact meets_xorReadWindow value h h.1 h.2
    · refine (meets_readBits (sized_bits (by decide) (by decide))).bind fun newLeading _ => ?_
      refine (meets_readBits (sized_bits (by decide) (by decide))).bind fun mb hmb => ?_
      have hbounds : 1 ≤ (if mb.toUInt8 = 0 then 64 else mb.toUInt8).toNat ∧
          (if mb.toUInt8 = 0 then 64 else mb.toUInt8).toNat ≤ 64 := by
        split
        · decide
        · next hne =>
          have hpos : mb.toUInt8.toNat ≠ 0 := fun h0 => hne (UInt8.toNat_inj.mp h0)
          change mb.toNat < 64 at hmb
          rw [UInt64.toNat_toUInt8] at hpos ⊢
          omega
      exact meets_xorReadWindow value (hasWindow_of_bits _ hbounds.1 hbounds.2) hbounds.1 hbounds.2

theorem meets_readSelector (n : ℕ) (d : UInt8) :
    (Reading.readSelector n d).Meets Call.Sized Call.Fits fun _ => True := by
  induction n generalizing d with
  | zero => trivial
  | succ n ih =>
    refine meets_readBit.bind fun bit _ => ?_
    split
    · trivial
    · exact ih _

theorem meets_readSized {sz : UInt8} (hpos : 1 ≤ sz.toNat) (hle : sz.toNat ≤ 64) :
    (Reading.readSized sz).Meets Call.Sized Call.Fits fun _ => True :=
  (meets_readBits (sized_bits hpos hle)).bind fun _ _ => trivial

theorem meets_readDod : Reading.readDod.Meets Call.Sized Call.Fits fun _ => True := by
  refine (meets_readSelector 4 0).bind fun d _ => ?_
  split
  · trivial
  · exact meets_readSized (by decide) (by decide)
  · exact meets_readSized (by decide) (by decide)
  · exact meets_readSized (by decide) (by decide)
  · exact (meets_readBits (sized_bits (by decide) (by decide))).bind fun _ _ => trivial
  · trivial

theorem meets_readValue {it : XorState} (h : HasWindow it.leading it.trailing) :
    (Reading.readValue it).Meets Call.Sized Call.Fits fun p => HasWindow p.2.leading p.2.trailing :=
  (meets_xorRead it.val h).bind fun _ hv => hv

theorem meets_next {it : XorState} (h : HasWindow it.leading it.trailing) :
    (Reading.next it).Meets Call.Sized Call.Fits fun p => HasWindow p.2.leading p.2.trailing := by
  rw [Reading.next]
  split
  · trivial
  · split
    · refine meets_readVarint.bind fun t _ => ?_
      exact (meets_readBits (sized_bits (by decide) (by decide))).bind fun _ _ => h
    · split
      · exact (meets_readUvarintLoop 10 0 0).bind fun _ _ => meets_readValue h
      · exact meets_readDod.bind fun _ _ => meets_readValue h

theorem meets_collect {it : XorState} (h : HasWindow it.leading it.trailing) (n : ℕ)
    (out : List XorSample) :
    (Reading.collect n it out).Meets Call.Sized Call.Fits fun _ => True := by
  induction n generalizing it out with
  | zero => trivial
  | succ n ih => exact (meets_next h).bind fun p hp => ih hp _

end Meets

/-! ### The decoder of a list of bits -/

/-- The plain reader as a machine. -/
def plainStep (c : Call) (bs : List Bool) : Option (c.Ret × List Bool) :=
  (c.plain bs).1.map (·, (c.plain bs).2)

def decodeXorBits (chunk : Bytes) : Outcome (List XorSample) :=
  match chunk with
  | b0 :: b1 :: rest =>
    let numTotal := UInt16.ofNat (beNat [b0, b1])
    match (Reading.collect numTotal.toNat (.start numTotal) []).run plainStep (byteBits rest) with
    | some (samples, _) => .ok samples
    | none => .err "truncated XOR chunk"
  | _ => .err "XOR chunk shorter than its 2-byte header"

/-- No read of the decoder overruns. -/
def DecodeAvoidsOverruns (chunk : Bytes) : Prop :=
  match chunk with
  | b0 :: b1 :: rest =>
    let numTotal := UInt16.ofNat (beNat [b0, b1])
    (Reading.collect numTotal.toNat (.start numTotal) []).Avoids step
      (fun r c => r.Overruns c.size) (.new rest)
  | _ => True

theorem decodeXorChunk_cons (b0 b1 : UInt8) (rest : Bytes) :
    decodeXorChunk (b0 :: b1 :: rest) =
      match (Reading.collect (UInt16.ofNat (beNat [b0, b1])).toNat
        (.start (UInt16.ofNat (beNat [b0, b1]))) []).run
        step (.new rest) with
      | some (samples, _) => .ok samples
      | none => .err "truncated XOR chunk" :=
  run_collect (.new rest) _ (.start (UInt16.ofNat (beNat [b0, b1]))) []

/-- The buffered reader as a machine, in the states in which a call does not overrun. -/
theorem stepsAgree_of_not_overruns {c : Call} {r : BstreamReader} {bs : List Bool}
    (hsized : c.Sized)
    (hrel : r.Valid ∧ r.bits = bs) (h : ¬ r.Overruns c.size) :
    Program.StepsAgree (fun r bs => r.Valid ∧ r.bits = bs) c.Fits (step c r) (plainStep c bs) := by
  obtain ⟨hr, rfl⟩ := hrel
  obtain ⟨r', hcall, hr', hbits'⟩ := callAgrees_of_not_overruns .wraps hr hsized h
  rw [step_of_wraps hsized hcall, plainStep]
  by_cases hlt : r.bits.length < c.size
  · rw [Call.plain_of_lt hlt]
    trivial
  · have hle := Nat.not_lt.mp hlt
    rw [Call.plain_of_le hle] at hbits' ⊢
    exact ⟨rfl, Call.fits_value (List.length_take_of_le hle), hr', hbits'⟩

theorem hasWindow_start (numTotal : UInt16) :
    HasWindow (XorState.start numTotal).leading (XorState.start numTotal).trailing :=
  show HasWindow 0 0 from ⟨by decide, by decide⟩

theorem decodeXorChunk_eq_decodeXorBits {chunk : Bytes} (h : DecodeAvoidsOverruns chunk) :
    decodeXorChunk chunk = decodeXorBits chunk := by
  match chunk, h with
  | [], _ => rfl
  | [_], _ => rfl
  | b0 :: b1 :: rest, havoids =>
    have hsteps : ∀ c r bs, c.Sized → r.Valid ∧ r.bits = bs → ¬ r.Overruns c.size →
        Program.StepsAgree (fun r bs => r.Valid ∧ r.bits = bs) c.Fits (step c r) (plainStep c bs) :=
      fun c r bs hc hrel hbad => stepsAgree_of_not_overruns hc hrel hbad
    have hrun := Program.run_eq_of_avoids hsteps (meets_collect (hasWindow_start _) _ [])
      ⟨valid_new rest, bits_new rest⟩ havoids
    rw [decodeXorChunk_cons, decodeXorBits]
    generalize Program.run step _ _ = x at hrun ⊢
    generalize Program.run plainStep _ _ = y at hrun ⊢
    cases x with
    | none =>
      cases y with
      | none => rfl
      | some _ => cases hrun
    | some p =>
      cases y with
      | none => cases hrun
      | some q => exact congrArg _ (Option.some.inj hrun)

/-! ### The whole -/

/-- **The buffered reader is the plain one on the runs in which no call overruns**, and only on
these, and where no read of it overruns the decoder fails on every chunk that ends early. -/
theorem bitReader_exact_iff (mode : Overflow) (b : Bytes) (calls : List Call)
    (hsized : ∀ c ∈ calls, c.Sized) :
    (Exact mode calls (.new b) (byteBits b) ↔ AvoidsOverruns mode calls (.new b)) ∧
      ∀ chunk, DecodeAvoidsOverruns chunk → decodeXorChunk chunk = decodeXorBits chunk := by
  refine ⟨?_, fun chunk => decodeXorChunk_eq_decodeXorBits⟩
  rw [← bits_new]
  exact exact_iff_avoidsOverruns mode hsized (valid_new b)

/-- A bit and then a byte of a slice of two bytes. -/
theorem bitReader_exact_iff_two :
    (Exact .panics [.bit, .byte] (.new [0xa5, 0x0f]) (byteBits [0xa5, 0x0f]) ↔
      AvoidsOverruns .panics [.bit, .byte] (.new [0xa5, 0x0f])) ∧
      ∀ chunk, DecodeAvoidsOverruns chunk → decodeXorChunk chunk = decodeXorBits chunk :=
  bitReader_exact_iff .panics [0xa5, 0x0f] [.bit, .byte] (by simp [Call.Sized, Call.size])

/-- Sixteen bits are read where there are fifteen, and a sample where there are three bytes. -/
theorem bitReader_overruns :
    (∀ mode, ¬ Exact mode [.bit, .bits 16] (.new [0, 0]) (byteBits [0, 0])) ∧
      decodeXorBits [0, 1, 0, 0, 0] = .err "truncated XOR chunk" ∧
      decodeXorChunk [0, 1, 0, 0, 0] = .ok [(0, 0)] := by
  refine ⟨fun mode hexact => ?_, rfl, rfl⟩
  have hsized : ∀ c ∈ [Call.bit, Call.bits 16], c.Sized := by simp [Call.Sized, Call.size]
  have havoids := (exact_iff_avoidsOverruns mode hsized (valid_new [0, 0])).mp hexact
  -- one byte is loaded for the bit, and the other one is left
  have hcall : callWith mode .bit (.new [0, 0]) = .ok (some false, ⟨[0, 0], 1, 0, 7, 0⟩) := by
    cases mode <;> rfl
  exact (havoids.2 _ _ hcall).1 ⟨by decide, by decide, by decide⟩

end Esmetrics.Esmctl
