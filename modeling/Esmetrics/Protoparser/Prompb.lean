import Esmetrics.Protoparser.Wire

/-!
# Remote-write requests

Model of `esm-protoparser/src/prompb.rs` and `esm-protoparser/src/prompb_encode.rs`: the decoder and
the encoder of the protobuf message that is sent by remote write. A value is the bits of its number.

`Inserted` is a message with fields that its decoder does not know, in any number and between any of
its own fields, and `EncodesWriteRequest` an encoding of series with such fields in any of the
messages that are nested in it. It is decoded to the series (`unmarshalWriteRequest_eq_ok`), and
what the encoder writes is one (`encodesWriteRequest`). The decoder returns on any input
(`writeRequest_codec`).
-/

namespace Esmetrics.Protoparser

open List

open WireReader

/-! ### The messages -/

structure Label where
  name : Bytes
  value : Bytes
deriving DecidableEq

/-- A sample; the value is the bits of its `f64`. -/
structure Sample where
  value : UInt64
  timestamp : Int64
deriving DecidableEq

structure TimeSeries where
  labels : List Label
  samples : List Sample
deriving DecidableEq

structure WriteRequest where
  timeseries : List TimeSeries
deriving DecidableEq

/-! ### Decoding -/

/-- The name is field 1, the value field 2; a later one replaces an earlier one. -/
def onLabel : OnField Label := fun fieldNum wireType s r =>
  match fieldNum with
  | 1 => do
    expect wireType 2
    let (name, r) ← r.readLenDelim
    .ok ({ s with name := name }, r)
  | 2 => do
    expect wireType 2
    let (value, r) ← r.readLenDelim
    .ok ({ s with value := value }, r)
  | _ => skipField wireType s r

def unmarshalLabel (src : Bytes) : Outcome Label := message onLabel ⟨[], []⟩ src

/-- The value is field 1, the timestamp field 2. -/
def onSample : OnField Sample := fun fieldNum wireType s r =>
  match fieldNum with
  | 1 => do
    expect wireType 1
    let (value, r) ← r.readFixed64
    .ok ({ s with value := value }, r)
  | 2 => do
    expect wireType 0
    let (timestamp, r) ← r.readVarint
    .ok ({ s with timestamp := timestamp.toInt64 }, r)
  | _ => skipField wireType s r

def unmarshalSample (src : Bytes) : Outcome Sample := message onSample ⟨0, 0⟩ src

/-- The labels are fields 1, the samples fields 2, each in its order. -/
def onTimeSeries : OnField TimeSeries := fun fieldNum wireType s r =>
  match fieldNum with
  | 1 => do
    expect wireType 2
    let (data, r) ← r.readLenDelim
    let label ← unmarshalLabel data
    .ok ({ s with labels := s.labels ++ [label] }, r)
  | 2 => do
    expect wireType 2
    let (data, r) ← r.readLenDelim
    let sample ← unmarshalSample data
    .ok ({ s with samples := s.samples ++ [sample] }, r)
  | _ => skipField wireType s r

def unmarshalTimeSeries (src : Bytes) : Outcome TimeSeries := message onTimeSeries ⟨[], []⟩ src

/-- The series are fields 1. -/
def onWriteRequest : OnField WriteRequest := fun fieldNum wireType s r =>
  match fieldNum with
  | 1 => do
    expect wireType 2
    let (data, r) ← r.readLenDelim
    let ts ← unmarshalTimeSeries data
    .ok ({ s with timeseries := s.timeseries ++ [ts] }, r)
  | _ => skipField wireType s r

def unmarshalWriteRequest (src : Bytes) : Outcome WriteRequest := message onWriteRequest ⟨[]⟩ src

/-! ### Encoding -/

theorem toNat_shiftRight_seven (v : UInt64) : (v >>> 7).toNat = v.toNat / 128 := by
  rw [UInt64.toNat_shiftRight, show (7 : UInt64).toNat % 64 = 7 from rfl,
    Nat.shiftRight_eq_div_pow]

/-- Seven bits a byte, the lowest first; all but the last byte have the high bit. -/
def appendVarint (dst : Bytes) (v : UInt64) : Bytes :=
  let byte := (v &&& 0x7f).toUInt8
  if _h : v >>> 7 = 0 then dst ++ [byte] else appendVarint (dst ++ [byte ||| 0x80]) (v >>> 7)
termination_by v.toNat
decreasing_by
  have hshift := toNat_shiftRight_seven v
  have hpos : (v >>> 7).toNat ≠ 0 := fun h0 => _h (UInt64.toNat_inj.mp h0)
  omega

def appendTag (dst : Bytes) (fieldNum wireType : UInt64) : Bytes :=
  appendVarint dst (fieldNum <<< 3 ||| wireType)

/-- A field of wire type 2, behind its length. -/
def appendBytesField (dst : Bytes) (fieldNum : UInt64) (data : Bytes) : Bytes :=
  appendVarint (appendTag dst fieldNum 2) (UInt64.ofNat data.length) ++ data

def appendDoubleField (dst : Bytes) (fieldNum : UInt64) (v : UInt64) : Bytes :=
  appendTag dst fieldNum 1 ++ leBytes 8 v.toNat

/-- A field of wire type 0. Negative values take ten bytes. -/
def appendVarintField (dst : Bytes) (fieldNum : UInt64) (v : Int64) : Bytes :=
  appendVarint (appendTag dst fieldNum 0) v.toUInt64

def encodeLabel (dst : Bytes) (l : Label) : Bytes :=
  appendBytesField (appendBytesField dst 1 l.name) 2 l.value

def encodeSample (dst : Bytes) (s : Sample) : Bytes :=
  appendVarintField (appendDoubleField dst 1 s.value) 2 s.timestamp

/-- The labels come before the samples. -/
def encodeTimeSeries (ts : TimeSeries) : Bytes :=
  let dst := ts.labels.foldl (fun dst l => appendBytesField dst 1 (encodeLabel [] l)) []
  ts.samples.foldl (fun dst s => appendBytesField dst 2 (encodeSample [] s)) dst

def encodeWriteRequest (series : List TimeSeries) : Bytes :=
  series.foldl (fun dst ts => appendBytesField dst 1 (encodeTimeSeries ts)) []

/-! ### Fields that are not known -/

/-- The value of a field of a wire type. -/
inductive IsValue : ℕ → Bytes → Prop
  | varint {bs : Bytes} (h : IsVarint bs) (hten : bs.length ≤ 10) : IsValue 0 bs
  | fixed64 {bs : Bytes} (h : bs.length = 8) : IsValue 1 bs
  | lenDelim {len data : Bytes} (h : IsVarint len) (hten : len.length ≤ 10)
    (hvalue : leb128Value len = data.length) : IsValue 2 (len ++ data)
  | fixed32 {bs : Bytes} (h : bs.length = 4) : IsValue 5 bs

/-- A well-formed field whose number is not one of the known ones. -/
inductive IsUnknownField (known : List ℕ) : Bytes → Prop
  | mk {num wireType : ℕ} {tag value : Bytes} (hnum : num < 2 ^ 29) (hknown : num ∉ known)
    (htag : IsVarint tag) (hten : tag.length ≤ 10) (hvalue : leb128Value tag = 8 * num + wireType)
    (h : IsValue wireType value) : IsUnknownField known (tag ++ value)

/-- A message made of the given fields, with unknown fields inserted anywhere between them. -/
inductive Inserted (known : List ℕ) : List Bytes → Bytes → Prop
  | nil : Inserted known [] []
  | field {f : Bytes} {fs : List Bytes} {bs : Bytes} (h : Inserted known fs bs) :
    Inserted known (f :: fs) (f ++ bs)
  | unknown {u : Bytes} {fs : List Bytes} {bs : Bytes} (hu : IsUnknownField known u)
    (h : Inserted known fs bs) : Inserted known fs (u ++ bs)

/-- An encoding of a label, with unknown fields. -/
def EncodesLabel (l : Label) (bs : Bytes) : Prop :=
  Inserted [1, 2] [appendBytesField [] 1 l.name, appendBytesField [] 2 l.value] bs

/-- An encoding of a sample, with unknown fields. -/
def EncodesSample (s : Sample) (bs : Bytes) : Prop :=
  Inserted [1, 2] [appendDoubleField [] 1 s.value, appendVarintField [] 2 s.timestamp] bs

/-- An encoding of a series, with unknown fields in it and in its labels and samples. -/
def EncodesTimeSeries (ts : TimeSeries) (bs : Bytes) : Prop :=
  ∃ labels samples, List.Forall₂ EncodesLabel ts.labels labels ∧
    List.Forall₂ EncodesSample ts.samples samples ∧
    Inserted [1, 2] (labels.map (appendBytesField [] 1) ++ samples.map (appendBytesField [] 2)) bs

/-- An encoding of a request, with unknown fields at any level. -/
def EncodesWriteRequest (series : List TimeSeries) (bs : Bytes) : Prop :=
  ∃ encoded, List.Forall₂ EncodesTimeSeries series encoded ∧
    Inserted [1] (encoded.map (appendBytesField [] 1)) bs

/-! ### The bytes of the encoder -/

theorem appendVarint_of_lt {v : UInt64} (dst : Bytes) (h : v >>> 7 = 0) :
    appendVarint dst v = dst ++ [(v &&& 0x7f).toUInt8] := by
  rw [appendVarint, dif_pos h]

/-- The encoder writes the shortest varints. -/
theorem appendVarint_eq (dst : Bytes) (v : UInt64) : appendVarint dst v =
    dst ++ leb128 v.toNat := by
  have hbyte : ∀ v : UInt64, (v &&& 0x7f).toUInt8 = UInt8.ofNat (v.toNat % 128) := by
    intro v
    apply UInt8.toNat_inj.mp
    rw [UInt64.toNat_toUInt8, UInt8.toNat_ofNat', UInt64.toNat_and,
      show (0x7f : UInt64).toNat = 2 ^ 7 - 1 from rfl, Nat.and_two_pow_sub_one_eq_mod]
  generalize hn : v.toNat = n
  induction n using Nat.strong_induction_on generalizing dst v with
  | _ n ih =>
    have hshift := toNat_shiftRight_seven v
    rw [appendVarint, hbyte, hn]
    by_cases hlt : n < 128
    · have hzero : v >>> 7 = 0 := by
        apply UInt64.toNat_inj.mp
        rw [hshift, hn]
        exact Nat.div_eq_of_lt hlt
      rw [dif_pos hzero, leb128_of_lt hlt, Nat.mod_eq_of_lt hlt]
    · have hne : ¬ v >>> 7 = 0 := by
        intro hzero
        have hnat := congrArg UInt64.toNat hzero
        rw [hshift, hn] at hnat
        simp only [UInt64.toNat_zero] at hnat
        omega
      rw [dif_neg hne, ih (n / 128) (by omega) _ _ (by rw [hshift, hn]),
        leb128_of_ge (n := n) (by omega), or_0x80 (Nat.mod_lt _ (by omega)), append_assoc]
      rfl

/-- The bytes of a tag, for the small field numbers that are known. -/
theorem appendTag_eq (dst : Bytes) (num wireType : ℕ) (hnum : num < 2 ^ 29) (hwt : wireType < 8) :
    appendTag dst (UInt64.ofNat num) (UInt64.ofNat wireType) =
      dst ++ leb128 (8 * num + wireType) := by
  rw [appendTag, appendVarint_eq]
  have hshift : (UInt64.ofNat num <<< 3).toNat = 8 * num := by
    rw [UInt64.toNat_shiftLeft, UInt64.toNat_ofNat', show (3 : UInt64).toNat % 64 = 3 from rfl,
      Nat.shiftLeft_eq, Nat.mod_eq_of_lt (by omega), Nat.mod_eq_of_lt (by omega)]
    omega
  have hor : 8 * num ||| wireType = 8 * num + wireType := by
    have hadd := Nat.two_pow_add_eq_or_of_lt (i := 3) (b := wireType) hwt num
    exact hadd.symm
  rw [UInt64.toNat_or, hshift, UInt64.toNat_ofNat', Nat.mod_eq_of_lt (by omega), hor]

theorem appendBytesField_eq (dst : Bytes) {num : ℕ} (hnum : num < 2 ^ 29) (data : Bytes) :
    appendBytesField dst (UInt64.ofNat num) data =
      dst ++ (leb128 (8 * num + 2) ++ (leb128 (data.length % 2 ^ 64) ++ data)) := by
  have htag := appendTag_eq dst num 2 hnum (by omega)
  rw [appendBytesField, appendVarint_eq, UInt64.toNat_ofNat']
  rw [show (2 : UInt64) = UInt64.ofNat 2 from rfl, htag]
  simp only [append_assoc]

/-! ### Reading the fields back -/

section Reads

variable {σ : Type} {onField : OnField σ}

/-- A field whose number is not known is skipped. -/
theorem reads_unknown {known : List ℕ} {u : Bytes} (hu : IsUnknownField known u)
    (hskip : ∀ num, num ∉ known → ∀ wt s r, onField num wt s r = skipField wt s r) :
    Reads onField u id := by
  obtain @⟨num, wireType, tag, value, hnum, hknown, htag, hten, hvalue, h⟩ := hu
  refine ⟨by simp [htag.ne_nil], fun done rest s hlen => ?_⟩
  rw [append_assoc] at hlen ⊢
  have hwt : wireType = 0 ∨ wireType = 1 ∨ wireType = 2 ∨ wireType = 5 := by
    cases h <;> simp
  have hlen' : ((done ++ tag) ++ (value ++ rest)).length ≤ isizeMax := by simpa using hlen
  have hread : (between (done ++ tag) (value ++ rest)).skip wireType =
      .ok ((), between ((done ++ tag) ++ value) rest) := by
    cases h with
    | varint h hten =>
      rw [skip, readVarint_between h hten hlen']
      rfl
    | fixed64 h =>
      have hadv := advance_between hlen'
      rw [h] at hadv
      rw [skip, hadv]
      rfl
    | @lenDelim len data h hten hv =>
      rw [append_assoc len] at hlen' ⊢
      rw [skip, readLenDelim_between h hten hv hlen']
      rfl
    | fixed32 h =>
      have hadv := advance_between hlen'
      rw [h] at hadv
      rw [skip, hadv]
      rfl
  rw [field, readTag_between htag hten hvalue (by omega) hwt hlen]
  simp only [Outcome.ok_bind, hskip num hknown, skipField, hread, append_assoc]
  rfl

/-- A length-delimited field is read with the data behind its tag. -/
theorem reads_bytesField (num : ℕ) (hnum : num < 2 ^ 29) {data : Bytes} {f : σ → σ}
    (h : data.length ≤ isizeMax → ∀ s r r', r.readLenDelim = .ok (data, r') →
      onField num 2 s r = .ok (f s, r')) :
    Reads onField (appendBytesField [] (UInt64.ofNat num) data) f := by
  rw [appendBytesField_eq _ hnum, nil_append]
  refine ⟨by simp [leb128_ne_nil], fun done rest s hlen => ?_⟩
  have hsize : data.length ≤ isizeMax := by
    simp only [length_append] at hlen
    omega
  have hmod : data.length % 2 ^ 64 = data.length := by
    refine Nat.mod_eq_of_lt ?_
    simp only [isizeMax] at hsize
    omega
  rw [hmod] at hlen ⊢
  simp only [append_assoc] at hlen ⊢
  rw [field, readTag_between (isVarint_leb128 _) (length_leb128_le_ten (by omega))
    (leb128Value_leb128 _) (by omega) (by simp) hlen]
  simp only [Outcome.ok_bind]
  have hlen' : ((done ++ leb128 (8 * num + 2)) ++ (leb128 data.length ++ (data ++ rest))).length ≤
      isizeMax := by simpa using hlen
  have hread := readLenDelim_between (isVarint_leb128 data.length)
    (length_leb128_le_ten (by simp only [isizeMax] at hsize; omega)) (leb128Value_leb128 _) hlen'
  rw [h hsize _ _ _ hread]
  simp only [append_assoc]

/-- The message with unknown fields is read as the one without. -/
theorem message_of_inserted {known : List ℕ} {default : σ} (fs : List (Bytes × (σ → σ)))
    (hfs : ∀ f ∈ fs, Reads onField f.1 f.2)
    (hskip : ∀ num, num ∉ known → ∀ wt s r, onField num wt s r = skipField wt s r) {bs : Bytes}
    (h : Inserted known (fs.map Prod.fst) bs) (hlen : bs.length ≤ isizeMax) :
    message onField default bs = .ok (fs.foldl (fun s f => f.2 s) default) := by
  -- the parts of the message, those of the unknown fields with no effect
  obtain ⟨parts, rfl, hparts, hfold⟩ : ∃ parts : List (Bytes × (σ → σ)),
      parts.flatMap Prod.fst = bs ∧ (∀ p ∈ parts, Reads onField p.1 p.2) ∧
        ∀ s, parts.foldl (fun s p => p.2 s) s = fs.foldl (fun s f => f.2 s) s := by
    clear hlen
    generalize hmap : fs.map Prod.fst = gs at h
    induction h generalizing fs with
    | nil =>
      obtain rfl : fs = [] := map_eq_nil_iff.mp hmap
      exact ⟨[], rfl, by simp, fun s => rfl⟩
    | @field f gs bs h ih =>
      obtain ⟨g, fs, rfl, rfl, rfl⟩ : ∃ g fs', fs = g :: fs' ∧ g.1 = f ∧ fs'.map Prod.fst = gs :=
        map_eq_cons_iff.mp hmap
      obtain ⟨parts, hbs, hparts, hfold⟩ :=
        ih fs (fun f hf => hfs f (mem_cons_of_mem _ hf)) rfl
      refine ⟨g :: parts, by rw [flatMap_cons, hbs], ?_, fun s => hfold _⟩
      intro p hp
      obtain rfl | hp := mem_cons.mp hp
      · exact hfs p mem_cons_self
      · exact hparts p hp
    | @unknown u gs bs hu h ih =>
      obtain ⟨parts, hbs, hparts, hfold⟩ := ih fs hfs hmap
      refine ⟨(u, id) :: parts, by rw [flatMap_cons, hbs], ?_, fun s => hfold _⟩
      intro p hp
      obtain rfl | hp := mem_cons.mp hp
      · exact reads_unknown hu hskip
      · exact hparts p hp
  rw [message_of_reads parts hparts hlen, hfold]

end Reads

/-! ### Decoding what is encoded -/

/-- A known field whose data has a decoding is appended to a list. -/
theorem reads_nested {σ τ : Type} {onField : OnField σ} {push : τ → σ → σ} (num : ℕ)
    (decode : Bytes → Outcome τ) (hnum : num < 2 ^ 29)
    (hon : ∀ s r, onField num 2 s r = do
      let (data, r) ← r.readLenDelim
      let a ← decode data
      .ok (push a s, r))
    {a : τ} {data : Bytes} (h : data.length ≤ isizeMax → decode data = .ok a) :
    Reads onField (appendBytesField [] (UInt64.ofNat num) data) (push a) := by
  refine reads_bytesField num hnum fun hsize s r r' hread => ?_
  rw [hon, hread]
  simp only [Outcome.ok_bind, h hsize]

theorem onLabel_of_not_mem {num : ℕ} (h : num ∉ [1, 2]) (wt : ℕ) (s : Label) (r : WireReader) :
    onLabel num wt s r = skipField wt s r := by
  simp only [mem_cons, not_mem_nil, or_false, not_or] at h
  simp [onLabel, h]

theorem onSample_of_not_mem {num : ℕ} (h : num ∉ [1, 2]) (wt : ℕ) (s : Sample) (r : WireReader) :
    onSample num wt s r = skipField wt s r := by
  simp only [mem_cons, not_mem_nil, or_false, not_or] at h
  simp [onSample, h]

theorem onTimeSeries_of_not_mem {num : ℕ} (h : num ∉ [1, 2]) (wt : ℕ) (s : TimeSeries)
    (r : WireReader) : onTimeSeries num wt s r = skipField wt s r := by
  simp only [mem_cons, not_mem_nil, or_false, not_or] at h
  simp [onTimeSeries, h]

theorem onWriteRequest_of_not_mem {num : ℕ} (h : num ∉ [1]) (wt : ℕ) (s : WriteRequest)
    (r : WireReader) : onWriteRequest num wt s r = skipField wt s r := by
  simp only [mem_cons, not_mem_nil, or_false] at h
  unfold onWriteRequest
  split
  · exact absurd rfl h
  · rfl

variable {bs : Bytes}

theorem unmarshalLabel_eq_ok {l : Label} (h : EncodesLabel l bs) (hlen : bs.length ≤ isizeMax) :
    unmarshalLabel bs = .ok l := by
  let fs : List (Bytes × (Label → Label)) :=
    [(appendBytesField [] 1 l.name, fun s => { s with name := l.name }),
      (appendBytesField [] 2 l.value, fun s => { s with value := l.value })]
  have hfs : ∀ f ∈ fs, Reads onLabel f.1 f.2 := by
    intro f hf
    obtain rfl | rfl : f = _ ∨ f = _ := by simpa [fs] using hf
    · refine reads_bytesField 1 (by omega) fun _ s r r' hread => ?_
      simp [onLabel, expect, hread]
    · refine reads_bytesField 2 (by omega) fun _ s r r' hread => ?_
      simp [onLabel, expect, hread]
  exact message_of_inserted fs hfs (fun num => onLabel_of_not_mem) h hlen

theorem reads_value (v : UInt64) :
    Reads onSample (appendDoubleField [] 1 v) fun s => { s with value := v } := by
  have htag : appendTag [] 1 1 = leb128 (8 * 1 + 1) :=
    appendTag_eq [] 1 1 (by omega) (by omega)
  rw [appendDoubleField, htag]
  refine ⟨by simp [leb128_ne_nil], fun done rest s hlen => ?_⟩
  rw [append_assoc] at hlen ⊢
  rw [field, readTag_between (isVarint_leb128 _) (length_leb128_le_ten (by omega))
    (leb128Value_leb128 _) (by omega) (by simp) hlen]
  simp only [Outcome.ok_bind, onSample, expect, if_true]
  rw [readFixed64_between v (by simpa using hlen), append_assoc]
  rfl

theorem reads_timestamp (t : Int64) :
    Reads onSample (appendVarintField [] 2 t) fun s => { s with timestamp := t } := by
  have htag : appendTag [] 2 0 = leb128 (8 * 2 + 0) :=
    appendTag_eq [] 2 0 (by omega) (by omega)
  rw [appendVarintField, appendVarint_eq, htag]
  refine ⟨by simp [leb128_ne_nil], fun done rest s hlen => ?_⟩
  rw [append_assoc] at hlen ⊢
  rw [field, readTag_between (isVarint_leb128 _) (length_leb128_le_ten (by omega))
    (leb128Value_leb128 _) (by omega) (by simp) hlen]
  simp only [Outcome.ok_bind, onSample, expect, if_true]
  rw [readVarint_between (isVarint_leb128 _) (length_leb128_le_ten t.toUInt64.toNat_lt)
    (by simpa using hlen), (isVarint64_leb128 t.toUInt64).orPayload_eq, append_assoc]
  rfl

theorem unmarshalSample_eq_ok {s : Sample} (h : EncodesSample s bs) (hlen : bs.length ≤ isizeMax) :
    unmarshalSample bs = .ok s := by
  let fs : List (Bytes × (Sample → Sample)) :=
    [(appendDoubleField [] 1 s.value, fun s' => { s' with value := s.value }),
      (appendVarintField [] 2 s.timestamp, fun s' => { s' with timestamp := s.timestamp })]
  have hfs : ∀ f ∈ fs, Reads onSample f.1 f.2 := by
    intro f hf
    obtain rfl | rfl : f = _ ∨ f = _ := by simpa [fs] using hf
    · exact reads_value s.value
    · exact reads_timestamp s.timestamp
  exact message_of_inserted fs hfs (fun num => onSample_of_not_mem) h hlen

/-- The fields of a list of nested messages, each with the item that it stands for. -/
theorem exists_fields {σ τ : Type} {onField : OnField σ} {num : UInt64} {push : τ → σ → σ}
    {encodes : τ → Bytes → Prop}
    (hreads : ∀ a bs, encodes a bs → Reads onField (appendBytesField [] num bs) (push a))
    {items : List τ} {encoded : List Bytes} (h : List.Forall₂ encodes items encoded) :
    ∃ fs : List (Bytes × (σ → σ)), fs.map Prod.fst = encoded.map (appendBytesField [] num) ∧
      (∀ f ∈ fs, Reads onField f.1 f.2) ∧
      ∀ s, fs.foldl (fun s f => f.2 s) s = items.foldl (fun s a => push a s) s := by
  induction h with
  | nil => exact ⟨[], rfl, by simp, fun s => rfl⟩
  | @cons a bs items encoded ha h ih =>
    obtain ⟨fs, hmap, hfs, hfold⟩ := ih
    refine ⟨(appendBytesField [] num bs, push a) :: fs, ?_, ?_, fun s => hfold _⟩
    · rw [map_cons, map_cons, hmap]
    · intro f hf
      obtain rfl | hf := mem_cons.mp hf
      · exact hreads a bs ha
      · exact hfs f hf

theorem unmarshalTimeSeries_eq_ok {ts : TimeSeries} (h : EncodesTimeSeries ts bs)
    (hlen : bs.length ≤ isizeMax) :
    unmarshalTimeSeries bs = .ok ts := by
  obtain ⟨labels, samples, hlabels, hsamples, h⟩ := h
  let pushLabel : Label → TimeSeries → TimeSeries := fun l s => { s with labels := s.labels ++ [l] }
  let pushSample : Sample → TimeSeries → TimeSeries :=
    fun x s => { s with samples := s.samples ++ [x] }
  have hreadLabel : ∀ l bs, EncodesLabel l bs →
      Reads onTimeSeries (appendBytesField [] 1 bs) (pushLabel l) := fun l bs hl =>
    reads_nested 1 unmarshalLabel (by omega) (fun s r => rfl)
      (unmarshalLabel_eq_ok hl)
  have hreadSample : ∀ x bs, EncodesSample x bs →
      Reads onTimeSeries (appendBytesField [] 2 bs) (pushSample x) := fun x bs hx =>
    reads_nested 2 unmarshalSample (by omega) (fun s r => rfl)
      (unmarshalSample_eq_ok hx)
  obtain ⟨ls, hlmap, hls, hlfold⟩ := exists_fields hreadLabel hlabels
  obtain ⟨ss, hsmap, hss, hsfold⟩ := exists_fields hreadSample hsamples
  have hall : ∀ f ∈ ls ++ ss, Reads onTimeSeries f.1 f.2 := by
    intro f hf
    exact (mem_append.mp hf).elim (hls f) (hss f)
  have hpushLabels : ∀ (xs : List Label) (s : TimeSeries),
      xs.foldl (fun s a => pushLabel a s) s = { s with labels := s.labels ++ xs } := by
    intro xs
    induction xs with
    | nil => simp
    | cons x xs ih => simp [ih, pushLabel]
  have hpushSamples : ∀ (xs : List Sample) (s : TimeSeries),
      xs.foldl (fun s a => pushSample a s) s = { s with samples := s.samples ++ xs } := by
    intro xs
    induction xs with
    | nil => simp
    | cons x xs ih => simp [ih, pushSample]
  rw [← hlmap, ← hsmap, ← map_append] at h
  rw [unmarshalTimeSeries, message_of_inserted (ls ++ ss) hall
    (fun num => onTimeSeries_of_not_mem) h
    hlen, foldl_append, hlfold, hsfold, hpushLabels, hpushSamples]
  simp

/-- **Whatever is inserted, the series are read back**: an encoding of a request, with fields that
are not known at any place of any of its messages, is decoded to the series. -/
theorem unmarshalWriteRequest_eq_ok {series : List TimeSeries} (h : EncodesWriteRequest series bs)
    (hlen : bs.length ≤ isizeMax) :
    unmarshalWriteRequest bs = .ok ⟨series⟩ := by
  obtain ⟨encoded, hencoded, h⟩ := h
  let push : TimeSeries → WriteRequest → WriteRequest :=
    fun ts s => { s with timeseries := s.timeseries ++ [ts] }
  have hread : ∀ ts bs, EncodesTimeSeries ts bs →
      Reads onWriteRequest (appendBytesField [] 1 bs) (push ts) := fun ts bs hts =>
    reads_nested 1 unmarshalTimeSeries (by omega) (fun s r => rfl)
      (unmarshalTimeSeries_eq_ok hts)
  obtain ⟨fs, hmap, hfs, hfold⟩ := exists_fields hread hencoded
  have hpush : ∀ (xs : List TimeSeries) (s : WriteRequest),
      xs.foldl (fun s a => push a s) s = { s with timeseries := s.timeseries ++ xs } := by
    intro xs
    induction xs with
    | nil => simp
    | cons x xs ih => simp [ih, push]
  rw [← hmap] at h
  rw [unmarshalWriteRequest, message_of_inserted fs hfs (fun num => onWriteRequest_of_not_mem) h
    hlen, hfold, hpush]
  simp

/-! ### The encoder -/

section Encoder

theorem appendBytesField_append (dst : Bytes) (num : UInt64) (data : Bytes) :
    appendBytesField dst num data = dst ++ appendBytesField [] num data := by
  simp only [appendBytesField, appendTag, appendVarint_eq, append_assoc, nil_append]

theorem appendVarintField_append (dst : Bytes) (num : UInt64) (v : Int64) :
    appendVarintField dst num v = dst ++ appendVarintField [] num v := by
  simp only [appendVarintField, appendTag, appendVarint_eq, append_assoc, nil_append]

/-- A loop that appends one field for each item. -/
theorem foldl_appendBytesField {τ : Type} (num : UInt64) (encode : τ → Bytes) (items : List τ)
    (dst : Bytes) :
    items.foldl (fun dst a => appendBytesField dst num (encode a)) dst =
      dst ++ (items.map fun a => appendBytesField [] num (encode a)).flatten := by
  induction items generalizing dst with
  | nil => simp
  | cons a items ih =>
    rw [foldl_cons, ih, appendBytesField_append dst]
    simp

/-- Without unknown fields a message is its fields one behind the other. -/
theorem inserted_flatten (known : List ℕ) (fs : List Bytes) : Inserted known fs fs.flatten := by
  induction fs with
  | nil => exact .nil
  | cons f fs ih => exact .field ih

theorem forall₂_map_self {τ : Type} {encodes : τ → Bytes → Prop} {encode : τ → Bytes}
    (h : ∀ a, encodes a (encode a)) (items : List τ) :
    List.Forall₂ encodes items (items.map encode) := by
  rw [forall₂_map_right_iff]
  exact forall₂_same.mpr fun a _ => h a

theorem encodesLabel (l : Label) : EncodesLabel l (encodeLabel [] l) := by
  have h := inserted_flatten [1, 2] [appendBytesField [] 1 l.name, appendBytesField [] 2 l.value]
  have heq : encodeLabel [] l =
      [appendBytesField [] 1 l.name, appendBytesField [] 2 l.value].flatten := by
    rw [encodeLabel, appendBytesField_append (appendBytesField [] 1 l.name)]
    simp
  rwa [← heq] at h

theorem encodesSample (s : Sample) : EncodesSample s (encodeSample [] s) := by
  have h := inserted_flatten [1, 2]
    [appendDoubleField [] 1 s.value, appendVarintField [] 2 s.timestamp]
  have heq : encodeSample [] s =
      [appendDoubleField [] 1 s.value, appendVarintField [] 2 s.timestamp].flatten := by
    rw [encodeSample, appendVarintField_append (appendDoubleField [] 1 s.value)]
    simp
  rwa [← heq] at h

theorem encodesTimeSeries (ts : TimeSeries) : EncodesTimeSeries ts (encodeTimeSeries ts) := by
  refine ⟨ts.labels.map (encodeLabel []), ts.samples.map (encodeSample []),
    forall₂_map_self encodesLabel _, forall₂_map_self encodesSample _, ?_⟩
  have heq : encodeTimeSeries ts = ((ts.labels.map (encodeLabel [])).map (appendBytesField [] 1) ++
      (ts.samples.map (encodeSample [])).map (appendBytesField [] 2)).flatten := by
    simp only [encodeTimeSeries, foldl_appendBytesField, nil_append, flatten_append,
      map_map, Function.comp_def]
  rw [heq]
  exact inserted_flatten _ _

/-- The encoder writes an encoding, without unknown fields. -/
theorem encodesWriteRequest (series : List TimeSeries) :
    EncodesWriteRequest series (encodeWriteRequest series) := by
  refine ⟨series.map encodeTimeSeries, forall₂_map_self encodesTimeSeries _, ?_⟩
  have heq : encodeWriteRequest series =
      ((series.map encodeTimeSeries).map (appendBytesField [] 1)).flatten := by
    simp only [encodeWriteRequest, foldl_appendBytesField, nil_append, map_map,
      Function.comp_def]
  rw [heq]
  exact inserted_flatten _ _

end Encoder

/-! ### Any input -/

section Safe

variable {r : WireReader}

theorem length_of_readLenDelim {data : Bytes} {r' : WireReader} (hr : r.Valid)
    (h : r.readLenDelim = .ok (data, r')) : data.length ≤ isizeMax := by
  obtain ⟨⟨len, r''⟩, hlen, h⟩ := Outcome.bind_eq_ok_iff.mp h
  obtain ⟨⟨-, hsize⟩, -, -⟩ := (safe_readVarint hr).valid len r'' hlen
  dsimp only at h
  rw [advance] at h
  split at h
  · obtain ⟨rfl, -⟩ := Prod.mk.inj (Outcome.ok.inj h)
    rw [length_take, length_drop]
    omega
  · cases h

/-- A nested message is decoded without a panic. -/
theorem safe_nested {σ τ : Type} {decode : Bytes → Outcome τ} {push : τ → σ} (hr : r.Valid)
    (h : ∀ data : Bytes, data.length ≤ isizeMax → ¬ (decode data).Panics) :
    Safe r (do
      let (data, r) ← r.readLenDelim
      let a ← decode data
      .ok (push a, r)) := by
  refine (safe_readLenDelim hr).bind fun data r' hdata hr' => ?_
  have hnot := h data (length_of_readLenDelim hr hdata)
  dsimp only
  cases hdecode : decode data with
  | ok a => exact Safe.ok hr' rfl le_rfl
  | err msg => exact ⟨Outcome.not_panics_err _, fun _ _ h => nomatch h⟩
  | panic msg => exact absurd ⟨msg, hdecode⟩ hnot

variable {src : Bytes}

theorem not_panics_unmarshalLabel (h : src.length ≤ isizeMax) :
    ¬ (unmarshalLabel src).Panics := by
  refine not_panics_message (fun num wt s r hr => ?_) h
  unfold onLabel
  split
  · exact safe_expect ((safe_readLenDelim hr).bind fun _ _ _ hr' => Safe.ok hr' rfl le_rfl)
  · exact safe_expect ((safe_readLenDelim hr).bind fun _ _ _ hr' => Safe.ok hr' rfl le_rfl)
  · exact safe_skipField hr wt s

theorem not_panics_unmarshalSample (h : src.length ≤ isizeMax) :
    ¬ (unmarshalSample src).Panics := by
  refine not_panics_message (fun num wt s r hr => ?_) h
  unfold onSample
  split
  · exact safe_expect ((safe_readFixed64 hr).bind fun _ _ _ hr' => Safe.ok hr' rfl le_rfl)
  · exact safe_expect ((safe_readVarint hr).bind fun _ _ _ hr' => Safe.ok hr' rfl le_rfl)
  · exact safe_skipField hr wt s

theorem not_panics_unmarshalTimeSeries (h : src.length ≤ isizeMax) :
    ¬ (unmarshalTimeSeries src).Panics := by
  refine not_panics_message (fun num wt s r hr => ?_) h
  unfold onTimeSeries
  split
  · exact safe_expect (safe_nested hr fun data => not_panics_unmarshalLabel)
  · exact safe_expect (safe_nested hr fun data => not_panics_unmarshalSample)
  · exact safe_skipField hr wt s

theorem not_panics_unmarshalWriteRequest (h : src.length ≤ isizeMax) :
    ¬ (unmarshalWriteRequest src).Panics := by
  refine not_panics_message (fun num wt s r hr => ?_) h
  unfold onWriteRequest
  split
  · exact safe_expect (safe_nested hr fun data => not_panics_unmarshalTimeSeries)
  · exact safe_skipField hr wt s

end Safe

/-- **The remote-write codec.** What the encoder writes is decoded to the series; so is every
encoding of them with unknown fields at any place; and on any input the decoder ends with a request
or an error. No byte string is longer than `isizeMax`. -/
theorem writeRequest_codec :
    (∀ series, (encodeWriteRequest series).length ≤ isizeMax →
      unmarshalWriteRequest (encodeWriteRequest series) = .ok ⟨series⟩) ∧
    (∀ series bs, EncodesWriteRequest series bs → bs.length ≤ isizeMax →
      unmarshalWriteRequest bs = .ok ⟨series⟩) ∧
    (∀ src : Bytes, src.length ≤ isizeMax → ¬ (unmarshalWriteRequest src).Panics) :=
  ⟨fun series h => unmarshalWriteRequest_eq_ok (encodesWriteRequest series) h,
    fun _ _ h hlen => unmarshalWriteRequest_eq_ok h hlen,
    fun _ h => not_panics_unmarshalWriteRequest h⟩

/-- A series with one label and one sample, alone and before a field of number 3. -/
theorem writeRequest_codec_one :
    unmarshalWriteRequest (encodeWriteRequest [⟨[⟨[0x6a], [0x78]⟩], [⟨1, 5⟩]⟩]) =
      .ok ⟨[⟨[⟨[0x6a], [0x78]⟩], [⟨1, 5⟩]⟩]⟩ ∧
    unmarshalWriteRequest (encodeWriteRequest [⟨[⟨[0x6a], [0x78]⟩], [⟨1, 5⟩]⟩] ++ [0x18, 0x07]) =
      .ok ⟨[⟨[⟨[0x6a], [0x78]⟩], [⟨1, 5⟩]⟩]⟩ ∧
    ¬ (unmarshalWriteRequest [0x0a, 0xff]).Panics := by
  have hts : encodeTimeSeries ⟨[⟨[0x6a], [0x78]⟩], [⟨1, 5⟩]⟩ =
      [10, 6, 10, 1, 0x6a, 18, 1, 0x78, 18, 11, 9, 1, 0, 0, 0, 0, 0, 0, 0, 16, 5] := by
    simp (disch := decide) only [encodeTimeSeries, encodeLabel, encodeSample, appendBytesField,
      appendTag, appendDoubleField, appendVarintField, appendVarint_of_lt, List.foldl]
    decide
  have hreq : encodeWriteRequest [⟨[⟨[0x6a], [0x78]⟩], [⟨1, 5⟩]⟩] =
      appendBytesField [] 1
        [10, 6, 10, 1, 0x6a, 18, 1, 0x78, 18, 11, 9, 1, 0, 0, 0, 0, 0, 0, 0, 16, 5] := by
    rw [encodeWriteRequest, List.foldl, List.foldl, hts]
  have hlen : (encodeWriteRequest [⟨[⟨[0x6a], [0x78]⟩], [⟨1, 5⟩]⟩]).length = 23 := by
    rw [hreq]
    simp (disch := decide) only [appendBytesField, appendTag, appendVarint_of_lt]
    decide
  have htag : IsVarint [0x18] := by
    change (0x18 : UInt8).toNat < 128
    decide
  have hvalue : IsVarint [0x07] := by
    change (0x07 : UInt8).toNat < 128
    decide
  have hunknown : IsUnknownField [1] ([0x18] ++ [0x07]) :=
    .mk (by decide : 3 < 2 ^ 29) (by decide) htag (by decide) (by decide)
      (.varint hvalue (by decide))
  have hencodes : EncodesWriteRequest [⟨[⟨[0x6a], [0x78]⟩], [⟨1, 5⟩]⟩]
      (encodeWriteRequest [⟨[⟨[0x6a], [0x78]⟩], [⟨1, 5⟩]⟩] ++ [0x18, 0x07]) := by
    refine ⟨[_], .cons (encodesTimeSeries _) .nil, ?_⟩
    exact .field (.unknown hunknown .nil)
  refine ⟨writeRequest_codec.1 _ ?_, writeRequest_codec.2.1 _ _ hencodes ?_,
    writeRequest_codec.2.2 _ (by decide)⟩
  · rw [hlen]
    decide
  · rw [length_append, hlen]
    decide

end Esmetrics.Protoparser
