import Esmetrics.Lib.FixedWidth

/-!
# Metric names and their index encoding

Model of `esm-storage/src/metric_name.rs`. A metric name is a metric group and a list of
`(key, value)` tags, all arbitrary byte strings. Its index form is the group followed by the
tags, every string escaped and terminated by `tagSeparatorChar`; the three reserved bytes are
escaped as two-byte sequences, so an encoded string holds its separator only at its end and
no `kvSeparatorChar` at all.

Two facts carry the decoding side. The unescaping loop can be read one byte at a time
(`unescapeTagValue_nil`, `unescapeTagValue_cons`, `unescapeTagValue_escape`), and it treats a
raw `kvSeparatorChar` as its own escape (`unescapeTagValue_escapeKvSeparators`): the decoder
is exact up to that one leniency (`MetricName.unmarshal_eq_ok_iff`).
-/

namespace Esmetrics

open List

/-! ### Tag values -/

/-- Marks an escaped byte. -/
def escapeChar : UInt8 := 0

/-- Ends an encoded string. -/
def tagSeparatorChar : UInt8 := 1

/-- Separates the key of an index entry from its value. -/
def kvSeparatorChar : UInt8 := 2

/-- The bytes the slow path of `marshalTagValue` appends for one byte. -/
def marshalTagByte (ch : UInt8) : Bytes :=
  if ch = escapeChar then [escapeChar, 0x30]
  else if ch = tagSeparatorChar then [escapeChar, 0x31]
  else if ch = kvSeparatorChar then [escapeChar, 0x32]
  else [ch]

/-- Appends escaped `src` to `dst`, terminated with `tagSeparatorChar`. -/
def marshalTagValue (dst src : Bytes) : Bytes :=
  if !src.any fun ch => ch == escapeChar || ch == tagSeparatorChar || ch == kvSeparatorChar then
    -- fast path
    dst ++ src ++ [tagSeparatorChar]
  else
    src.foldl (fun dst ch => dst ++ marshalTagByte ch) dst ++ [tagSeparatorChar]

/-- The unescaping loop of `unmarshalTagValue`, over the bytes before the separator. -/
def unescapeTagValue (dst b : Bytes) : Except String Bytes :=
  match b.findIdx? (· == escapeChar) with
  | none => .ok (dst ++ b)
  | some n =>
    match _h : b.drop (n + 1) with
    | [] => .error "missing escaped char"
    | ch :: rest =>
      if ch = 0x30 then unescapeTagValue (dst ++ b.take n ++ [escapeChar]) rest
      else if ch = 0x31 then unescapeTagValue (dst ++ b.take n ++ [tagSeparatorChar]) rest
      else if ch = 0x32 then unescapeTagValue (dst ++ b.take n ++ [kvSeparatorChar]) rest
      else
        let c := Char.ofNat ch.toNat
        .error s!"unsupported escaped char: {c}"
termination_by b.length
decreasing_by
  all_goals
    have hlen := congrArg List.length _h
    simp only [length_drop, length_cons] at hlen
    omega

/-- Unescapes a tag value from `src`, appending it to `dst`, and returns the rest of `src`
after the first `tagSeparatorChar`. -/
def unmarshalTagValue (dst src : Bytes) : Except String (Bytes × Bytes) :=
  match src.findIdx? (· == tagSeparatorChar) with
  | none => .error "cannot find the end of tag value"
  | some n =>
    match unescapeTagValue dst (src.take n) with
    | .error err => .error err
    | .ok dst => .ok (dst, src.drop (n + 1))

/-! ### Names -/

/-- A `(key, value)` tag. -/
structure Tag where
  key : Bytes
  value : Bytes
deriving DecidableEq, Repr

/-- Appends the marshaled tag to `dst`. -/
def Tag.marshal (tag : Tag) (dst : Bytes) : Bytes :=
  marshalTagValue (marshalTagValue dst tag.key) tag.value

/-- Reads a tag and returns the remaining data. -/
def Tag.unmarshal (src : Bytes) : Except String (Tag × Bytes) :=
  match unmarshalTagValue [] src with
  | .error err => .error s!"cannot unmarshal key: {err}"
  | .ok (key, src) =>
    match unmarshalTagValue [] src with
    | .error err => .error s!"cannot unmarshal value: {err}"
    | .ok (value, src) => .ok (⟨key, value⟩, src)

/-- A metric name: the metric group and the tags. -/
structure MetricName where
  metricGroup : Bytes
  tags : List Tag
deriving DecidableEq, Repr

namespace MetricName

/-- Appends the index form of the name to `dst`. -/
def marshal (mn : MetricName) (dst : Bytes) : Bytes :=
  mn.tags.foldl (fun dst tag => tag.marshal dst) (marshalTagValue dst mn.metricGroup)

end MetricName

variable {dst src b y : Bytes}

private theorem length_snd_unmarshalTagValue {s rest : Bytes}
    (h : unmarshalTagValue dst src = .ok (s, rest)) :
    rest.length < src.length := by
  unfold unmarshalTagValue at h
  split at h
  · cases h
  · next n hn =>
    split at h
    · cases h
    · obtain ⟨hlt, -⟩ := findIdx?_eq_some_iff_getElem.mp hn
      simp only [Except.ok.injEq, Prod.mk.injEq] at h
      rw [← h.2, length_drop]
      omega

private theorem length_snd_tag_unmarshal {rest : Bytes} {tag : Tag}
    (h : Tag.unmarshal src = .ok (tag, rest)) :
    rest.length < src.length := by
  unfold Tag.unmarshal at h
  split at h
  · cases h
  · next hkey =>
    split at h
    · cases h
    · next hvalue =>
      simp only [Except.ok.injEq, Prod.mk.injEq] at h
      have hk := length_snd_unmarshalTagValue hkey
      have hv := length_snd_unmarshalTagValue hvalue
      rw [← h.2]
      omega

namespace MetricName

/-- The tag loop of `unmarshal`. -/
def unmarshalTags (tags : List Tag) (src : Bytes) : Except String (List Tag) :=
  if src.isEmpty then .ok tags
  else
    match _h : Tag.unmarshal src with
    | .error err => .error s!"cannot unmarshal tag: {err}"
    | .ok (tag, src) => unmarshalTags (tags ++ [tag]) src
termination_by src.length
decreasing_by exact length_snd_tag_unmarshal _h

/-- Reads a name from its index form. -/
def unmarshal (src : Bytes) : Except String MetricName :=
  match unmarshalTagValue [] src with
  | .error err => .error s!"cannot unmarshal MetricGroup: {err}"
  | .ok (metricGroup, src) =>
    match unmarshalTags [] src with
    | .error err => .error err
    | .ok tags => .ok ⟨metricGroup, tags⟩

end MetricName

/-! ### The encoder as a concatenation -/

/-- The escaped bytes of a string, without the terminator. -/
def escapeTagValue (src : Bytes) : Bytes := src.flatMap marshalTagByte

@[simp]
theorem escapeTagValue_nil : escapeTagValue [] = [] := rfl

@[simp]
theorem escapeTagValue_cons (ch : UInt8) (src : Bytes) :
    escapeTagValue (ch :: src) = marshalTagByte ch ++ escapeTagValue src := by
  simp [escapeTagValue]

theorem marshalTagByte_of_not_reserved {ch : UInt8} (h0 : ch ≠ escapeChar)
    (h1 : ch ≠ tagSeparatorChar) (h2 : ch ≠ kvSeparatorChar) : marshalTagByte ch = [ch] := by
  simp [marshalTagByte, h0, h1, h2]

/-- The fast and the slow path append the same bytes. -/
theorem marshalTagValue_eq (dst src : Bytes) :
    marshalTagValue dst src = dst ++ escapeTagValue src ++ [tagSeparatorChar] := by
  have hslow : ∀ dst : Bytes,
      src.foldl (fun dst ch => dst ++ marshalTagByte ch) dst = dst ++ escapeTagValue src := by
    induction src with
    | nil => simp
    | cons ch src ih =>
      intro dst
      rw [foldl_cons, ih, escapeTagValue_cons, append_assoc]
  rw [marshalTagValue]
  split
  · next hfast =>
    have hplain : escapeTagValue src = src := by
      clear hslow
      induction src with
      | nil => rfl
      | cons ch src ih =>
        simp only [any_cons, Bool.not_or, Bool.and_eq_true, Bool.not_eq_true',
          beq_eq_false_iff_ne] at hfast
        obtain ⟨⟨⟨h0, h1⟩, h2⟩, hrest⟩ := hfast
        rw [escapeTagValue_cons, marshalTagByte_of_not_reserved h0 h1 h2, ih (by simpa using hrest)]
        rfl
    rw [hplain]
  · rw [hslow]

theorem tagSeparatorChar_not_mem_marshalTagByte (ch : UInt8) :
    tagSeparatorChar ∉ marshalTagByte ch := by
  unfold marshalTagByte
  split_ifs with h0 h1 h2
  · decide
  · decide
  · decide
  · simpa using fun h => h1 h.symm

theorem kvSeparatorChar_not_mem_marshalTagByte (ch : UInt8) :
    kvSeparatorChar ∉ marshalTagByte ch := by
  unfold marshalTagByte
  split_ifs with h0 h1 h2
  · decide
  · decide
  · decide
  · simpa using fun h => h2 h.symm

theorem tagSeparatorChar_not_mem_escapeTagValue (src : Bytes) :
    tagSeparatorChar ∉ escapeTagValue src := by
  simp only [escapeTagValue, mem_flatMap, not_exists, not_and]
  exact fun ch _ => tagSeparatorChar_not_mem_marshalTagByte ch

theorem kvSeparatorChar_not_mem_escapeTagValue (src : Bytes) :
    kvSeparatorChar ∉ escapeTagValue src := by
  simp only [escapeTagValue, mem_flatMap, not_exists, not_and]
  exact fun ch _ => kvSeparatorChar_not_mem_marshalTagByte ch

/-- The marshaled bytes of a tag. -/
theorem Tag.marshal_eq (tag : Tag) (dst : Bytes) :
    tag.marshal dst = dst ++ tag.marshal [] := by
  simp [Tag.marshal, marshalTagValue_eq]

/-- The marshaled bytes of a name: its group, then its tags. -/
theorem MetricName.marshal_eq (mn : MetricName) (dst : Bytes) :
    mn.marshal dst =
      dst ++ marshalTagValue [] mn.metricGroup ++ mn.tags.flatMap fun tag => tag.marshal [] := by
  have htags : ∀ (tags : List Tag) (dst : Bytes),
      tags.foldl (fun dst tag => tag.marshal dst) dst =
        dst ++ tags.flatMap fun tag => tag.marshal [] := by
    intro tags
    induction tags with
    | nil => simp
    | cons tag tags ih =>
      intro dst
      rw [foldl_cons, ih, Tag.marshal_eq, flatMap_cons, append_assoc]
  rw [MetricName.marshal, htags]
  simp [marshalTagValue_eq]

/-- No `kvSeparatorChar` occurs in a marshaled tag value. -/
theorem kvSeparatorChar_not_mem_marshalTagValue (src : Bytes) :
    kvSeparatorChar ∉ marshalTagValue [] src := by
  rw [marshalTagValue_eq]
  simpa [kvSeparatorChar_not_mem_escapeTagValue] using by decide

/-- No `kvSeparatorChar` occurs in a marshaled name. -/
theorem MetricName.kvSeparatorChar_not_mem_marshal (mn : MetricName) :
    kvSeparatorChar ∉ mn.marshal [] := by
  have hv := kvSeparatorChar_not_mem_marshalTagValue
  have htag : ∀ tag : Tag, kvSeparatorChar ∉ tag.marshal [] := fun tag => by
    have hdst : tag.marshal [] = marshalTagValue [] tag.key ++ marshalTagValue [] tag.value := by
      simp [Tag.marshal, marshalTagValue_eq]
    rw [hdst, mem_append, not_or]
    exact ⟨hv _, hv _⟩
  rw [MetricName.marshal_eq, nil_append, mem_append, not_or]
  refine ⟨hv _, ?_⟩
  simp only [mem_flatMap, not_exists, not_and]
  exact fun tag _ => htag tag

/-! ### The decoder, one byte at a time -/

private theorem unescapeTagValue_eq (dst b : Bytes) :
    unescapeTagValue dst b =
      match b.findIdx? (· == escapeChar) with
      | none => .ok (dst ++ b)
      | some n =>
        match b.drop (n + 1) with
        | [] => .error "missing escaped char"
        | ch :: rest =>
          if ch = 0x30 then unescapeTagValue (dst ++ b.take n ++ [escapeChar]) rest
          else if ch = 0x31 then unescapeTagValue (dst ++ b.take n ++ [tagSeparatorChar]) rest
          else if ch = 0x32 then unescapeTagValue (dst ++ b.take n ++ [kvSeparatorChar]) rest
          else
            let c := Char.ofNat ch.toNat
            .error s!"unsupported escaped char: {c}" := by
  rw [unescapeTagValue]
  split
  · rfl
  · split <;> simp only [*]

@[simp]
theorem unescapeTagValue_nil (dst : Bytes) : unescapeTagValue dst [] = .ok dst := by
  rw [unescapeTagValue]
  simp

/-- A byte other than the escape is copied. -/
theorem unescapeTagValue_cons {ch : UInt8} (h : ch ≠ escapeChar) (dst b : Bytes) :
    unescapeTagValue dst (ch :: b) = unescapeTagValue (dst ++ [ch]) b := by
  rw [unescapeTagValue_eq, unescapeTagValue_eq (dst ++ [ch]), findIdx?_cons]
  simp only [beq_eq_false_iff_ne.mpr h, Bool.false_eq_true, if_false]
  cases hb : b.findIdx? (· == escapeChar) with
  | none => simp
  | some n => simp

/-- The escape is followed by the digit of a reserved byte. -/
theorem unescapeTagValue_escape (dst b : Bytes) :
    unescapeTagValue dst (escapeChar :: b) =
      match b with
      | [] => .error "missing escaped char"
      | ch :: rest =>
        if ch = 0x30 then unescapeTagValue (dst ++ [escapeChar]) rest
        else if ch = 0x31 then unescapeTagValue (dst ++ [tagSeparatorChar]) rest
        else if ch = 0x32 then unescapeTagValue (dst ++ [kvSeparatorChar]) rest
        else
          let c := Char.ofNat ch.toNat
          .error s!"unsupported escaped char: {c}" := by
  rw [unescapeTagValue_eq, findIdx?_cons]
  simp only [beq_self_eq_true, if_true, Nat.zero_add, drop_succ_cons, drop_zero,
    take_zero, append_nil]
  cases b with
  | nil => rfl
  | cons ch rest => rfl

/-- Unescaping undoes escaping. -/
theorem unescapeTagValue_escapeTagValue (src dst : Bytes) :
    unescapeTagValue dst (escapeTagValue src) = .ok (dst ++ src) := by
  induction src generalizing dst with
  | nil => simp
  | cons ch src ih =>
    rw [escapeTagValue_cons]
    by_cases h0 : ch = escapeChar
    · subst h0
      simp [marshalTagByte, unescapeTagValue_escape, ih]
    by_cases h1 : ch = tagSeparatorChar
    · subst h1
      simp [marshalTagByte, unescapeTagValue_escape, ih, h0]
    by_cases h2 : ch = kvSeparatorChar
    · subst h2
      simp [marshalTagByte, unescapeTagValue_escape, ih, h0, h1]
    · rw [marshalTagByte_of_not_reserved h0 h1 h2, singleton_append,
        unescapeTagValue_cons h0, ih]
      simp

/-- Everything before the first separator is unescaped, everything after it is the tail. -/
theorem unmarshalTagValue_append (hb : tagSeparatorChar ∉ b) (dst tail : Bytes) :
    unmarshalTagValue dst (b ++ tagSeparatorChar :: tail) =
      (unescapeTagValue dst b).map fun s => (s, tail) := by
  have hidx : (b ++ tagSeparatorChar :: tail).findIdx? (· == tagSeparatorChar) =
      some b.length := by
    rw [findIdx?_append, findIdx?_eq_none_iff.mpr]
    · simp [findIdx?_cons]
    · intro ch hch
      have hne : ch ≠ tagSeparatorChar := fun h => hb (h ▸ hch)
      simpa using hne
  rw [unmarshalTagValue, hidx]
  simp only [take_left', drop_append, Nat.add_sub_cancel_left,
    drop_eq_nil_of_le (Nat.le_succ b.length)]
  cases unescapeTagValue dst b <;> rfl

/-- Without a separator there is no tag value. -/
theorem unmarshalTagValue_of_not_mem (h : tagSeparatorChar ∉ src) (dst : Bytes) :
    unmarshalTagValue dst src = .error "cannot find the end of tag value" := by
  have hidx : src.findIdx? (· == tagSeparatorChar) = none :=
    findIdx?_eq_none_iff.mpr fun ch hch => by
      have hne : ch ≠ tagSeparatorChar := fun he => h (he ▸ hch)
      simpa using hne
  rw [unmarshalTagValue, hidx]

/-- **Tag values are self-delimiting.** -/
theorem unmarshalTagValue_marshalTagValue (s t : Bytes) :
    unmarshalTagValue [] (marshalTagValue [] s ++ t) = .ok (s, t) := by
  rw [marshalTagValue_eq, nil_append, append_assoc, singleton_append,
    unmarshalTagValue_append (tagSeparatorChar_not_mem_escapeTagValue s),
    unescapeTagValue_escapeTagValue]
  rfl

/-- A marshaled tag is read back together with what follows it. -/
theorem Tag.unmarshal_marshal (tag : Tag) (t : Bytes) :
    Tag.unmarshal (tag.marshal [] ++ t) = .ok (tag, t) := by
  have hsplit : tag.marshal [] ++ t =
      marshalTagValue [] tag.key ++ (marshalTagValue [] tag.value ++ t) := by
    simp [Tag.marshal, marshalTagValue_eq]
  rw [hsplit, Tag.unmarshal, unmarshalTagValue_marshalTagValue]
  simp only [unmarshalTagValue_marshalTagValue]

namespace MetricName

private theorem unmarshalTags_eq (tags : List Tag) (src : Bytes) :
    unmarshalTags tags src =
      if src.isEmpty then .ok tags
      else
        match Tag.unmarshal src with
        | .error err => .error s!"cannot unmarshal tag: {err}"
        | .ok (tag, src) => unmarshalTags (tags ++ [tag]) src := by
  rw [unmarshalTags]
  split
  · rfl
  · split <;> simp only [*]

theorem unmarshalTags_flatMap_marshal (ts tags : List Tag) :
    unmarshalTags tags (ts.flatMap fun tag => tag.marshal []) = .ok (tags ++ ts) := by
  induction ts generalizing tags with
  | nil =>
    rw [unmarshalTags_eq]
    simp
  | cons tag ts ih =>
    have hne : ((tag :: ts).flatMap fun tag => tag.marshal []).isEmpty = false := by
      simp [Tag.marshal, marshalTagValue_eq]
    rw [unmarshalTags_eq, hne]
    simp only [Bool.false_eq_true, if_false, flatMap_cons, Tag.unmarshal_marshal]
    rw [ih]
    simp

/-- **Round trip of metric names.** -/
theorem unmarshal_marshal (mn : MetricName) : unmarshal (mn.marshal []) = .ok mn := by
  rw [marshal_eq, nil_append, unmarshal, unmarshalTagValue_marshalTagValue]
  simp [unmarshalTags_flatMap_marshal]

theorem marshal_injective {mn₁ mn₂ : MetricName} (h : mn₁.marshal [] = mn₂.marshal []) :
    mn₁ = mn₂ := by
  have h₂ := unmarshal_marshal mn₂
  rw [← h, unmarshal_marshal] at h₂
  exact Except.ok.inj h₂

end MetricName

/-! ### What the decoder accepts -/

/-- The string with every raw `kvSeparatorChar` replaced by its escape sequence. -/
def escapeKvSeparators (src : Bytes) : Bytes :=
  src.flatMap fun ch => if ch = kvSeparatorChar then [escapeChar, 0x32] else [ch]

@[simp]
theorem escapeKvSeparators_nil : escapeKvSeparators [] = [] := rfl

theorem escapeKvSeparators_append (b c : Bytes) :
    escapeKvSeparators (b ++ c) = escapeKvSeparators b ++ escapeKvSeparators c := by
  simp [escapeKvSeparators]

theorem escapeKvSeparators_cons_kv (b : Bytes) :
    escapeKvSeparators (kvSeparatorChar :: b) = escapeChar :: 0x32 :: escapeKvSeparators b := by
  simp [escapeKvSeparators]

theorem escapeKvSeparators_cons {ch : UInt8} (h : ch ≠ kvSeparatorChar) (b : Bytes) :
    escapeKvSeparators (ch :: b) = ch :: escapeKvSeparators b := by
  simp [escapeKvSeparators, h]

theorem escapeKvSeparators_eq_nil : escapeKvSeparators src = [] ↔ src = [] := by
  cases src with
  | nil => simp
  | cons ch src =>
    by_cases h : ch = kvSeparatorChar
    · subst h
      simp [escapeKvSeparators_cons_kv]
    · simp [escapeKvSeparators_cons h]

theorem tagSeparatorChar_mem_escapeKvSeparators :
    tagSeparatorChar ∈ escapeKvSeparators src ↔ tagSeparatorChar ∈ src := by
  induction src with
  | nil => simp
  | cons ch src ih =>
    by_cases h : ch = kvSeparatorChar
    · subst h
      rw [escapeKvSeparators_cons_kv]
      simp only [mem_cons, ih]
      have h0 : tagSeparatorChar ≠ escapeChar := by decide
      have h2 : tagSeparatorChar ≠ 0x32 := by decide
      have hkv : tagSeparatorChar ≠ kvSeparatorChar := by decide
      simp [h0, h2, hkv]
    · rw [escapeKvSeparators_cons h, mem_cons, mem_cons, ih]

/-- A raw `kvSeparatorChar` unescapes as if it had been escaped. -/
theorem unescapeTagValue_escapeKvSeparators {r : Bytes} :
    unescapeTagValue dst (escapeKvSeparators b) = .ok r ↔ unescapeTagValue dst b = .ok r := by
  induction hn : b.length using Nat.strong_induction_on generalizing dst b with
  | _ n ih =>
    cases b with
    | nil => rfl
    | cons ch b =>
      by_cases hkv : ch = kvSeparatorChar
      · subst hkv
        rw [escapeKvSeparators_cons_kv, unescapeTagValue_escape,
          unescapeTagValue_cons (by decide : kvSeparatorChar ≠ escapeChar)]
        exact ih b.length (by simp [← hn]) rfl
      rw [escapeKvSeparators_cons hkv]
      by_cases hesc : ch = escapeChar
      · subst hesc
        rw [unescapeTagValue_escape, unescapeTagValue_escape]
        cases b with
        | nil => rfl
        | cons c b =>
          have ihb : ∀ dst, unescapeTagValue dst (escapeKvSeparators b) = .ok r ↔
              unescapeTagValue dst b = .ok r := fun dst => ih b.length (by simp [← hn]) rfl
          by_cases hc : c = kvSeparatorChar
          · subst hc
            rw [escapeKvSeparators_cons_kv]
            simp [escapeChar, kvSeparatorChar]
          · rw [escapeKvSeparators_cons hc]
            dsimp only
            split_ifs
            · exact ihb _
            · exact ihb _
            · exact ihb _
            · simp
      · rw [unescapeTagValue_cons hesc, unescapeTagValue_cons hesc]
        exact ih b.length (by simp [← hn]) rfl

/-- What unescapes to a string is that string's escaped form, raw `kvSeparatorChar` bytes
aside. -/
theorem escapeTagValue_of_unescapeTagValue {r : Bytes} (hb : tagSeparatorChar ∉ b)
    (h : unescapeTagValue dst b = .ok r) :
    ∃ s, r = dst ++ s ∧ escapeTagValue s = escapeKvSeparators b := by
  induction hn : b.length using Nat.strong_induction_on generalizing dst b with
  | _ n ih =>
    cases b with
    | nil =>
      rw [unescapeTagValue_nil, Except.ok.injEq] at h
      exact ⟨[], by simp [h], rfl⟩
    | cons ch b =>
      rw [mem_cons, not_or] at hb
      by_cases hesc : ch = escapeChar
      · subst hesc
        rw [unescapeTagValue_escape] at h
        cases b with
        | nil => cases h
        | cons c b =>
          rw [mem_cons, not_or] at hb
          -- `c` is one of the three digits; the reserved byte `d` it stands for is emitted
          have step : ∀ d : UInt8, marshalTagByte d = [escapeChar, c] → c ≠ kvSeparatorChar →
              unescapeTagValue (dst ++ [d]) b = .ok r →
              ∃ s, r = dst ++ s ∧
                escapeTagValue s = escapeKvSeparators (escapeChar :: c :: b) := by
            intro d hd hc hrest
            obtain ⟨s, rfl, hs⟩ := ih b.length (by simp [← hn]) hb.2.2 hrest rfl
            refine ⟨d :: s, by simp, ?_⟩
            rw [escapeTagValue_cons, hd, hs, escapeKvSeparators_cons (by decide),
              escapeKvSeparators_cons hc]
            rfl
          dsimp only at h
          split_ifs at h with h0 h1 h2
          · exact step escapeChar (by rw [h0]; rfl) (by rw [h0]; decide) h
          · exact step tagSeparatorChar (by rw [h1]; rfl) (by rw [h1]; decide) h
          · exact step kvSeparatorChar (by rw [h2]; rfl) (by rw [h2]; decide) h
      · rw [unescapeTagValue_cons hesc] at h
        obtain ⟨s, rfl, hs⟩ := ih b.length (by simp [← hn]) hb.2 h rfl
        refine ⟨ch :: s, by simp, ?_⟩
        rw [escapeTagValue_cons, hs]
        by_cases hkv : ch = kvSeparatorChar
        · subst hkv
          rw [escapeKvSeparators_cons_kv]
          rfl
        · rw [escapeKvSeparators_cons hkv, marshalTagByte_of_not_reserved hesc (Ne.symm hb.1) hkv]
          rfl

/-- A separator of the escaped string comes from a separator of the string. -/
private theorem exists_split_of_escapeKvSeparators {x : Bytes} (hx : tagSeparatorChar ∉ x)
    (h : escapeKvSeparators src = x ++ tagSeparatorChar :: y) :
    ∃ b tail, src = b ++ tagSeparatorChar :: tail ∧ tagSeparatorChar ∉ b ∧
      escapeKvSeparators b = x ∧ escapeKvSeparators tail = y := by
  have hmem : tagSeparatorChar ∈ src :=
    tagSeparatorChar_mem_escapeKvSeparators.mp (by rw [h]; simp)
  obtain ⟨b, tail, rfl, hb⟩ := eq_append_cons_of_mem hmem
  have hb' : tagSeparatorChar ∉ escapeKvSeparators b := fun hc =>
    hb (tagSeparatorChar_mem_escapeKvSeparators.mp hc)
  rw [escapeKvSeparators_append, escapeKvSeparators_cons (by decide)] at h
  obtain ⟨h1, h2⟩ := append_cons_inj_of_not_mem hb' hx h
  exact ⟨b, tail, rfl, hb, h1, h2⟩

/-- A string reads as a tag value followed by a tail exactly when, its raw `kvSeparatorChar`
bytes escaped, it is the marshaled value followed by that tail. -/
theorem escapeKvSeparators_eq_marshalTagValue_append {s : Bytes} :
    escapeKvSeparators src = marshalTagValue [] s ++ y ↔
      ∃ tail, unmarshalTagValue [] src = .ok (s, tail) ∧ escapeKvSeparators tail = y := by
  rw [marshalTagValue_eq, nil_append, append_assoc, singleton_append]
  constructor
  · intro h
    obtain ⟨b, tail, rfl, hb, hesc, htail⟩ :=
      exists_split_of_escapeKvSeparators (tagSeparatorChar_not_mem_escapeTagValue s) h
    refine ⟨tail, ?_, htail⟩
    have hun : unescapeTagValue [] b = .ok s := by
      rw [← unescapeTagValue_escapeKvSeparators, hesc, unescapeTagValue_escapeTagValue]
      rfl
    rw [unmarshalTagValue_append hb, hun]
    rfl
  · rintro ⟨tail, h, rfl⟩
    by_cases hmem : tagSeparatorChar ∈ src
    · obtain ⟨b, tail', rfl, hb⟩ := eq_append_cons_of_mem hmem
      rw [unmarshalTagValue_append hb] at h
      cases hun : unescapeTagValue [] b with
      | error err =>
        rw [hun] at h
        cases h
      | ok r =>
        rw [hun] at h
        simp only [Except.map, Except.ok.injEq, Prod.mk.injEq] at h
        obtain ⟨rfl, rfl⟩ := h
        obtain ⟨s, rfl, hs⟩ := escapeTagValue_of_unescapeTagValue hb hun
        rw [escapeKvSeparators_append, escapeKvSeparators_cons (by decide), ← hs]
    · rw [unmarshalTagValue_of_not_mem hmem] at h
      cases h

/-- The same for a tag. -/
theorem Tag.escapeKvSeparators_eq_marshal_append {tag : Tag} :
    escapeKvSeparators src = tag.marshal [] ++ y ↔
      ∃ tail, Tag.unmarshal src = .ok (tag, tail) ∧ escapeKvSeparators tail = y := by
  have hsplit : tag.marshal [] ++ y =
      marshalTagValue [] tag.key ++ (marshalTagValue [] tag.value ++ y) := by
    simp [Tag.marshal, marshalTagValue_eq]
  rw [hsplit, escapeKvSeparators_eq_marshalTagValue_append]
  constructor
  · rintro ⟨src', hkey, h⟩
    obtain ⟨tail, hvalue, htail⟩ := escapeKvSeparators_eq_marshalTagValue_append.mp h
    refine ⟨tail, ?_, htail⟩
    simp only [Tag.unmarshal, hkey, hvalue]
  · rintro ⟨tail, h, htail⟩
    unfold Tag.unmarshal at h
    split at h
    · cases h
    · next key src' hkey =>
      split at h
      · cases h
      · next value tail' hvalue =>
        simp only [Except.ok.injEq, Prod.mk.injEq] at h
        obtain ⟨rfl, rfl⟩ := h
        exact ⟨src', hkey, escapeKvSeparators_eq_marshalTagValue_append.mpr ⟨_, hvalue, htail⟩⟩

namespace MetricName

theorem unmarshalTags_eq_ok_iff {tags r : List Tag} {src : Bytes} :
    unmarshalTags tags src = .ok r ↔
      ∃ ts, r = tags ++ ts ∧ escapeKvSeparators src = ts.flatMap fun tag => tag.marshal [] := by
  have hne : ∀ tag : Tag, tag.marshal [] ≠ [] := fun tag => by
    simp [Tag.marshal, marshalTagValue_eq]
  induction hn : src.length using Nat.strong_induction_on generalizing tags src with
  | _ n ih =>
    rw [unmarshalTags_eq]
    by_cases hsrc : src = []
    · subst hsrc
      simp only [isEmpty_nil, if_true, Except.ok.injEq, escapeKvSeparators_nil]
      constructor
      · rintro rfl
        exact ⟨[], by simp, rfl⟩
      · rintro ⟨ts, rfl, hts⟩
        cases ts with
        | nil => simp
        | cons tag ts => simp [hne] at hts
    rw [if_neg (by simpa using hsrc)]
    constructor
    · intro h
      split at h
      · cases h
      · next tag rest htag =>
        have hlt : rest.length < n := hn ▸ length_snd_tag_unmarshal htag
        obtain ⟨ts, rfl, hts⟩ := (ih rest.length hlt rfl).mp h
        refine ⟨tag :: ts, by simp, ?_⟩
        rw [flatMap_cons]
        exact Tag.escapeKvSeparators_eq_marshal_append.mpr ⟨rest, htag, hts⟩
    · rintro ⟨ts, rfl, hts⟩
      cases ts with
      | nil => exact absurd (escapeKvSeparators_eq_nil.mp hts) hsrc
      | cons tag ts =>
        rw [flatMap_cons] at hts
        obtain ⟨rest, htag, hrest⟩ := Tag.escapeKvSeparators_eq_marshal_append.mp hts
        have hlt : rest.length < n := hn ▸ length_snd_tag_unmarshal htag
        simp only [htag]
        exact (ih rest.length hlt rfl).mpr ⟨ts, by simp, hrest⟩

/-- **What the name decoder accepts**: `src` decodes to `mn` exactly when `src`, its raw
`kvSeparatorChar` bytes escaped, is the marshaled form of `mn`. -/
theorem unmarshal_eq_ok_iff {src : Bytes} {mn : MetricName} :
    unmarshal src = .ok mn ↔ mn.marshal [] = escapeKvSeparators src := by
  rw [marshal_eq, nil_append, eq_comm (b := escapeKvSeparators src),
    escapeKvSeparators_eq_marshalTagValue_append]
  unfold unmarshal
  constructor
  · intro h
    split at h
    · cases h
    · next group rest hgroup =>
      split at h
      · cases h
      · next tags htags =>
        obtain ⟨ts, rfl, hts⟩ := unmarshalTags_eq_ok_iff.mp htags
        rw [Except.ok.injEq] at h
        subst h
        exact ⟨rest, hgroup, by simpa using hts⟩
  · rintro ⟨rest, hgroup, hrest⟩
    have htags : unmarshalTags [] rest = .ok mn.tags :=
      unmarshalTags_eq_ok_iff.mpr ⟨mn.tags, by simp, hrest⟩
    simp only [hgroup, htags]

end MetricName

/-! ### The encoding as a key -/

/-- An encoded tag value is a prefix of another only if the values are equal. -/
theorem eq_of_marshalTagValue_prefix {s₁ s₂ t : Bytes}
    (h : marshalTagValue [] s₁ <+: marshalTagValue [] s₂ ++ t) : s₁ = s₂ := by
  obtain ⟨t', h⟩ := h
  have h₁ := unmarshalTagValue_marshalTagValue s₁ t'
  rw [h, unmarshalTagValue_marshalTagValue] at h₁
  simp only [Except.ok.injEq, Prod.mk.injEq] at h₁
  exact h₁.1.symm

/-- A name followed by the `kvSeparatorChar` is a prefix of an index entry only if the entry
is of that name. -/
theorem MetricName.eq_of_marshal_kv_prefix {mn₁ mn₂ : MetricName} {t : Bytes}
    (h : mn₁.marshal [] ++ [kvSeparatorChar] <+: mn₂.marshal [] ++ kvSeparatorChar :: t) :
    mn₁ = mn₂ := by
  obtain ⟨t', h⟩ := h
  rw [append_assoc, singleton_append] at h
  have hcut := append_cons_inj_of_not_mem (kvSeparatorChar_not_mem_marshal mn₁)
    (kvSeparatorChar_not_mem_marshal mn₂) h
  exact marshal_injective hcut.1

/-- **Index encoding of metric names.** Names and tag values round-trip; an encoded tag value
is never a proper prefix of another one, whatever follows it; no encoded string holds the
`kvSeparatorChar`, so the prefix a name is looked up by in the index matches the entries of
that name only; and the decoder accepts exactly the strings that are an encoded name once
their raw `kvSeparatorChar` bytes are escaped. -/
theorem metricName_index_encoding :
    (∀ mn : MetricName, MetricName.unmarshal (mn.marshal []) = .ok mn) ∧
    (∀ s t : Bytes, unmarshalTagValue [] (marshalTagValue [] s ++ t) = .ok (s, t)) ∧
    (∀ s₁ s₂ t : Bytes, marshalTagValue [] s₁ <+: marshalTagValue [] s₂ ++ t → s₁ = s₂) ∧
    (∀ s : Bytes, kvSeparatorChar ∉ marshalTagValue [] s) ∧
    (∀ (mn₁ mn₂ : MetricName) (t : Bytes),
      mn₁.marshal [] ++ [kvSeparatorChar] <+: mn₂.marshal [] ++ kvSeparatorChar :: t →
        mn₁ = mn₂) ∧
    ∀ src : Bytes, (∃ mn, MetricName.unmarshal src = .ok mn) ↔
      ∃ mn : MetricName, mn.marshal [] = escapeKvSeparators src :=
  ⟨MetricName.unmarshal_marshal, unmarshalTagValue_marshalTagValue,
    fun _ _ _ => eq_of_marshalTagValue_prefix, kvSeparatorChar_not_mem_marshalTagValue,
    fun _ _ _ => MetricName.eq_of_marshal_kv_prefix,
    fun _ => exists_congr fun _ => MetricName.unmarshal_eq_ok_iff⟩

/-- A raw `kvSeparatorChar` is accepted although no encoded name holds one. -/
theorem metricName_unmarshal_accepts_raw_kv :
    MetricName.unmarshal [kvSeparatorChar, tagSeparatorChar] = .ok ⟨[kvSeparatorChar], []⟩ ∧
      ¬ ∃ mn : MetricName, mn.marshal [] = [kvSeparatorChar, tagSeparatorChar] := by
  refine ⟨MetricName.unmarshal_eq_ok_iff.mpr (by decide), ?_⟩
  rintro ⟨mn, hmn⟩
  have hnot := mn.kvSeparatorChar_not_mem_marshal
  rw [hmn] at hnot
  simp at hnot

end Esmetrics
