import Esmetrics.Encoding.Int
import Esmetrics.Storage.Index.TagFilters
import Esmetrics.Storage.PartSearch

/-!
# The key of the tag filters cache

Model of `marshal_tag_filters_key` (`esm-storage/src/index/mod.rs`), the key under which
`search_metric_ids` keeps its result: the two dates of the time range and, for each group of
filters, a zero byte and the marshaled filters.

The zero byte is also the first byte of an escape sequence. A group that starts with a filter whose
key starts with one of the digits `0`, `1` and `2` therefore has the same bytes as a filter whose
key starts with the byte 0, 1 or 2 and continues the group before
(`marshalTagFiltersKey_collision`). Queries without either kind of key share their cache key with no
other query (`marshalTagFiltersKey_eq_iff`).
-/

namespace Esmetrics

open List

/-- The constant `MSEC_PER_DAY`. -/
def msecPerDay : UInt64 := 24 * 3600 * 1000

/-- The first and the last date of a time range. -/
def TimeRange.dateRange (tr : TimeRange) : UInt64 × UInt64 :=
  let minDate := tr.minTimestamp.toUInt64 / msecPerDay
  (minDate, max (tr.maxTimestamp.toUInt64 / msecPerDay) minDate)

/-- Appends the marshaled filter to `dst`. -/
def TagFilter.marshal (tf : TagFilter) (dst : Bytes) : Bytes :=
  marshalTagValue (marshalTagValue dst tf.key) tf.value ++
    [tf.isNegative.toUInt8, tf.isRegexp.toUInt8]

/-- Appends the key of the tag filters cache to `dst`. -/
def marshalTagFiltersKey (dst : Bytes) (tfss : List TagFilters) (tr : TimeRange) : Bytes :=
  let (startDate, endDate) := tr.dateRange
  tfss.foldl (fun dst tfs => tfs.tfs.foldl (fun dst tf => tf.marshal dst) (dst ++ [0]))
    (marshalUint64 (marshalUint64 dst startDate) endDate)

/-! ### What a query is -/

/-- The part of a filter that the query has given. -/
structure FilterQuery where
  key : Bytes
  value : Bytes
  isNegative : Bool
  isRegexp : Bool
  deriving DecidableEq

def TagFilter.query (tf : TagFilter) : FilterQuery :=
  ⟨tf.key, tf.value, tf.isNegative, tf.isRegexp⟩

/-- The groups of filters of a query. -/
def filterGroups (tfss : List TagFilters) : List (List FilterQuery) :=
  tfss.map fun tfs => tfs.tfs.map TagFilter.query

/-- A byte that the encoding escapes: 0, 1 or 2. -/
def IsReserved (c : UInt8) : Prop := c ≤ kvSeparatorChar

/-- The second byte of an escape sequence. -/
def IsEscapeDigit (c : UInt8) : Prop := 0x30 ≤ c ∧ c ≤ 0x32

instance : DecidablePred IsReserved := fun c => inferInstanceAs (Decidable (c ≤ kvSeparatorChar))

instance : DecidablePred IsEscapeDigit := fun c =>
  inferInstanceAs (Decidable (0x30 ≤ c ∧ c ≤ 0x32))

/-- No key starts with a byte that is escaped, and no group but the first one starts with a filter
whose key starts with the second byte of an escape sequence. -/
def SeparatorsClear (groups : List (List FilterQuery)) : Prop :=
  (∀ g ∈ groups, ∀ f ∈ g, ∀ c ∈ f.key.head?, ¬ IsReserved c) ∧
    ∀ g ∈ groups.tail, ∀ f ∈ g.head?, ∀ c ∈ f.key.head?, ¬ IsEscapeDigit c

/-! ### The key as a sequence of items -/

/-- What stands in a key after the dates. -/
inductive KeyItem where
  | separator
  | filter (f : FilterQuery)

def FilterQuery.encode (f : FilterQuery) : Bytes :=
  marshalTagValue [] f.key ++
    (marshalTagValue [] f.value ++ [f.isNegative.toUInt8, f.isRegexp.toUInt8])

def KeyItem.encode : KeyItem → Bytes
  | .separator => [0]
  | .filter f => f.encode

/-- The items of the groups. -/
def groupItems (groups : List (List FilterQuery)) : List KeyItem :=
  groups.flatMap fun g => .separator :: g.map .filter

theorem groupItems_cons (g : List FilterQuery) (groups : List (List FilterQuery)) :
    groupItems (g :: groups) = .separator :: (g.map .filter ++ groupItems groups) := rfl

theorem TagFilter.marshal_eq (tf : TagFilter) (dst : Bytes) :
    tf.marshal dst = dst ++ tf.query.encode := by
  simp [TagFilter.marshal, FilterQuery.encode, TagFilter.query, marshalTagValue_eq]

theorem foldl_marshal (tfs : List TagFilter) (dst : Bytes) :
    tfs.foldl (fun dst tf => tf.marshal dst) dst =
      dst ++ (tfs.map fun tf => KeyItem.filter tf.query).flatMap KeyItem.encode := by
  induction tfs generalizing dst with
  | nil => simp
  | cons tf tfs ih =>
    rw [foldl_cons, ih, TagFilter.marshal_eq, append_assoc]
    rfl

/-- The key is the dates and the items of the groups. -/
theorem marshalTagFiltersKey_eq (dst : Bytes) (tfss : List TagFilters) (tr : TimeRange) :
    marshalTagFiltersKey dst tfss tr =
      dst ++ (marshalUint64 [] tr.dateRange.1 ++ (marshalUint64 [] tr.dateRange.2 ++
        (groupItems (filterGroups tfss)).flatMap KeyItem.encode)) := by
  have hgroups : ∀ (tfss : List TagFilters) (dst : Bytes),
      tfss.foldl (fun dst tfs => tfs.tfs.foldl (fun dst tf => tf.marshal dst) (dst ++ [0])) dst =
        dst ++ (groupItems (filterGroups tfss)).flatMap KeyItem.encode := by
    intro tfss
    induction tfss with
    | nil => simp [groupItems, filterGroups]
    | cons tfs tfss ih =>
      intro dst
      rw [foldl_cons, ih, foldl_marshal]
      simp [groupItems, filterGroups, KeyItem.encode, flatMap_map, Function.comp_def]
  have hdates : marshalUint64 (marshalUint64 dst tr.dateRange.1) tr.dateRange.2 =
      dst ++ (marshalUint64 [] tr.dateRange.1 ++ marshalUint64 [] tr.dateRange.2) := by
    simp [marshalUint64]
  calc marshalTagFiltersKey dst tfss tr
      = marshalUint64 (marshalUint64 dst tr.dateRange.1) tr.dateRange.2 ++
          (groupItems (filterGroups tfss)).flatMap KeyItem.encode := hgroups tfss _
    _ = _ := by rw [hdates]; simp only [append_assoc]

/-- Equal keys have equal dates and equal items after them. -/
theorem marshalTagFiltersKey_inj {tfss₁ tfss₂ : List TagFilters} {tr₁ tr₂ : TimeRange} :
    marshalTagFiltersKey [] tfss₁ tr₁ = marshalTagFiltersKey [] tfss₂ tr₂ ↔
      tr₁.dateRange = tr₂.dateRange ∧
        (groupItems (filterGroups tfss₁)).flatMap KeyItem.encode =
          (groupItems (filterGroups tfss₂)).flatMap KeyItem.encode := by
  rw [marshalTagFiltersKey_eq, marshalTagFiltersKey_eq, nil_append, nil_append]
  constructor
  · intro h
    have hstart := congrArg unmarshalUint64 h
    rw [unmarshalUint64_marshalUint64, unmarshalUint64_marshalUint64] at hstart
    have hrest := congrArg (List.drop 8) h
    rw [drop_marshalUint64, drop_marshalUint64] at hrest
    have hend := congrArg unmarshalUint64 hrest
    rw [unmarshalUint64_marshalUint64, unmarshalUint64_marshalUint64] at hend
    have hitems := congrArg (List.drop 8) hrest
    rw [drop_marshalUint64, drop_marshalUint64] at hitems
    exact ⟨Prod.ext hstart hend, hitems⟩
  · rintro ⟨hdates, hitems⟩
    rw [hdates, hitems]

/-! ### Reading the items -/

theorem marshalTagValue_append_inj {a b x y : Bytes}
    (h : marshalTagValue [] a ++ x = marshalTagValue [] b ++ y) : a = b ∧ x = y := by
  have hread := congrArg (unmarshalTagValue []) h
  rw [unmarshalTagValue_marshalTagValue, unmarshalTagValue_marshalTagValue] at hread
  simpa using hread

/-- A filter is read back from its bytes and what follows them. -/
theorem FilterQuery.encode_append_inj {f g : FilterQuery} {x y : Bytes}
    (h : f.encode ++ x = g.encode ++ y) : f = g ∧ x = y := by
  obtain ⟨k₁, v₁, n₁, r₁⟩ := f
  obtain ⟨k₂, v₂, n₂, r₂⟩ := g
  simp only [FilterQuery.encode, append_assoc] at h
  obtain ⟨hk, hvalue⟩ := marshalTagValue_append_inj h
  obtain ⟨hv, hflags⟩ := marshalTagValue_append_inj hvalue
  have hbool : ∀ {a b : Bool}, a.toUInt8 = b.toUInt8 → a = b := by decide
  simp only [cons_append, nil_append, List.cons.injEq] at hflags
  obtain ⟨hn, hr, hxy⟩ := hflags
  exact ⟨by rw [hk, hv, hbool hn, hbool hr], hxy⟩

variable {c : UInt8} {items : List KeyItem}

theorem marshalTagByte_of_isReserved (h : IsReserved c) :
    marshalTagByte c = [escapeChar, 0x30 + c] := by
  obtain rfl | rfl | rfl : c = 0 ∨ c = 1 ∨ c = 2 := by
    have : c.toNat ≤ 2 := UInt8.le_iff_toNat_le.mp h
    have hc : ∀ n, c.toNat = n → c = UInt8.ofNat n := fun n hn => by rw [← hn, UInt8.ofNat_toNat]
    interval_cases hn : c.toNat
    · exact .inl (hc 0 rfl)
    · exact .inr (.inl (hc 1 rfl))
    · exact .inr (.inr (hc 2 rfl))
  all_goals rfl

theorem marshalTagByte_of_not_isReserved (h : ¬ IsReserved c) :
    marshalTagByte c = [c] :=
  marshalTagByte_of_not_reserved (fun h0 => h (h0 ▸ by decide)) (fun h1 => h (h1 ▸ by decide))
    fun h2 => h (h2 ▸ by decide)

theorem encode_cons_of_isReserved (h : IsReserved c) (k v : Bytes) (n r : Bool) :
    FilterQuery.encode ⟨c :: k, v, n, r⟩ = 0 :: (0x30 + c) :: FilterQuery.encode ⟨k, v, n, r⟩ := by
  simp only [FilterQuery.encode, marshalTagValue_eq, escapeTagValue_cons,
    marshalTagByte_of_isReserved h]
  rfl

theorem encode_cons_of_not_isReserved (h : ¬ IsReserved c) (k v : Bytes) (n r : Bool) :
    FilterQuery.encode ⟨c :: k, v, n, r⟩ = c :: FilterQuery.encode ⟨k, v, n, r⟩ := by
  simp only [FilterQuery.encode, marshalTagValue_eq, escapeTagValue_cons,
    marshalTagByte_of_not_isReserved h]
  rfl

/-- When the key starts with no escaped byte, the first byte is not zero, and a digit there is the
first byte of the key. -/
theorem exists_encode_eq_cons {f : FilterQuery} (h : ∀ c ∈ f.key.head?, ¬ IsReserved c) :
    ∃ b bs, f.encode = b :: bs ∧ b ≠ 0 ∧ (IsEscapeDigit b → b ∈ f.key.head?) := by
  obtain ⟨k, v, n, r⟩ := f
  cases k with
  | nil =>
    refine ⟨tagSeparatorChar, _, rfl, by decide, fun hdigit => ?_⟩
    exact absurd hdigit (by decide)
  | cons c k =>
    have hc : ¬ IsReserved c := h c rfl
    refine ⟨c, _, encode_cons_of_not_isReserved hc k v n r, ?_, fun _ => rfl⟩
    rintro rfl
    exact hc (by decide)

theorem isEscapeDigit_of_isReserved (h : IsReserved c) : IsEscapeDigit (0x30 + c) := by
  have h1 : c.toNat ≤ 2 := UInt8.le_iff_toNat_le.mp h
  have h2 : (0x30 : UInt8).toNat = 48 := rfl
  have h3 : (0x32 : UInt8).toNat = 50 := rfl
  constructor <;> rw [UInt8.le_iff_toNat_le, UInt8.toNat_add] <;> omega

theorem exists_isReserved_of_isEscapeDigit {d : UInt8} (h : IsEscapeDigit d) :
    ∃ c, IsReserved c ∧ 0x30 + c = d := by
  have h1 : 48 ≤ d.toNat := UInt8.le_iff_toNat_le.mp h.1
  have h2 : d.toNat ≤ 50 := UInt8.le_iff_toNat_le.mp h.2
  have hsub : (d - 0x30).toNat = d.toNat - 48 := UInt8.toNat_sub_of_le _ _ h.1
  refine ⟨d - 0x30, UInt8.le_iff_toNat_le.mpr ?_, by rw [UInt8.add_comm, UInt8.sub_add_cancel]⟩
  rw [hsub]
  exact Nat.sub_le_sub_right h2 48

/-- Items that can be read in one way only. -/
def Readable : List KeyItem → Prop
  | [] => True
  | .separator :: items =>
    (∀ f, items.head? = some (.filter f) → ∀ c ∈ f.key.head?, ¬ IsEscapeDigit c) ∧ Readable items
  | .filter f :: items => (∀ c ∈ f.key.head?, ¬ IsReserved c) ∧ Readable items

/-- After a separator that can be read in one way only, no escape sequence is continued. -/
theorem Readable.flatMap_encode_ne (h : Readable (.separator :: items)) {d : UInt8}
    (hd : IsEscapeDigit d) (bs : Bytes) :
    items.flatMap KeyItem.encode ≠ d :: bs := by
  obtain ⟨hhead, hitems⟩ := h
  cases items with
  | nil => exact cons_ne_nil _ _ ∘ Eq.symm
  | cons item items =>
    cases item with
    | separator =>
      rintro heq
      obtain ⟨rfl, -⟩ := List.cons.inj heq
      exact absurd hd (by decide)
    | filter f =>
      obtain ⟨b, bs', hb, -, hkey⟩ := exists_encode_eq_cons hitems.1
      rw [flatMap_cons, KeyItem.encode, hb]
      rintro heq
      obtain ⟨rfl, -⟩ := List.cons.inj heq
      exact hhead f rfl b (hkey hd) hd

/-- The bytes of such items are the bytes of no other ones. -/
theorem Readable.flatMap_encode_inj {s t : List KeyItem} (hs : Readable s)
    (h : s.flatMap KeyItem.encode = t.flatMap KeyItem.encode) : s = t := by
  induction s generalizing t with
  | nil =>
    cases t with
    | nil => rfl
    | cons item t =>
      cases item with
      | separator => simp [KeyItem.encode] at h
      | filter g => simp [KeyItem.encode, FilterQuery.encode] at h
  | cons item s ih =>
    cases item with
    | separator =>
      cases t with
      | nil => simp [KeyItem.encode] at h
      | cons item t =>
        cases item with
        | separator => rw [ih hs.2 (List.cons.inj h).2]
        | filter g =>
          -- The zero byte of the separator would be the first byte of an escaped key.
          exfalso
          rw [flatMap_cons, flatMap_cons, KeyItem.encode, KeyItem.encode] at h
          by_cases hg : ∀ c ∈ g.key.head?, ¬ IsReserved c
          · obtain ⟨b, bs, hb, hne, -⟩ := exists_encode_eq_cons hg
            rw [hb] at h
            exact hne (List.cons.inj h).1.symm
          · push Not at hg
            obtain ⟨c, hc, hres⟩ := hg
            obtain ⟨k, v, n, r⟩ := g
            obtain ⟨k, rfl⟩ : ∃ k', k = c :: k' := ⟨k.tail, (cons_head?_tail hc).symm⟩
            rw [encode_cons_of_isReserved hres] at h
            exact hs.flatMap_encode_ne (isEscapeDigit_of_isReserved hres) _ (List.cons.inj h).2
    | filter f =>
      cases t with
      | nil => simp [KeyItem.encode, FilterQuery.encode] at h
      | cons item t =>
        cases item with
        | separator =>
          exfalso
          obtain ⟨b, bs, hb, hne, -⟩ := exists_encode_eq_cons hs.1
          rw [flatMap_cons, KeyItem.encode, hb] at h
          exact hne (List.cons.inj h).1
        | filter g =>
          obtain ⟨rfl, htail⟩ := FilterQuery.encode_append_inj h
          rw [ih hs.2 htail]

/-! ### Groups and their items -/

theorem readable_append {g : List FilterQuery} (hg : ∀ f ∈ g, ∀ c ∈ f.key.head?, ¬ IsReserved c)
    (hitems : Readable items) :
    Readable (g.map .filter ++ items) := by
  induction g with
  | nil => exact hitems
  | cons f g ih =>
    exact ⟨hg f mem_cons_self, ih fun f hf => hg f (mem_cons_of_mem _ hf)⟩

theorem readable_groupItems {groups : List (List FilterQuery)}
    (hres : ∀ g ∈ groups, ∀ f ∈ g, ∀ c ∈ f.key.head?, ¬ IsReserved c)
    (hdigit : ∀ g ∈ groups, ∀ f ∈ g.head?, ∀ c ∈ f.key.head?, ¬ IsEscapeDigit c) :
    Readable (groupItems groups) := by
  induction groups with
  | nil => trivial
  | cons g groups ih =>
    have htail := ih (fun g hg => hres g (mem_cons_of_mem _ hg))
      fun g hg => hdigit g (mem_cons_of_mem _ hg)
    refine ⟨fun f hf => hdigit g mem_cons_self f ?_,
      readable_append (hres g mem_cons_self) htail⟩
    cases g with
    | nil =>
      -- The next item is a separator or there is none.
      cases groups with
      | nil => cases hf
      | cons g' groups => cases hf
    | cons f' g =>
      obtain rfl : f' = f := by simpa using hf
      rfl

/-- The filters before the first separator and the groups after it. -/
def splitItems : List KeyItem → List FilterQuery × List (List FilterQuery)
  | [] => ([], [])
  | .separator :: items => ([], (splitItems items).1 :: (splitItems items).2)
  | .filter f :: items => (f :: (splitItems items).1, (splitItems items).2)

theorem splitItems_append (g : List FilterQuery) :
    splitItems (g.map .filter ++ items) = (g ++ (splitItems items).1, (splitItems items).2) := by
  induction g with
  | nil => rfl
  | cons f g ih =>
    rw [map_cons, cons_append, splitItems, ih]
    rfl

theorem splitItems_groupItems (groups : List (List FilterQuery)) :
    splitItems (groupItems groups) = ([], groups) := by
  induction groups with
  | nil => rfl
  | cons g groups ih =>
    have hitems : splitItems (g.map .filter ++ groupItems groups) = (g, groups) := by
      rw [splitItems_append, ih, append_nil]
    calc splitItems (groupItems (g :: groups))
        = ([], (splitItems (g.map .filter ++ groupItems groups)).1 ::
            (splitItems (g.map .filter ++ groupItems groups)).2) := rfl
      _ = ([], g :: groups) := by rw [hitems]

/-- The bytes of the groups determine them when the separators are clear. -/
theorem SeparatorsClear.flatMap_encode_inj {groups₁ groups₂ : List (List FilterQuery)}
    (h : SeparatorsClear groups₁)
    (henc : (groupItems groups₁).flatMap KeyItem.encode =
      (groupItems groups₂).flatMap KeyItem.encode) : groups₁ = groups₂ := by
  have hitems : groupItems groups₁ = groupItems groups₂ := by
    obtain ⟨hres, hdigit⟩ := h
    cases groups₁ with
    | nil => exact Readable.flatMap_encode_inj trivial henc
    | cons g₁ groups₁ =>
      cases groups₂ with
      | nil => simp [groupItems, KeyItem.encode] at henc
      | cons g₂ groups₂ =>
        -- Both start with a separator, and only what follows it has to be read.
        have htail : Readable (g₁.map .filter ++ groupItems groups₁) :=
          readable_append (hres g₁ mem_cons_self)
            (readable_groupItems (fun g hg => hres g (mem_cons_of_mem _ hg)) hdigit)
        rw [groupItems_cons, groupItems_cons, flatMap_cons, flatMap_cons] at henc
        have heq := htail.flatMap_encode_inj (append_cancel_left henc)
        rw [groupItems_cons, groupItems_cons, heq]
  have hsplit := congrArg splitItems hitems
  rw [splitItems_groupItems, splitItems_groupItems] at hsplit
  exact (Prod.mk.inj hsplit).2

/-! ### Groups with the same bytes -/

theorem not_isReserved_of_isEscapeDigit (h : IsEscapeDigit c) : ¬ IsReserved c := by
  intro hres
  have h1 : 48 ≤ c.toNat := UInt8.le_iff_toNat_le.mp h.1
  have h2 : c.toNat ≤ 2 := UInt8.le_iff_toNat_le.mp hres
  omega

/-- A filter whose key starts with an escaped byte reads as the start of a new group. -/
theorem flatMap_encode_split (h : IsReserved c) (k v : Bytes) (n r : Bool)
    (before after : List (List FilterQuery)) (g₁ g₂ : List FilterQuery) :
    (groupItems (before ++ (g₁ ++ ⟨c :: k, v, n, r⟩ :: g₂) :: after)).flatMap KeyItem.encode =
      (groupItems (before ++ g₁ :: (⟨(0x30 + c) :: k, v, n, r⟩ :: g₂) :: after)).flatMap
        KeyItem.encode := by
  have hdigit := not_isReserved_of_isEscapeDigit (isEscapeDigit_of_isReserved h)
  simp [groupItems, KeyItem.encode, encode_cons_of_isReserved h,
    encode_cons_of_not_isReserved hdigit]

theorem exists_filterGroups (groups : List (List FilterQuery)) :
    ∃ tfss, filterGroups tfss = groups := by
  let toFilter (f : FilterQuery) : TagFilter :=
    { key := f.key, value := f.value, isNegative := f.isNegative, isRegexp := f.isRegexp
      matchCost := 0, regexpPrefix := [], tfPrefix := [], orSuffixes := [], reSuffixMatch := none
      isEmptyMatch := false }
  refine ⟨groups.map fun g => ⟨g.map toFilter, []⟩, ?_⟩
  have hquery : ∀ f, (toFilter f).query = f := fun f => rfl
  simp [filterGroups, Function.comp_def, map_map, hquery]

/-- A query shares its key with no other query if and only if its separators are clear. -/
theorem marshalTagFiltersKey_eq_iff (tfss₁ : List TagFilters) (tr₁ : TimeRange) :
    (∀ tfss₂ tr₂, marshalTagFiltersKey [] tfss₁ tr₁ = marshalTagFiltersKey [] tfss₂ tr₂ →
        tr₁.dateRange = tr₂.dateRange ∧ filterGroups tfss₁ = filterGroups tfss₂) ↔
      SeparatorsClear (filterGroups tfss₁) := by
  constructor
  · intro h
    -- No other groups have the same bytes.
    have hunique : ∀ groups, (groupItems (filterGroups tfss₁)).flatMap KeyItem.encode =
        (groupItems groups).flatMap KeyItem.encode → filterGroups tfss₁ = groups := by
      intro groups henc
      obtain ⟨tfss₂, rfl⟩ := exists_filterGroups groups
      exact (h tfss₂ tr₁ (marshalTagFiltersKey_inj.mpr ⟨rfl, henc⟩)).2
    generalize filterGroups tfss₁ = groups at hunique
    refine ⟨fun g hg f hf c hc hres => ?_, fun g hg f hf d hd hdigit => ?_⟩
    · obtain ⟨before, after, rfl⟩ := append_of_mem hg
      obtain ⟨g₁, g₂, rfl⟩ := append_of_mem hf
      obtain ⟨k, v, n, r⟩ := f
      obtain ⟨k, rfl⟩ : ∃ k', k = c :: k' := ⟨k.tail, (cons_head?_tail hc).symm⟩
      have heq := hunique _ (flatMap_encode_split hres k v n r before after g₁ g₂)
      simpa using congrArg List.length heq
    · obtain ⟨before, after, htail⟩ := append_of_mem hg
      obtain ⟨g₂, rfl⟩ : ∃ g₂, g = f :: g₂ := ⟨g.tail, (cons_head?_tail hf).symm⟩
      obtain ⟨k, v, n, r⟩ := f
      obtain ⟨k, rfl⟩ : ∃ k', k = d :: k' := ⟨k.tail, (cons_head?_tail hd).symm⟩
      obtain ⟨c, hres, rfl⟩ := exists_isReserved_of_isEscapeDigit hdigit
      cases groups with
      | nil => simp at htail
      | cons g₀ groups =>
        obtain rfl : groups = _ := htail
        -- The group that comes before.
        obtain ⟨before', g₁, hbefore⟩ : ∃ before' g₁, g₀ :: before = before' ++ [g₁] :=
          ⟨_, _, (dropLast_append_getLast (cons_ne_nil g₀ before)).symm⟩
        have hgroups : g₀ :: (before ++ (⟨(0x30 + c) :: k, v, n, r⟩ :: g₂) :: after) =
            before' ++ g₁ :: (⟨(0x30 + c) :: k, v, n, r⟩ :: g₂) :: after := by
          rw [← cons_append, hbefore, append_assoc]
          rfl
        rw [hgroups] at hunique
        have heq := hunique _ (flatMap_encode_split hres k v n r before' after g₁ g₂).symm
        simpa using congrArg List.length heq
  · intro hclear tfss₂ tr₂ hkey
    obtain ⟨hdates, henc⟩ := marshalTagFiltersKey_inj.mp hkey
    exact ⟨hdates, hclear.flatMap_encode_inj henc⟩

/-! ### A collision -/

/-- The filter that `init` builds for `key="value"`. -/
def TagFilter.equal (commonPrefix key value : Bytes) : TagFilter :=
  { key := key, value := value, isNegative := false, isRegexp := false
    matchCost := fullMatchCost, regexpPrefix := []
    tfPrefix := marshalTagValueNoTrailingTagSeparator (marshalTagValue commonPrefix key) value
    orSuffixes := [[]], reSuffixMatch := none, isEmptyMatch := value.isEmpty }

/-- The query `{a="b", "\x00x"="y"}` has the key of `{a="b" or 0x="y"}`. -/
theorem marshalTagFiltersKey_collision :
    let p := [nsPrefixTagToMetricIds]
    let tfss₁ : List TagFilters :=
      [⟨[.equal p (ascii "a") (ascii "b"), .equal p (0 :: ascii "x") (ascii "y")], p⟩]
    let tfss₂ : List TagFilters :=
      [⟨[.equal p (ascii "a") (ascii "b")], p⟩, ⟨[.equal p (ascii "0x") (ascii "y")], p⟩]
    (∀ tr, marshalTagFiltersKey [] tfss₁ tr = marshalTagFiltersKey [] tfss₂ tr) ∧
      filterGroups tfss₁ ≠ filterGroups tfss₂ := by
  refine ⟨fun tr => marshalTagFiltersKey_inj.mpr ⟨rfl, ?_⟩, fun h => ?_⟩
  · exact flatMap_encode_split (by decide) _ _ _ _ [] [] [_] []
  · exact absurd (congrArg List.length h) (by decide)

end Esmetrics
