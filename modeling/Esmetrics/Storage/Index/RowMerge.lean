import Esmetrics.Encoding.Int
import Esmetrics.Lib.Outcome
import Esmetrics.Lib.StableSort
import Esmetrics.Mergeset.InmemoryBlock
import Esmetrics.Storage.Index.TagFilters

/-!
# Merging the rows of postings in a block of the index

Model of `esm-storage/src/index/row_merge.rs`. A row maps a tag, or a date and a tag, to metric ids.
When a block of index items is written, its rows with the same date and tag are merged: their metric
ids are held back until a row with another prefix, a full row or an item of another namespace
follows, or until there are enough of them for a row. If the items are not sorted then, which
duplicate ids lead to, they stay as they were.

The loop is related to the items it has read by `MergedRows.Merges`, which counts the metric ids
that are held back as one more row. So no posting is lost or made up (`mergeTagToMetricIdsRows_ok`).
-/

namespace Esmetrics

open List

/-! ### Rows -/

/-- The namespace of rows that map a date and a tag to metric ids. -/
def nsPrefixDateTagToMetricIds : UInt8 := 6

/-- A row with so many metric ids is full. -/
def maxMetricIdsPerRow : ℕ := 64

def marshalCommonPrefix (dst : Bytes) (nsPrefix : UInt8) : Bytes := dst ++ [nsPrefix]

def unmarshalCommonPrefix (src : Bytes) : Except String (Bytes × UInt8) :=
  match src with
  | nsPrefix :: src => .ok (src, nsPrefix)
  | [] => .error "cannot unmarshal common prefix from 0 bytes; need at least 1 bytes"

/-- A row that is read, first its prefix and then its metric ids. -/
structure TagToMetricIDsRowParser where
  nsPrefix : UInt8
  date : UInt64
  metricIds : List UInt64
  metricIdsParsed : Bool
  tag : Tag
  /-- The metric ids as they stand in the row. -/
  tail : Bytes
deriving DecidableEq, Repr

namespace TagToMetricIDsRowParser

instance : Inhabited TagToMetricIDsRowParser := ⟨⟨0, 0, [], false, ⟨[], []⟩, []⟩⟩

def initOnlyTail (mp : TagToMetricIDsRowParser) (tail : Bytes) :
    Except String TagToMetricIDsRowParser :=
  let len := tail.length
  if tail = [] then .error "missing metricID in the tag->metricIDs row"
  else if len % 8 ≠ 0 then
    .error (s!"invalid tail length in the tag->metricIDs row; got {len} bytes; " ++
      "must be multiple of 8 bytes")
  else .ok { mp with tail, metricIdsParsed := false }

/-- Reads the tag and the metric ids of a row, behind its date. -/
def initTag (mp : TagToMetricIDsRowParser) (b tail : Bytes) :
    Except String TagToMetricIDsRowParser :=
  match Tag.unmarshal tail with
  | .error err => .error s!"cannot unmarshal tag from tag->metricIDs row {b}: {err}"
  | .ok (tag, tail) => { mp with tag }.initOnlyTail tail

/-- Reads a row of a namespace. -/
def init (mp : TagToMetricIDsRowParser) (b : Bytes) (nsPrefixExpected : UInt8) :
    Except String TagToMetricIDsRowParser :=
  match unmarshalCommonPrefix b with
  | .error err => .error s!"invalid tag->metricIDs row {b}: {err}"
  | .ok (tail, nsPrefix) =>
    let len := tail.length
    if nsPrefix ≠ nsPrefixExpected then
      .error s!"invalid prefix for tag->metricIDs row {b}; got {nsPrefix}; want {nsPrefixExpected}"
    else if nsPrefix = nsPrefixDateTagToMetricIds then
      if len < 8 then
        .error (s!"cannot unmarshal date from (date, tag)->metricIDs row {b} from {len} bytes; " ++
          "want at least 8 bytes")
      else { mp with date := unmarshalUint64 tail, nsPrefix }.initTag b (tail.drop 8)
    else { mp with nsPrefix }.initTag b tail

/-- The row without its metric ids. -/
def marshalPrefix (mp : TagToMetricIDsRowParser) (dst : Bytes) : Bytes :=
  let dst := marshalCommonPrefix dst mp.nsPrefix
  let dst := if mp.nsPrefix = nsPrefixDateTagToMetricIds then marshalUint64 dst mp.date else dst
  mp.tag.marshal dst

def equalPrefix (mp x : TagToMetricIDsRowParser) : Bool :=
  mp.tag = x.tag && mp.date = x.date && mp.nsPrefix = x.nsPrefix

def metricIdsLen (mp : TagToMetricIDsRowParser) : ℕ := mp.tail.length / 8

/-- Reads metric ids while there are eight bytes. -/
def readMetricIds (tail : Bytes) : List UInt64 :=
  if 8 ≤ tail.length then unmarshalUint64 tail :: readMetricIds (tail.drop 8) else []
termination_by tail.length

def parseMetricIds (mp : TagToMetricIDsRowParser) : TagToMetricIDsRowParser :=
  if mp.metricIdsParsed then mp
  else { mp with metricIds := readMetricIds mp.tail, metricIdsParsed := true }

end TagToMetricIDsRowParser

/-! ### Merging -/

/-- Every item is at least the one before it. -/
def checkItemsSorted (items : List Bytes) : Bool := Mergeset.InmemoryBlock.itemsSorted items

/-- Keeps one of neighbouring equal ids. -/
def removeDuplicateMetricIds (sortedMetricIds : List UInt64) : List UInt64 :=
  if sortedMetricIds.length < 2 then sortedMetricIds else lastOfRuns id sortedMetricIds

/-- The state of the loop over the items. -/
structure MergedRows where
  mp : TagToMetricIDsRowParser
  mpPrev : TagToMetricIDsRowParser
  /-- The metric ids that are held back, for the prefix of `mpPrev`. -/
  pendingMetricIds : List UInt64
  dstItems : List Bytes
deriving DecidableEq, Repr

namespace MergedRows

instance : Inhabited MergedRows := ⟨⟨default, default, [], []⟩⟩

/-- Writes the metric ids that are held back as a row. -/
def flushPending (s : MergedRows) : MergedRows :=
  if s.pendingMetricIds = [] then s
  else
    let pending := removeDuplicateMetricIds (sortByKey id s.pendingMetricIds)
    { s with
      pendingMetricIds := []
      dstItems := s.dstItems ++ [pending.foldl marshalUint64 (s.mpPrev.marshalPrefix [])] }

/-- Writes an item as it is. -/
def pushItem (s : MergedRows) (item : Bytes) : MergedRows :=
  { s with dstItems := s.dstItems ++ [item] }

/-- Holds back the metric ids of the row in `mp`. -/
def addPending (s : MergedRows) : MergedRows :=
  let s := if s.mp.equalPrefix s.mpPrev then s else s.flushPending
  let mp := s.mp.parseMetricIds
  { s with mp := s.mpPrev, mpPrev := mp, pendingMetricIds := s.pendingMetricIds ++ mp.metricIds }

/-- One item; the first and the last one of the block are at its edge. -/
def mergeItem (nsPrefix : UInt8) (edge : Bool) (s : MergedRows) (item : Bytes) :
    Outcome MergedRows :=
  if item.head? ≠ some nsPrefix ∨ edge then
    -- The items at the edge keep the block in its place between the others.
    .ok (s.flushPending.pushItem item)
  else
    match s.mp.init item nsPrefix with
    | .error err =>
      .panic s!"FATAL: cannot parse row starting with nsPrefix {nsPrefix} during merge: {err}"
    | .ok mp =>
      let s := { s with mp }
      if mp.metricIdsLen ≥ maxMetricIdsPerRow then .ok (s.flushPending.pushItem item)
      else
        let s := s.addPending
        if s.pendingMetricIds.length ≥ maxMetricIdsPerRow then .ok s.flushPending else .ok s

/-- The items from index `i` on. -/
def mergeItems (nsPrefix : UInt8) (itemsLen : ℕ) :
    ℕ → List Bytes → MergedRows → Outcome MergedRows
  | _, [], s => .ok s
  | i, item :: items, s => do
    let s ← mergeItem nsPrefix (i == 0 || i == itemsLen - 1) s item
    mergeItems nsPrefix itemsLen (i + 1) items s

end MergedRows

/-- Merges the rows of a namespace. -/
def mergeTagToMetricIdsRowsInternal (items : List Bytes) (nsPrefix : UInt8) :
    Outcome (List Bytes) := do
  if items.length ≤ 2 then .ok items
  else
    let firstItem ← Outcome.index items.head?
    let lastItem ← Outcome.index items.getLast?
    if firstItem.head?.any (· > nsPrefix) then .ok items
    else if lastItem.head?.any (· < nsPrefix) then .ok items
    else
      let s ← MergedRows.mergeItems nsPrefix items.length 0 items default
      let pending := s.pendingMetricIds.length
      Outcome.assert (s.pendingMetricIds = [])
        s!"BUG: pending_metric_ids must be empty at this point; got {pending} items"
      if checkItemsSorted s.dstItems then .ok s.dstItems
      else
        -- Duplicate metric ids may have put the rows out of order.
        Outcome.assert (checkItemsSorted items) "BUG: the original items weren't sorted"
        .ok items

/-- Merges the rows of both namespaces. -/
def mergeTagToMetricIdsRows (items : List Bytes) : Outcome (List Bytes) := do
  let items ← mergeTagToMetricIdsRowsInternal items nsPrefixTagToMetricIds
  mergeTagToMetricIdsRowsInternal items nsPrefixDateTagToMetricIds

/-! ### Well-formed rows -/

/-- A row of postings. -/
structure MetricIdsRow where
  date : UInt64
  tag : Tag
  metricIds : List UInt64

/-- The metric ids of a row as they stand in it. -/
def marshalMetricIds (metricIds : List UInt64) : Bytes := metricIds.flatMap (marshalUint64 [])

namespace MetricIdsRow

/-- The row in a namespace; it has its date in one of them only. -/
def marshal (nsPrefix : UInt8) (row : MetricIdsRow) : Bytes :=
  nsPrefix :: ((if nsPrefix = nsPrefixDateTagToMetricIds then marshalUint64 [] row.date else []) ++
    (row.tag.marshal [] ++ marshalMetricIds row.metricIds))

/-- A row of a namespace: it has metric ids, and a date only where it is written. -/
structure WF (nsPrefix : UInt8) (row : MetricIdsRow) : Prop where
  metricIds_ne : row.metricIds ≠ []
  date_eq : nsPrefix ≠ nsPrefixDateTagToMetricIds → row.date = 0

end MetricIdsRow

/-- An item is well formed for a namespace if it is a row of it or an item of another one. -/
def WellFormed (nsPrefix : UInt8) (item : Bytes) : Prop :=
  item.head? = some nsPrefix → ∃ row : MetricIdsRow, row.WF nsPrefix ∧ item = row.marshal nsPrefix

theorem length_marshalUint64 (u : UInt64) : (marshalUint64 [] u).length = 8 := by
  rw [marshalUint64, nil_append, length_beBytes]

theorem length_marshalMetricIds (metricIds : List UInt64) :
    (marshalMetricIds metricIds).length = 8 * metricIds.length := by
  induction metricIds with
  | nil => rfl
  | cons id metricIds ih =>
    rw [marshalMetricIds, flatMap_cons, length_append, length_marshalUint64, length_cons,
      ← marshalMetricIds, ih]
    omega

theorem foldl_marshalUint64 (metricIds : List UInt64) (dst : Bytes) :
    metricIds.foldl marshalUint64 dst = dst ++ marshalMetricIds metricIds := by
  induction metricIds generalizing dst with
  | nil => simp [marshalMetricIds]
  | cons id metricIds ih =>
    rw [foldl_cons, ih, marshalUint64, append_assoc]
    rfl

namespace TagToMetricIDsRowParser

theorem readMetricIds_marshalMetricIds (metricIds : List UInt64) :
    readMetricIds (marshalMetricIds metricIds) = metricIds := by
  induction metricIds with
  | nil =>
    rw [readMetricIds]
    rfl
  | cons id metricIds ih =>
    have hcons : marshalMetricIds (id :: metricIds) = marshalUint64 [] id ++
        marshalMetricIds metricIds :=
      rfl
    rw [readMetricIds, hcons, if_pos (by simp [length_marshalUint64]),
      unmarshalUint64_marshalUint64, ← length_marshalUint64 id, drop_left, ih]

/-- The parser has read a row. -/
structure Read (nsPrefix : UInt8) (row : MetricIdsRow) (mp : TagToMetricIDsRowParser) : Prop where
  nsPrefix_eq : mp.nsPrefix = nsPrefix
  date_eq : mp.date = row.date
  tag_eq : mp.tag = row.tag
  tail_eq : mp.tail = marshalMetricIds row.metricIds
  notParsed : mp.metricIdsParsed = false

theorem initTag_marshal (mp : TagToMetricIDsRowParser) (b : Bytes) {row : MetricIdsRow}
    (hne : row.metricIds ≠ []) :
    mp.initTag b (row.tag.marshal [] ++ marshalMetricIds row.metricIds) =
      .ok { mp with tag := row.tag, tail := marshalMetricIds row.metricIds, metricIdsParsed :=
        false } := by
  have hlen := length_marshalMetricIds row.metricIds
  have hpos := length_pos_iff.mpr hne
  have htail : marshalMetricIds row.metricIds ≠ [] := by
    rw [← length_pos_iff]
    omega
  rw [initTag, Tag.unmarshal_marshal]
  simp only [initOnlyTail, if_neg htail]
  rw [if_neg (by omega)]

/-- A row is read. -/
theorem exists_init (mp : TagToMetricIDsRowParser) {nsPrefix : UInt8} {row : MetricIdsRow}
    (h : row.WF nsPrefix) (hdate : nsPrefix ≠ nsPrefixDateTagToMetricIds → mp.date = 0) :
    ∃ mp', mp.init (row.marshal nsPrefix) nsPrefix = .ok mp' ∧ mp'.Read nsPrefix row := by
  rw [init, MetricIdsRow.marshal]
  dsimp only [unmarshalCommonPrefix]
  rw [if_neg (not_not_intro rfl)]
  split_ifs with hns hlen
  · rw [length_append, length_marshalUint64] at hlen
    omega
  · rw [unmarshalUint64_marshalUint64, ← length_marshalUint64 row.date, drop_left,
      initTag_marshal _ _ h.metricIds_ne]
    exact ⟨_, rfl, rfl, rfl, rfl, rfl, rfl⟩
  · rw [nil_append, initTag_marshal _ _ h.metricIds_ne]
    exact ⟨_, rfl, rfl, (hdate hns).trans (h.date_eq hns).symm, rfl, rfl, rfl⟩

/-- The prefix and the metric ids that were read make up the row. -/
theorem marshal_eq {nsPrefix : UInt8} {mp : TagToMetricIDsRowParser} (hns : mp.nsPrefix = nsPrefix)
    (metricIds : List UInt64) :
    metricIds.foldl marshalUint64 (mp.marshalPrefix []) =
      (MetricIdsRow.mk mp.date mp.tag metricIds).marshal nsPrefix := by
  rw [foldl_marshalUint64, marshalPrefix, Tag.marshal_eq, MetricIdsRow.marshal, ← hns]
  split_ifs <;> simp [marshalCommonPrefix, marshalUint64]

end TagToMetricIDsRowParser

/-! ### Postings -/

/-- A metric id that the index has for a tag, or for a date and a tag. -/
structure Posting where
  nsPrefix : UInt8
  date : UInt64
  tag : Tag
  metricId : UInt64

/-- The postings of an item as a row of a namespace. -/
def itemPostings (nsPrefix : UInt8) (item : Bytes) : Set Posting :=
  {p | p.nsPrefix = nsPrefix ∧ item.head? = some nsPrefix ∧
    ∃ mp, (default : TagToMetricIDsRowParser).init item nsPrefix = .ok mp ∧
      p.date = mp.date ∧ p.tag = mp.tag ∧ p.metricId ∈ mp.parseMetricIds.metricIds}

/-- The postings of items in a namespace. -/
def nsPostings (nsPrefix : UInt8) (items : List Bytes) : Set Posting :=
  {p | ∃ item ∈ items, p ∈ itemPostings nsPrefix item}

theorem nsPostings_append (nsPrefix : UInt8) (items items' : List Bytes) :
    nsPostings nsPrefix (items ++ items') = nsPostings nsPrefix items ∪
    nsPostings nsPrefix items' := by
  ext p
  simp [nsPostings, or_and_right, exists_or]

@[simp]
theorem nsPostings_nil (nsPrefix : UInt8) : nsPostings nsPrefix [] = ∅ := by
  simp [nsPostings]

@[simp]
theorem nsPostings_singleton (nsPrefix : UInt8) (item : Bytes) :
    nsPostings nsPrefix [item] = itemPostings nsPrefix item := by
  simp [nsPostings]

variable {items : List Bytes}

/-- Items of other namespaces have no postings. -/
theorem nsPostings_filter (nsPrefix : UInt8) {keep : Bytes → Bool}
    (h : ∀ item ∈ items, item.head? = some nsPrefix → keep item) :
    nsPostings nsPrefix (items.filter keep) = nsPostings nsPrefix items := by
  ext p
  simp only [nsPostings, mem_filter, Set.mem_ofPred_eq]
  constructor
  · rintro ⟨item, ⟨hitem, -⟩, hp⟩
    exact ⟨item, hitem, hp⟩
  · rintro ⟨item, hitem, hp⟩
    exact ⟨item, ⟨hitem, h item hitem hp.2.1⟩, hp⟩

theorem TagToMetricIDsRowParser.Read.parseMetricIds {nsPrefix : UInt8} {row : MetricIdsRow}
    {mp : TagToMetricIDsRowParser} (h : mp.Read nsPrefix row) :
    mp.parseMetricIds = { mp with metricIds := row.metricIds, metricIdsParsed := true } := by
  rw [TagToMetricIDsRowParser.parseMetricIds, h.notParsed, h.tail_eq,
    readMetricIds_marshalMetricIds]
  rfl

theorem mem_itemPostings_marshal {nsPrefix : UInt8} {row : MetricIdsRow} (h : row.WF nsPrefix)
    {p : Posting} : p ∈ itemPostings nsPrefix (row.marshal nsPrefix) ↔
      p.nsPrefix = nsPrefix ∧ p.date = row.date ∧ p.tag = row.tag ∧ p.metricId ∈ row.metricIds := by
  obtain ⟨mp, hmp, hread⟩ := (default : TagToMetricIDsRowParser).exists_init h fun _ => rfl
  have hids : mp.parseMetricIds.metricIds = row.metricIds := by rw [hread.parseMetricIds]
  constructor
  · rintro ⟨hns, -, mp', hmp', hdate, htag, hid⟩
    obtain rfl := Except.ok.inj (hmp.symm.trans hmp')
    exact ⟨hns, hdate.trans hread.date_eq, htag.trans hread.tag_eq, hids ▸ hid⟩
  · rintro ⟨hns, hdate, htag, hid⟩
    exact ⟨hns, rfl, mp, hmp, hdate.trans hread.date_eq.symm, htag.trans hread.tag_eq.symm,
      hids.symm ▸ hid⟩

/-- The size of the data of items. -/
def itemsSize (items : List Bytes) : ℕ := (items.map List.length).sum

theorem itemsSize_append (items items' : List Bytes) :
    itemsSize (items ++ items') = itemsSize items + itemsSize items' := by
  simp [itemsSize]

theorem MetricIdsRow.length_marshal (nsPrefix : UInt8) (row : MetricIdsRow) :
    (row.marshal nsPrefix).length =
      (MetricIdsRow.marshal nsPrefix ⟨row.date, row.tag, []⟩).length + 8 *
      row.metricIds.length := by
  simp only [MetricIdsRow.marshal, length_cons, length_append, length_marshalMetricIds]
  simp only [length_nil]
  omega

/-! ### The loop -/

theorem mem_removeDuplicateMetricIds {ids : List UInt64} {metricId : UInt64} :
    metricId ∈ removeDuplicateMetricIds ids ↔ metricId ∈ ids := by
  rw [removeDuplicateMetricIds]
  split_ifs
  · rfl
  · refine ⟨fun h => (lastOfRuns_sublist _ _).subset h, fun h => ?_⟩
    obtain ⟨metricId', hmem, heq⟩ := exists_mem_lastOfRuns id h
    obtain rfl : metricId' = metricId := heq
    exact hmem

theorem length_removeDuplicateMetricIds_le (ids : List UInt64) :
    (removeDuplicateMetricIds ids).length ≤ ids.length := by
  rw [removeDuplicateMetricIds]
  split_ifs
  · exact le_rfl
  · exact (lastOfRuns_sublist _ _).length_le

namespace MergedRows

/-- The items that are not rows of a namespace. -/
def isOther (nsPrefix : UInt8) (item : Bytes) : Bool := item.head? != some nsPrefix

/-- The metric ids that are held back, as a row. -/
def pendingRow (s : MergedRows) : MetricIdsRow := ⟨s.mpPrev.date, s.mpPrev.tag, s.pendingMetricIds⟩

def pendingItems (nsPrefix : UInt8) (s : MergedRows) : List Bytes :=
  if s.pendingMetricIds = [] then [] else [s.pendingRow.marshal nsPrefix]

/-- The loop has merged the items `done`, when the metric ids that are held back are counted as one
more row. -/
structure Merges (nsPrefix : UInt8) (done : List Bytes) (s : MergedRows) : Prop where
  wf : ∀ item ∈ s.dstItems, WellFormed nsPrefix item
  others : s.dstItems.filter (isOther nsPrefix) = done.filter (isOther nsPrefix)
  postings : nsPostings nsPrefix (s.dstItems ++ s.pendingItems nsPrefix) = nsPostings nsPrefix done
  size_le : itemsSize (s.dstItems ++ s.pendingItems nsPrefix) ≤ itemsSize done
  head_eq : s.dstItems.head? = done.head?
  held : s.pendingMetricIds ≠ [] → s.mpPrev.nsPrefix = nsPrefix ∧ s.dstItems ≠ []
  date_eq : nsPrefix ≠ nsPrefixDateTagToMetricIds → s.mp.date = 0 ∧ s.mpPrev.date = 0

variable {nsPrefix : UInt8} {done : List Bytes} {s : MergedRows}

theorem merges_default (nsPrefix : UInt8) : Merges nsPrefix [] default where
  wf := fun _ h => absurd h not_mem_nil
  others := rfl
  postings := rfl
  size_le := le_rfl
  head_eq := rfl
  held := fun h => absurd rfl h
  date_eq := fun _ => ⟨rfl, rfl⟩

theorem pendingItems_of_nil (h : s.pendingMetricIds = []) : s.pendingItems nsPrefix = [] := if_pos h

@[simp]
theorem pendingMetricIds_flushPending (s : MergedRows) : s.flushPending.pendingMetricIds = [] := by
  rw [flushPending]
  split_ifs with h
  · exact h
  · rfl

@[simp]
theorem mp_flushPending (s : MergedRows) : s.flushPending.mp = s.mp := by
  rw [flushPending]
  split_ifs <;> rfl

@[simp]
theorem mpPrev_flushPending (s : MergedRows) : s.flushPending.mpPrev = s.mpPrev := by
  rw [flushPending]
  split_ifs <;> rfl

theorem isOther_marshal (row : MetricIdsRow) : isOther nsPrefix (row.marshal nsPrefix) = false := by
  simp [isOther, MetricIdsRow.marshal]

/-- Writing what is held back. -/
theorem Merges.flushPending (h : s.Merges nsPrefix done) : s.flushPending.Merges nsPrefix done := by
  by_cases hnil : s.pendingMetricIds = []
  · rwa [MergedRows.flushPending, if_pos hnil]
  · obtain ⟨hns, hdst⟩ := h.held hnil
    let row : MetricIdsRow := ⟨s.mpPrev.date, s.mpPrev.tag,
      removeDuplicateMetricIds (sortByKey id s.pendingMetricIds)⟩
    have hflush : s.flushPending =
        { s with pendingMetricIds := [], dstItems := s.dstItems ++ [row.marshal nsPrefix] } := by
      rw [MergedRows.flushPending, if_neg hnil]
      simp only [TagToMetricIDsRowParser.marshal_eq hns]
      rfl
    have hmem : ∀ id', id' ∈ row.metricIds ↔ id' ∈ s.pendingMetricIds := fun id' =>
      mem_removeDuplicateMetricIds.trans (sortByKey_perm id _).mem_iff
    have hlen : row.metricIds.length ≤ s.pendingMetricIds.length :=
      (length_removeDuplicateMetricIds_le _).trans (sortByKey_perm id _).length_eq.le
    have hdate : nsPrefix ≠ nsPrefixDateTagToMetricIds → s.mpPrev.date = 0 := fun hne =>
      (h.date_eq hne).2
    have hpending : s.pendingRow.WF nsPrefix := ⟨hnil, hdate⟩
    have hrow : row.WF nsPrefix := by
      refine ⟨fun hrow => ?_, hdate⟩
      obtain ⟨id', hid'⟩ := exists_mem_of_ne_nil _ hnil
      have hid' := (hmem id').mpr hid'
      rw [hrow] at hid'
      exact absurd hid' not_mem_nil
    have hpostings := h.postings
    have hsize := h.size_le
    rw [pendingItems, if_neg hnil] at hpostings hsize
    rw [hflush]
    constructor
    · intro item hitem
      obtain hitem | hitem := mem_append.mp hitem
      · exact h.wf item hitem
      · exact fun _ => ⟨row, hrow, mem_singleton.mp hitem⟩
    · rw [filter_append, filter_cons_of_neg (by simp [isOther_marshal]), filter_nil,
        append_nil, h.others]
    · rw [pendingItems_of_nil rfl, append_nil, ← hpostings, nsPostings_append, nsPostings_append,
        nsPostings_singleton, nsPostings_singleton]
      congr 1
      ext p
      rw [mem_itemPostings_marshal hrow, mem_itemPostings_marshal hpending, hmem]
      rfl
    · rw [pendingItems_of_nil rfl, append_nil]
      refine le_trans ?_ hsize
      rw [itemsSize_append, itemsSize_append, itemsSize, itemsSize, itemsSize, map_singleton,
        map_singleton, sum_singleton, sum_singleton, row.length_marshal,
        s.pendingRow.length_marshal]
      refine Nat.add_le_add_left (Nat.add_le_add_left (Nat.mul_le_mul_left 8 hlen) _) _
    · rw [head?_append_of_ne_nil _ hdst, h.head_eq]
    · exact fun hne => absurd rfl hne
    · exact h.date_eq

/-- Writing an item as it is, when nothing is held back. -/
theorem Merges.pushItem (h : s.Merges nsPrefix done) (hnil : s.pendingMetricIds = []) {item : Bytes}
    (hitem : WellFormed nsPrefix item) : (s.pushItem item).Merges nsPrefix (done ++ [item]) := by
  have hpostings := h.postings
  have hsize := h.size_le
  rw [pendingItems_of_nil hnil, append_nil] at hpostings hsize
  have hnil' : (s.pushItem item).pendingItems nsPrefix = [] := pendingItems_of_nil hnil
  constructor
  · intro item' hitem'
    obtain hitem' | hitem' := mem_append.mp hitem'
    · exact h.wf item' hitem'
    · exact mem_singleton.mp hitem' ▸ hitem
  · rw [MergedRows.pushItem, filter_append, filter_append, h.others]
  · rw [hnil', append_nil, nsPostings_append, ← hpostings, ← nsPostings_append]
    rfl
  · rw [hnil', append_nil, itemsSize_append, MergedRows.pushItem,
      itemsSize_append]
    exact Nat.add_le_add_right hsize _
  · rw [MergedRows.pushItem, head?_append, head?_append, h.head_eq]
  · exact fun hne => absurd hnil hne
  · exact h.date_eq

theorem Merges.setMp (h : s.Merges nsPrefix done) {mp : TagToMetricIDsRowParser}
    (hdate : nsPrefix ≠ nsPrefixDateTagToMetricIds → mp.date = 0) :
    ({ s with mp } : MergedRows).Merges nsPrefix done :=
  ⟨h.wf, h.others, h.postings, h.size_le, h.head_eq, h.held,
    fun hne => ⟨hdate hne, (h.date_eq hne).2⟩⟩

/-- What is held back either has the prefix of the row in `mp` or is written first. -/
theorem Merges.exists_flushed (h : s.Merges nsPrefix done) :
    ∃ s', s'.Merges nsPrefix done ∧ s'.mp = s.mp ∧ s'.mpPrev = s.mpPrev ∧
      (if s.mp.equalPrefix s.mpPrev then s else s.flushPending) = s' ∧
      (s'.pendingMetricIds ≠ [] → s.mpPrev.date = s.mp.date ∧ s.mpPrev.tag = s.mp.tag) := by
  split_ifs with hequal
  · simp only [TagToMetricIDsRowParser.equalPrefix, Bool.and_eq_true, decide_eq_true_eq] at hequal
    exact ⟨s, h, rfl, rfl, rfl, fun _ => ⟨hequal.1.2.symm, hequal.1.1.symm⟩⟩
  · exact ⟨s.flushPending, h.flushPending, by simp, by simp, rfl, fun hne => absurd (by simp) hne⟩

/-- Holding back the metric ids of a row. -/
theorem Merges.addPending {row : MetricIdsRow} (h : s.Merges nsPrefix done) (hrow : row.WF nsPrefix)
    (hread : s.mp.Read nsPrefix row) (hdone : done ≠ []) :
    s.addPending.Merges nsPrefix (done ++ [row.marshal nsPrefix]) := by
  obtain ⟨s', h', hmp, hmpPrev, hs', hequal⟩ := h.exists_flushed
  have hadd : s.addPending = { s' with
      mp := s.mpPrev
      mpPrev := { s.mp with metricIds := row.metricIds, metricIdsParsed := true }
      pendingMetricIds := s'.pendingMetricIds ++ row.metricIds } := by
    have hparse := hread.parseMetricIds
    rw [MergedRows.addPending, hs', ← hmpPrev]
    simp only [hmp, hparse]
  have hne : s'.pendingMetricIds ++ row.metricIds ≠ [] := by
    simp [hrow.metricIds_ne]
  have hwf : MetricIdsRow.WF nsPrefix ⟨row.date, row.tag, s'.pendingMetricIds ++ row.metricIds⟩ :=
    ⟨hne, hrow.date_eq⟩
  have hpending : s.addPending.pendingItems nsPrefix =
      [MetricIdsRow.marshal nsPrefix ⟨row.date, row.tag,
        s'.pendingMetricIds ++ row.metricIds⟩] := by
    rw [hadd, pendingItems, if_neg hne, pendingRow, ← hread.date_eq, ← hread.tag_eq]
  have hold : s'.pendingMetricIds ≠ [] → s'.pendingItems nsPrefix =
      [MetricIdsRow.marshal nsPrefix ⟨row.date, row.tag, s'.pendingMetricIds⟩] := by
    intro hheld
    obtain ⟨hdate, htag⟩ := hequal hheld
    rw [pendingItems, if_neg hheld, pendingRow, hmpPrev, hdate, htag, hread.date_eq, hread.tag_eq]
  have hpostings := h'.postings
  have hsize := h'.size_le
  have hdst : s.addPending.dstItems = s'.dstItems := by rw [hadd]
  constructor
  · rw [hdst]
    exact h'.wf
  · rw [hdst, h'.others, filter_append, filter_cons_of_neg (by simp [isOther_marshal]),
      filter_nil, append_nil]
  · rw [hpending, hdst, nsPostings_append nsPrefix done, ← hpostings, nsPostings_append,
      nsPostings_append, Set.union_assoc]
    congr 1
    ext p
    rw [nsPostings_singleton, nsPostings_singleton, Set.mem_union,
      mem_itemPostings_marshal hwf, mem_itemPostings_marshal hrow]
    by_cases hheld : s'.pendingMetricIds = []
    · rw [pendingItems_of_nil hheld, nsPostings_nil, hheld]
      simp
    · have hwf' : MetricIdsRow.WF nsPrefix ⟨row.date, row.tag, s'.pendingMetricIds⟩ :=
        ⟨hheld, hrow.date_eq⟩
      rw [hold hheld, nsPostings_singleton, mem_itemPostings_marshal hwf']
      simp only [mem_append]
      tauto
  · rw [hpending, hdst, itemsSize_append _ [row.marshal nsPrefix]]
    refine le_trans ?_ (Nat.add_le_add_right hsize _)
    rw [itemsSize_append, itemsSize_append, itemsSize, itemsSize, itemsSize, itemsSize,
      map_singleton, map_singleton, sum_singleton, sum_singleton,
      MetricIdsRow.length_marshal, row.length_marshal, length_append]
    by_cases hheld : s'.pendingMetricIds = []
    · rw [pendingItems_of_nil hheld, hheld]
      simp
    · have hlen := MetricIdsRow.length_marshal nsPrefix ⟨row.date, row.tag, s'.pendingMetricIds⟩
      rw [hold hheld, map_singleton, sum_singleton]
      simp only at hlen ⊢
      omega
  · rw [hdst, h'.head_eq, head?_append_of_ne_nil _ hdone]
  · intro _
    rw [hdst, hadd]
    refine ⟨hread.nsPrefix_eq, fun hnil => ?_⟩
    have hhead := h'.head_eq
    rw [hnil, head?_nil, eq_comm, head?_eq_none_iff] at hhead
    exact hdone hhead
  · intro hns
    rw [hadd]
    exact ⟨(h.date_eq hns).2, (h.date_eq hns).1⟩

/-- One item of the loop. Nothing is held back behind an item at the edge, which is written as it
is. -/
theorem Merges.exists_mergeItem (h : s.Merges nsPrefix done) {item : Bytes}
    (hitem : WellFormed nsPrefix item) {edge : Bool} (hedge : done = [] → edge = true) :
    ∃ s', mergeItem nsPrefix edge s item = .ok s' ∧ s'.Merges nsPrefix (done ++ [item]) ∧
      (edge = true → s'.pendingMetricIds = [] ∧ s'.dstItems.getLast? = some item) := by
  rw [mergeItem]
  split_ifs with hother
  · refine ⟨_, rfl, h.flushPending.pushItem (by simp) hitem, fun _ => ?_⟩
    simp [MergedRows.pushItem]
  · rw [not_or, not_not] at hother
    obtain ⟨row, hrow, rfl⟩ := hitem hother.1
    have hdone : done ≠ [] := fun hnil => hother.2 (hedge hnil)
    obtain ⟨mp, hmp, hread⟩ := s.mp.exists_init hrow fun hns => (h.date_eq hns).1
    have hset : ({ s with mp } : MergedRows).Merges nsPrefix done :=
      h.setMp fun hns => hread.date_eq.trans (hrow.date_eq hns)
    rw [hmp]
    simp only
    split_ifs with hfull henough
    · exact ⟨_, rfl, hset.flushPending.pushItem (by simp) hitem,
        fun hedge' => absurd hedge' hother.2⟩
    · exact ⟨_, rfl, (hset.addPending hrow hread hdone).flushPending,
        fun hedge' => absurd hedge' hother.2⟩
    · exact ⟨_, rfl, hset.addPending hrow hread hdone, fun hedge' => absurd hedge' hother.2⟩

/-- The items that are left. -/
theorem Merges.exists_mergeItems {rest : List Bytes} {itemsLen : ℕ} (h : s.Merges nsPrefix done)
    (hrest : ∀ item ∈ rest, WellFormed nsPrefix item)
    (hlen : itemsLen = done.length + rest.length) :
    ∃ s', mergeItems nsPrefix itemsLen done.length rest s = .ok s' ∧
      s'.Merges nsPrefix (done ++ rest) ∧
      (rest ≠ [] → s'.pendingMetricIds = [] ∧ s'.dstItems.getLast? = rest.getLast?) := by
  induction rest generalizing done s with
  | nil => exact ⟨s, rfl, by rwa [append_nil], fun hne => absurd rfl hne⟩
  | cons item rest ih =>
    obtain ⟨hitem, hrest⟩ := forall_mem_cons.mp hrest
    have hedge : done = [] → (done.length == 0 || done.length == itemsLen - 1) = true := by
      rintro rfl
      rfl
    obtain ⟨s₁, hs₁, h₁, hlast⟩ := h.exists_mergeItem hitem hedge
    have hdone : (done ++ [item]).length = done.length + 1 := by simp
    obtain ⟨s₂, hs₂, h₂, hlast₂⟩ := ih h₁ hrest (by rw [hlen, hdone, length_cons]; omega)
    rw [hdone] at hs₂
    refine ⟨s₂, ?_, by simpa using h₂, fun _ => ?_⟩
    · rw [mergeItems, hs₁, Outcome.ok_bind, hs₂]
    · cases rest with
      | nil =>
        obtain rfl := Outcome.ok.inj hs₂
        refine hlast ?_
        simp [hlen]
      | cons item' rest => exact hlast₂ (cons_ne_nil _ _)

end MergedRows

/-! ### Blocks -/

/-- The items of a block before and after the rows of a namespace were merged. -/
structure MergesRows (nsPrefix : UInt8) (items items' : List Bytes) : Prop where
  sorted : items'.Pairwise (· ≤ ·)
  head_eq : items'.head? = items.head?
  getLast_eq : items'.getLast? = items.getLast?
  size_le : itemsSize items' ≤ itemsSize items
  others : items'.filter (MergedRows.isOther nsPrefix) = items.filter (MergedRows.isOther nsPrefix)
  wf : ∀ item ∈ items', WellFormed nsPrefix item
  postings : nsPostings nsPrefix items' = nsPostings nsPrefix items

theorem checkItemsSorted_iff :
    checkItemsSorted items = true ↔ items.Pairwise (· ≤ ·) :=
  Mergeset.InmemoryBlock.itemsSorted_iff items

theorem exists_mergeTagToMetricIdsRowsInternal {nsPrefix : UInt8} (hsorted : items.Pairwise (· ≤ ·))
    (hwf : ∀ item ∈ items, WellFormed nsPrefix item) :
    ∃ items', mergeTagToMetricIdsRowsInternal items nsPrefix = .ok items' ∧
      MergesRows nsPrefix items items' := by
  have hsame : MergesRows nsPrefix items items := ⟨hsorted, rfl, rfl, le_rfl, rfl, hwf, rfl⟩
  obtain ⟨s, hs, hmerges, hlast⟩ := (MergedRows.merges_default nsPrefix).exists_mergeItems hwf
    (Nat.zero_add items.length).symm
  rw [mergeTagToMetricIdsRowsInternal]
  split_ifs with hlen
  · exact ⟨items, rfl, hsame⟩
  · have hne : items ≠ [] := by
      rintro rfl
      exact hlen (Nat.zero_le 2)
    obtain ⟨hpending, hlast⟩ := hlast hne
    obtain ⟨firstItem, hfirst⟩ := Option.ne_none_iff_exists'.mp (mt head?_eq_none_iff.mp hne)
    obtain ⟨lastItem, hlastItem⟩ := Option.ne_none_iff_exists'.mp (mt getLast?_eq_none_iff.mp hne)
    rw [hfirst, hlastItem, Outcome.index_some, Outcome.ok_bind, Outcome.index_some, Outcome.ok_bind]
    split_ifs
    · exact ⟨items, rfl, hsame⟩
    · exact ⟨items, rfl, hsame⟩
    · rw [length_nil] at hs
      rw [hs, Outcome.ok_bind]
      simp only
      rw [Outcome.assert_of hpending, Outcome.ok_bind]
      have hpostings := hmerges.postings
      have hsize := hmerges.size_le
      rw [MergedRows.pendingItems_of_nil hpending, append_nil] at hpostings hsize
      split_ifs with hcheck
      · exact ⟨s.dstItems, rfl, checkItemsSorted_iff.mp hcheck, hmerges.head_eq, hlast, hsize,
          hmerges.others, hmerges.wf, hpostings⟩
      · rw [Outcome.assert_of (checkItemsSorted_iff.mpr hsorted), Outcome.ok_bind]
        exact ⟨items, rfl, hsame⟩

/-- Rows of other namespaces are not touched. -/
theorem MergesRows.of_other {nsPrefix ns : UInt8} {items' : List Bytes}
    (h : MergesRows nsPrefix items items')
    (hns : ns ≠ nsPrefix) :
    nsPostings ns items' = nsPostings ns items ∧
      ((∀ item ∈ items, WellFormed ns item) → ∀ item ∈ items', WellFormed ns item) := by
  have hother : ∀ item : Bytes, item.head? = some ns → MergedRows.isOther nsPrefix item = true := by
    intro item hitem
    simp [MergedRows.isOther, hitem, hns]
  constructor
  · rw [← nsPostings_filter ns fun item _ => hother item, h.others,
      nsPostings_filter ns fun item _ => hother item]
  · intro hwf item hitem hhead
    have hmem : item ∈ items'.filter (MergedRows.isOther nsPrefix) :=
      mem_filter.mpr ⟨hitem, hother item hhead⟩
    rw [h.others] at hmem
    exact hwf item (mem_filter.mp hmem).1 hhead

/-- The namespaces of postings. -/
def postingNamespaces : List UInt8 := [nsPrefixTagToMetricIds, nsPrefixDateTagToMetricIds]

/-- The postings of items. -/
def postings (items : List Bytes) : Set Posting :=
  {p | ∃ nsPrefix ∈ postingNamespaces, p ∈ nsPostings nsPrefix items}

/-- The item is not a row of postings. -/
def isOtherItem (item : Bytes) : Bool := !postingNamespaces.any fun nsPrefix =>
  item.head? == some nsPrefix

/-- **Merging rows of postings.** The rows of a sorted block are merged without a panic. The block
stays sorted and keeps its first and its last item, all items of other namespaces and all postings,
and it does not grow. -/
theorem mergeTagToMetricIdsRows_ok {items : List Bytes} (hsorted : items.Pairwise (· ≤ ·))
    (hwf : ∀ nsPrefix ∈ postingNamespaces, ∀ item ∈ items, WellFormed nsPrefix item) :
    ∃ items', mergeTagToMetricIdsRows items = .ok items' ∧ items'.Pairwise (· ≤ ·) ∧
      items'.head? = items.head? ∧ items'.getLast? = items.getLast? ∧
      itemsSize items' ≤ itemsSize items ∧ items'.filter isOtherItem = items.filter isOtherItem ∧
      postings items' = postings items := by
  have hne : nsPrefixDateTagToMetricIds ≠ nsPrefixTagToMetricIds := by decide
  obtain ⟨items₁, hitems₁, h₁⟩ := exists_mergeTagToMetricIdsRowsInternal hsorted
    (hwf nsPrefixTagToMetricIds (by simp [postingNamespaces]))
  obtain ⟨hpostings₁, hwf₁⟩ := h₁.of_other hne
  obtain ⟨items₂, hitems₂, h₂⟩ := exists_mergeTagToMetricIdsRowsInternal h₁.sorted
    (hwf₁ (hwf nsPrefixDateTagToMetricIds (by simp [postingNamespaces])))
  obtain ⟨hpostings₂, -⟩ := h₂.of_other hne.symm
  have hfilter : ∀ l : List Bytes, l.filter isOtherItem =
      (l.filter (MergedRows.isOther nsPrefixTagToMetricIds)).filter
        (MergedRows.isOther nsPrefixDateTagToMetricIds) := by
    intro l
    rw [filter_filter]
    refine filter_congr fun item _ => ?_
    simp [isOtherItem, postingNamespaces, MergedRows.isOther, Bool.and_comm, bne]
  refine ⟨items₂, ?_, h₂.sorted, h₂.head_eq.trans h₁.head_eq, h₂.getLast_eq.trans h₁.getLast_eq,
    h₂.size_le.trans h₁.size_le, ?_, ?_⟩
  · rw [mergeTagToMetricIdsRows, hitems₁, Outcome.ok_bind, hitems₂]
  · rw [hfilter, hfilter, ← h₁.others, filter_comm, h₂.others, filter_comm]
  · ext p
    simp only [postings, postingNamespaces, Set.mem_ofPred_eq, mem_cons, not_mem_nil, or_false,
      exists_eq_or_imp, exists_eq_left]
    rw [hpostings₂, h₁.postings, h₂.postings, hpostings₁]

/-- Two rows of a tag, between items of other namespaces. -/
def twoRows : List Bytes :=
  [[0], MetricIdsRow.marshal nsPrefixTagToMetricIds ⟨0, ⟨[97], [98]⟩, [1, 5]⟩,
    MetricIdsRow.marshal nsPrefixTagToMetricIds ⟨0, ⟨[97], [98]⟩, [2]⟩, [7]]

theorem mergeTagToMetricIdsRows_ok_twoRows :
    ∃ items', mergeTagToMetricIdsRows twoRows = .ok items' ∧ items'.Pairwise (· ≤ ·) ∧
      items'.head? = some [0] ∧ items'.getLast? = some [7] ∧ itemsSize items' ≤ itemsSize twoRows ∧
      postings items' = postings twoRows := by
  have hwf : ∀ nsPrefix ∈ postingNamespaces, ∀ item ∈ twoRows, WellFormed nsPrefix item := by
    simp only [postingNamespaces, twoRows, forall_mem_cons, not_mem_nil, false_imp_iff,
      implies_true, and_true]
    refine ⟨⟨fun h => ?_, fun _ => ⟨_, ⟨?_, fun _ => rfl⟩, rfl⟩,
      fun _ => ⟨_, ⟨?_, fun _ => rfl⟩, rfl⟩,
      fun h => ?_⟩, fun h => ?_, fun h => ?_, fun h => ?_, fun h => ?_⟩
    · exact absurd h (by decide)
    · simp
    · simp
    all_goals exact absurd h (by decide +kernel)
  have hsorted : twoRows.Pairwise (· ≤ ·) := by decide +kernel
  obtain ⟨items', hmerge, hsorted', hhead, hlast, hsize, -, hpostings⟩ :=
    mergeTagToMetricIdsRows_ok hsorted hwf
  exact ⟨items', hmerge, hsorted', hhead, hlast, hsize, hpostings⟩

end Esmetrics
