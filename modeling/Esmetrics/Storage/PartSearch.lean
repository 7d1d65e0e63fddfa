import Esmetrics.Lib.MergeJoin
import Esmetrics.Storage.Part

/-!
# Search in a part

Model of `esm-storage/src/part/search.rs`: two cursors, one over the sorted series to search and
one over the metaindex rows and the block headers of the current index block, skip forward until
they meet. The process-global cache of index blocks is a parameter: `cache i` is what it returns
when the row `i` is looked up, which a search does at most once.

The loops take a number of steps that they cannot exceed; running out of it would show as a panic.
For every part that is laid out as the writer does it (`Part.LaidOut`), the search yields exactly
the headers of the wanted series and time range, in order, and then ends without an error or a
panic (`partSearch_yields`).
-/

namespace Esmetrics

open List

/-- A time range; both bounds are inclusive. -/
structure TimeRange where
  minTimestamp : Int64
  maxTimestamp : Int64
  deriving DecidableEq, Repr, Inhabited

inductive PsError where
  | eof
  | other (msg : String)
  deriving DecidableEq, Repr

/-- A search for series in a time range. -/
structure PartSearch where
  /-- The header of the block that the last successful `next_block` found. -/
  blockRef : BlockHeader
  /-- The sorted series to search; empty when the part does not overlap the time range. -/
  tsids : List Tsid
  /-- The index of the next series. -/
  tsidIdx : ℕ
  /-- The series that is being searched. -/
  curTsid : Tsid
  tr : TimeRange
  /-- The index of the next metaindex row. -/
  metaindexIdx : ℕ
  /-- The headers of the current index block. -/
  bhs : List BlockHeader
  /-- The index of the next header. -/
  bhIdx : ℕ
  err : Option PsError

namespace PartSearch

variable (z : Zstd) (p : Part) (cache : ℕ → Option (List BlockHeader))

/-- Goes to the next series. -/
def nextTsid (ps : PartSearch) : Bool × PartSearch :=
  match ps.tsids[ps.tsidIdx]? with
  | none => (false, { ps with err := some .eof })
  | some t => (true, { ps with curTsid := t, tsidIdx := ps.tsidIdx + 1 })

/-- Creates a search. -/
def new (tsids : List Tsid) (tr : TimeRange) : PartSearch :=
  let useTsids := decide (p.ph.minTimestamp ≤ tr.maxTimestamp) &&
    decide (p.ph.maxTimestamp ≥ tr.minTimestamp)
  let ps : PartSearch :=
    ⟨default, if useTsids then tsids else [], 0, default, tr, 0, [], 0, none⟩
  ps.nextTsid.2

/-- The last error, without the end of the search. -/
def error (ps : PartSearch) : Option String :=
  match ps.err with
  | some (.other msg) => some msg
  | _ => none

/-- Goes to the first series from `tsid` on. -/
def skipTsidsSmallerThan (ps : PartSearch) (tsid : Tsid) : Bool × PartSearch :=
  if ps.curTsid ≥ tsid then (true, ps)
  else
    let (ok, ps) := ps.nextTsid
    if ¬ ok then (false, ps)
    else if ps.curTsid ≥ tsid then (true, ps)
    else
      -- binary search
      let tail := ps.tsids.drop ps.tsidIdx
      let tsidIdx := ps.tsidIdx + partitionPoint (fun t => decide (t < tsid)) tail
      match ps.tsids[tsidIdx]? with
      | none => (false, { ps with tsidIdx := ps.tsids.length, err := some .eof })
      | some t => (true, { ps with curTsid := t, tsidIdx := tsidIdx + 1 })

/-- The index of the first metaindex row to scan for a series. -/
def skipSmallMetaindexRows (metaindex : List MetaindexRow) (start : ℕ)
    (tsid : Tsid) : Outcome ℕ := do
  let mr ← Outcome.index metaindex[start]?
  let got := tsid.debug
  let want := mr.tsid.debug
  Outcome.assert (tsid ≥ mr.tsid) (s!"BUG: invariant violation: tsid cannot be smaller than " ++
    s!"metaindex[start]; got {got} vs {want}")
  if tsid.metricId = mr.tsid.metricId then return start
  else
    let n := partitionPoint (fun mr : MetaindexRow => decide (mr.tsid < tsid))
      (metaindex.drop start)
    Outcome.assert (n > 0) (s!"BUG: invariant violation: binary search returned 0 for tsid > " ++
      s!"metaindex[start].TSID")
    -- the series may begin in the row before
    return start + n - 1

/-- Loads the index block of the row `mr` at `idx`, from the cache or from the file. -/
def loadBhs (ps : PartSearch) (idx : ℕ) (mr : MetaindexRow) : Outcome (Bool × PartSearch) :=
  match cache idx with
  | some bhs => .ok (true, { ps with bhs := bhs, bhIdx := 0 })
  | none =>
    match p.readIndexBlock z mr with
    | .ok bhs => .ok (true, { ps with bhs := bhs, bhIdx := 0 })
    | .err msg => .ok (false, { ps with err := some (.other msg) })
    | .panic msg => .panic msg

/-- The loop of `next_bhs`. -/
def nextBhsLoop : ℕ → PartSearch → Outcome (Bool × PartSearch)
  | 0, _ => .panic "out of steps"
  | steps + 1, ps =>
    match p.metaindex[ps.metaindexIdx]? with
    | none => .ok (false, { ps with err := some .eof })
    | some first => do
      let (ok, ps) := ps.skipTsidsSmallerThan first.tsid
      if ¬ ok then return (false, ps)
      else
        let idx ← skipSmallMetaindexRows p.metaindex ps.metaindexIdx ps.curTsid
        let mr ← Outcome.index p.metaindex[idx]?
        let ps := { ps with metaindexIdx := idx + 1 }
        let got := ps.curTsid.debug
        let want := mr.tsid.debug
        Outcome.assert (ps.curTsid ≥ mr.tsid) (s!"BUG: invariant violation: cur_tsid cannot be " ++
          s!"smaller than mr.tsid; got {got} vs {want}")
        if mr.maxTimestamp < ps.tr.minTimestamp then nextBhsLoop steps ps
        else if mr.minTimestamp > ps.tr.maxTimestamp then nextBhsLoop steps ps
        else ps.loadBhs z p cache idx mr

/-- Goes to the next index block. -/
def nextBhs (ps : PartSearch) : Outcome (Bool × PartSearch) :=
  nextBhsLoop z p cache (p.metaindex.length + 1) ps

/-- The loop of `search_bhs` at a header that is not below the current series; `goOn` is the next
round of the loop. -/
def searchAt (goOn : PartSearch → Outcome (Bool × PartSearch)) (ps : PartSearch)
    (bh : BlockHeader) : Outcome (Bool × PartSearch) :=
  if bh.tsid.metricId ≠ ps.curTsid.metricId then
    -- no more blocks of the current series
    let (ok, ps) := ps.skipTsidsSmallerThan bh.tsid
    if ¬ ok then .ok (false, ps) else goOn ps
  else if bh.maxTimestamp < ps.tr.minTimestamp then goOn { ps with bhIdx := ps.bhIdx + 1 }
  else if bh.minTimestamp > ps.tr.maxTimestamp then
    -- the remaining blocks of the series are too new as well
    let (ok, ps) := ps.nextTsid
    if ¬ ok then .ok (false, ps) else goOn ps
  else .ok (true, { ps with blockRef := bh, bhIdx := ps.bhIdx + 1 })

/-- The number of headers to skip, as they are of smaller series. -/
def smallHeaders (ps : PartSearch) (first : BlockHeader) : ℕ :=
  if first.tsid < ps.curTsid then
    partitionPoint (fun bh : BlockHeader => decide (bh.tsid < ps.curTsid)) (ps.bhs.drop ps.bhIdx)
  else 0

/-- The loop of `search_bhs`. -/
def searchBhsLoop : ℕ → PartSearch → Outcome (Bool × PartSearch)
  | 0, _ => .panic "out of steps"
  | steps + 1, ps =>
    match ps.bhs[ps.bhIdx]? with
    | none => .ok (false, { ps with bhs := [], bhIdx := 0 })
    | some first =>
      let n := ps.smallHeaders first
      match ps.bhs[ps.bhIdx + n]? with
      | none => .ok (false, { ps with bhs := [], bhIdx := 0 })
      | some bh => searchAt (searchBhsLoop steps) { ps with bhIdx := ps.bhIdx + n } bh

/-- Searches the current index block. -/
def searchBhs (ps : PartSearch) : Outcome (Bool × PartSearch) :=
  searchBhsLoop (ps.bhs.length + ps.tsids.length + 1) ps

/-- The loop of `next_block`. -/
def nextBlockLoop : ℕ → PartSearch → Outcome (Bool × PartSearch)
  | 0, _ => .panic "out of steps"
  | steps + 1, ps => do
    if ps.err.isSome then return (false, ps)
    else
      let (ok, ps) ← if ps.bhIdx ≥ ps.bhs.length then nextBhs z p cache ps else .ok (true, ps)
      if ¬ ok then return (false, ps)
      else
        let (found, ps) ← ps.searchBhs
        if found then return (true, ps) else nextBlockLoop steps ps

/-- Goes to the next block; returns whether there is one. -/
def nextBlock (ps : PartSearch) : Outcome (Bool × PartSearch) :=
  nextBlockLoop z p cache (p.metaindex.length + 2) ps

end PartSearch

/-! ### What a search is for -/

/-- The header's time range meets the other one. -/
def BlockHeader.Intersects (bh : BlockHeader) (tr : TimeRange) : Prop :=
  ∃ t, bh.minTimestamp ≤ t ∧ t ≤ bh.maxTimestamp ∧ tr.minTimestamp ≤ t ∧ t ≤ tr.maxTimestamp

theorem BlockHeader.intersects_iff {bh : BlockHeader} {tr : TimeRange} : bh.Intersects tr ↔
    max bh.minTimestamp tr.minTimestamp ≤ min bh.maxTimestamp tr.maxTimestamp := by
  rw [max_le_iff, le_min_iff, le_min_iff]
  constructor
  · rintro ⟨t, h1, h2, h3, h4⟩
    exact ⟨⟨h1.trans h2, h1.trans h4⟩, h3.trans h2, h3.trans h4⟩
  · rintro ⟨⟨h1, h2⟩, h3, h4⟩
    refine ⟨max bh.minTimestamp tr.minTimestamp, le_max_left _ _, ?_, le_max_right _ _, ?_⟩
    · exact max_le h1 h3
    · exact max_le h2 h4

instance (bh : BlockHeader) (tr : TimeRange) : Decidable (bh.Intersects tr) :=
  decidable_of_iff' _ BlockHeader.intersects_iff

/-- The order of the headers in a part: by series, then by the first timestamp. -/
def HeaderOrder (a b : BlockHeader) : Prop :=
  a.tsid < b.tsid ∨ a.tsid = b.tsid ∧ a.minTimestamp ≤ b.minTimestamp

instance : DecidableRel HeaderOrder := fun a b =>
  inferInstanceAs (Decidable (a.tsid < b.tsid ∨ a.tsid = b.tsid ∧ a.minTimestamp ≤ b.minTimestamp))

/-- A metaindex row describes the headers of its index block. -/
structure MetaindexRow.Describes (z : Zstd) (p : Part) (mr : MetaindexRow)
    (bhs : List BlockHeader) : Prop where
  tsid_eq : ∃ bh, bhs.head? = some bh ∧ mr.tsid = bh.tsid
  min_le : ∀ bh ∈ bhs, mr.minTimestamp ≤ bh.minTimestamp
  le_max : ∀ bh ∈ bhs, bh.maxTimestamp ≤ mr.maxTimestamp
  read_eq : p.readIndexBlock z mr = .ok bhs

/-- The part holds the headers of the index blocks `blocks`, in order. -/
structure Part.LaidOut (z : Zstd) (p : Part) (blocks : List (List BlockHeader)) : Prop where
  rows : List.Forall₂ (MetaindexRow.Describes z p) p.metaindex blocks
  sorted : blocks.flatten.Pairwise HeaderOrder
  range : ∀ bh ∈ blocks.flatten, bh.minTimestamp ≤ bh.maxTimestamp
  min_le : ∀ bh ∈ blocks.flatten, p.ph.minTimestamp ≤ bh.minTimestamp
  le_max : ∀ bh ∈ blocks.flatten, bh.maxTimestamp ≤ p.ph.maxTimestamp

/-- The index block of a row. -/
theorem Part.LaidOut.describes {z : Zstd} {p : Part} {blocks : List (List BlockHeader)}
    (hp : p.LaidOut z blocks) {i : ℕ} {mr : MetaindexRow} (hmr : p.metaindex[i]? = some mr) :
    ∃ bhs, blocks[i]? = some bhs ∧ mr.Describes z p bhs := by
  obtain ⟨hlt, rfl⟩ := List.getElem?_eq_some_iff.mp hmr
  have hlt' : i < blocks.length := hp.rows.length_eq ▸ hlt
  exact ⟨blocks[i], getElem?_eq_getElem hlt', hp.rows.get hlt hlt'⟩

/-- What the cache returns for a row is what was read for it. -/
def Part.CacheCoherent (z : Zstd) (p : Part) (cache : ℕ → Option (List BlockHeader)) : Prop :=
  ∀ i mr bhs, p.metaindex[i]? = some mr → cache i = some bhs → p.readIndexBlock z mr = .ok bhs

/-- Repeated calls of `next_block` find the headers `hs` one by one, and the next call ends the
search without an error. -/
def PartSearch.Yields (z : Zstd) (p : Part) (cache : ℕ → Option (List BlockHeader)) :
    List BlockHeader → PartSearch → Prop
  | [], ps => ∃ ps', ps.nextBlock z p cache = .ok (false, ps') ∧ ps'.error = none
  | h :: hs, ps => ∃ ps', ps.nextBlock z p cache = .ok (true, ps') ∧ ps'.blockRef = h ∧
      Yields z p cache hs ps'

namespace PartSearch

/-! ### The cursor over the series -/

/-- The series that are still to be searched. -/
def keys (ps : PartSearch) : List Tsid := ps.curTsid :: ps.tsids.drop ps.tsidIdx

/-- The result of moving the cursor over the series: it is at `ks`, or the search is over. -/
def Moved (ps : PartSearch) (ks : List Tsid) (r : Bool × PartSearch) : Prop :=
  (∃ t i, r = (true, { ps with curTsid := t, tsidIdx := i }) ∧ r.2.keys = ks) ∨
    ∃ t i, r = (false, { ps with curTsid := t, tsidIdx := i, err := some .eof }) ∧ ks = []

theorem nextTsid_spec (ps : PartSearch) : Moved ps (ps.tsids.drop ps.tsidIdx) ps.nextTsid := by
  rw [nextTsid]
  cases h : ps.tsids[ps.tsidIdx]? with
  | none =>
    refine .inr ⟨ps.curTsid, ps.tsidIdx, rfl, ?_⟩
    exact drop_eq_nil_of_le (getElem?_eq_none_iff.mp h)
  | some t =>
    refine .inl ⟨t, ps.tsidIdx + 1, rfl, ?_⟩
    obtain ⟨hlt, rfl⟩ := List.getElem?_eq_some_iff.mp h
    exact cons_getElem_drop_succ

theorem skipTsidsSmallerThan_spec (ps : PartSearch) (tsid : Tsid) :
    Moved ps (ps.keys.dropWhile fun t => decide (t < tsid)) (ps.skipTsidsSmallerThan tsid) := by
  rw [skipTsidsSmallerThan]
  split_ifs with hcur
  · refine .inl ⟨ps.curTsid, ps.tsidIdx, rfl, ?_⟩
    rw [keys, dropWhile_cons_of_neg (by simpa using hcur)]
  have hdrop : ps.keys.dropWhile (fun t => decide (t < tsid)) =
      (ps.tsids.drop ps.tsidIdx).dropWhile fun t => decide (t < tsid) := by
    rw [keys, dropWhile_cons_of_pos (by simpa using hcur)]
  rw [hdrop]
  obtain ⟨t, i, hr, hkeys⟩ | ⟨t, i, hr, hnil⟩ := nextTsid_spec ps
  · rw [hr] at hkeys ⊢
    simp only [not_true_eq_false, if_false]
    rw [← hkeys, keys]
    split_ifs with ht
    · refine .inl ⟨t, i, rfl, ?_⟩
      rw [dropWhile_cons_of_neg (by simpa using ht)]
      rfl
    · rw [dropWhile_cons_of_pos (by simpa using ht)]
      simp only
      rw [← drop_partitionPoint, drop_drop]
      cases hget : ps.tsids[i + partitionPoint (fun t => decide (t < tsid)) (ps.tsids.drop i)]? with
      | none =>
        refine .inr ⟨t, ps.tsids.length, rfl, ?_⟩
        exact drop_eq_nil_of_le (getElem?_eq_none_iff.mp hget)
      | some t' =>
        refine .inl ⟨t', _, rfl, ?_⟩
        obtain ⟨hlt, rfl⟩ := List.getElem?_eq_some_iff.mp hget
        exact cons_getElem_drop_succ
  · rw [hr]
    refine .inr ⟨t, i, by simp, ?_⟩
    rw [hnil, dropWhile_nil]

/-! ### The search keeps what is still to be found -/

section Correct

variable {z : Zstd} {p : Part} {cache : ℕ → Option (List BlockHeader)}
  {blocks : List (List BlockHeader)} {tsids : List Tsid} {tr : TimeRange}

/-- The check of the source for the time range. -/
def overlaps (tr : TimeRange) (bh : BlockHeader) : Bool :=
  decide (bh.maxTimestamp ≥ tr.minTimestamp) && decide (bh.minTimestamp ≤ tr.maxTimestamp)

/-- The headers that the cursor is not behind. -/
def rest (blocks : List (List BlockHeader)) (ps : PartSearch) : List BlockHeader :=
  ps.bhs.drop ps.bhIdx ++ (blocks.drop ps.metaindexIdx).flatten

/-- What the search will still find. -/
def answer (blocks : List (List BlockHeader)) (ps : PartSearch) : List BlockHeader :=
  join BlockHeader.tsid (overlaps ps.tr) ps.keys (rest blocks ps)

/-- The state of a search that goes on. -/
structure Live (blocks : List (List BlockHeader)) (tsids : List Tsid) (tr : TimeRange)
    (ps : PartSearch) : Prop where
  err_eq : ps.err = none
  tr_eq : ps.tr = tr
  keys_suffix : ps.keys <:+ tsids
  rest_suffix : rest blocks ps <:+ blocks.flatten

/-- A search that is over without an error. -/
def Ended (ps : PartSearch) : Prop := ps.err = some .eof

variable {ps : PartSearch} {r : Bool × PartSearch} {bh : BlockHeader}

theorem Live.le_keys (h : Live blocks tsids tr ps) (htsids : tsids.Pairwise (· ≤ ·)) :
    ∀ k ∈ ps.keys, ps.curTsid ≤ k := by
  have hsorted : ps.keys.Pairwise (· ≤ ·) := htsids.sublist h.keys_suffix.sublist
  intro k hk
  rcases mem_cons.mp hk with rfl | hk
  · exact le_rfl
  · exact (pairwise_cons.mp hsorted).1 k hk

/-- Moving the cursor over the series to keys that give the same answer. -/
theorem Live.moved (h : Live blocks tsids tr ps) {ks : List Tsid} (hr : Moved ps ks r)
    (hks : ks <:+ ps.keys)
    (hanswer : join BlockHeader.tsid (overlaps ps.tr) ks (rest blocks ps) = answer blocks ps) :
    (r.1 = true ∧ Live blocks tsids tr r.2 ∧ r.2.keys = ks ∧ answer blocks r.2 = answer blocks ps ∧
      r.2.bhs = ps.bhs ∧ r.2.bhIdx = ps.bhIdx ∧ r.2.metaindexIdx = ps.metaindexIdx) ∨
      (r.1 = false ∧ Ended r.2 ∧ answer blocks ps = []) := by
  obtain ⟨t, i, rfl, hkeys⟩ | ⟨t, i, rfl, rfl⟩ := hr
  · refine .inl ⟨rfl, ⟨h.err_eq, h.tr_eq, ?_, h.rest_suffix⟩, hkeys, ?_, rfl, rfl, rfl⟩
    · rw [hkeys]
      exact hks.trans h.keys_suffix
    · rw [← hanswer, ← hkeys]
      rfl
  · refine .inr ⟨rfl, rfl, ?_⟩
    rw [← hanswer]
    exact join_eq_nil fun _ _ hk => absurd hk not_mem_nil

/-- A header that is not below the current series comes first. -/
private theorem not_of_dropWhile_eq_cons {α : Type} {f : α → Bool} {l l' : List α} {a : α}
    (h : l.dropWhile f = a :: l') : f a = false := by
  have hhead := head_dropWhile_not f (l := l) (w := by rw [h]; simp)
  simpa [h] using hhead

/-- What a search in the current index block does. -/
def Searched (blocks : List (List BlockHeader)) (tsids : List Tsid) (tr : TimeRange)
    (ps : PartSearch) (r : Bool × PartSearch) : Prop :=
  (r.1 = true ∧ Live blocks tsids tr r.2 ∧ answer blocks ps = r.2.blockRef :: answer blocks r.2) ∨
    (r.1 = false ∧ Ended r.2 ∧ answer blocks ps = []) ∨
    (r.1 = false ∧ Live blocks tsids tr r.2 ∧ answer blocks r.2 = answer blocks ps ∧ r.2.bhs = [] ∧
      r.2.metaindexIdx = ps.metaindexIdx)

/-- A search from a state with the same answer. -/
theorem Searched.of_answer_eq {ps' : PartSearch} (h : Searched blocks tsids tr ps' r)
    (hanswer : answer blocks ps' = answer blocks ps) (hidx : ps'.metaindexIdx = ps.metaindexIdx) :
    Searched blocks tsids tr ps r := by
  rw [Searched, hanswer, hidx] at h
  exact h

/-- The headers of smaller series may be skipped. -/
theorem Live.skipHeaders (h : Live blocks tsids tr ps) (htsids : tsids.Pairwise (· ≤ ·)) {n : ℕ}
    (hn : ∀ bh ∈ (ps.bhs.drop ps.bhIdx).take n, bh.tsid < ps.curTsid) :
    Live blocks tsids tr { ps with bhIdx := ps.bhIdx + n } ∧
      answer blocks { ps with bhIdx := ps.bhIdx + n } = answer blocks ps := by
  have hrest : rest blocks ps = (ps.bhs.drop ps.bhIdx).take n ++
      rest blocks { ps with bhIdx := ps.bhIdx + n } := by
    rw [rest, rest, ← append_assoc, ← drop_drop, take_append_drop]
  refine ⟨⟨h.err_eq, h.tr_eq, h.keys_suffix, ?_⟩, ?_⟩
  · exact (hrest ▸ suffix_append _ _ : rest blocks _ <:+ rest blocks ps).trans h.rest_suffix
  · rw [answer, answer, hrest]
    refine (join_skip fun bh hbh hmem => ?_).symm
    exact absurd (h.le_keys htsids _ hmem) (not_le.mpr (hn bh hbh))

/-- The current index block has no more headers. -/
theorem Live.endOfBhs (h : Live blocks tsids tr ps) (hend : ps.bhs.drop ps.bhIdx = []) :
    Searched blocks tsids tr ps (false, { ps with bhs := [], bhIdx := 0 }) := by
  have hrest : rest blocks { ps with bhs := [], bhIdx := 0 } = rest blocks ps := by
    rw [rest, rest, hend]
    rfl
  refine .inr (.inr ⟨rfl, ⟨h.err_eq, h.tr_eq, h.keys_suffix, ?_⟩, ?_, rfl, rfl⟩)
  · rw [hrest]
    exact h.rest_suffix
  · rw [answer, answer, hrest]
    rfl

/-- The header at the cursor and the headers behind it. -/
theorem Live.rest_eq_cons (h : Live blocks tsids tr ps)
    (hsorted : blocks.flatten.Pairwise HeaderOrder)
    (hget : ps.bhs[ps.bhIdx]? = some bh) :
    rest blocks ps = bh :: rest blocks { ps with bhIdx := ps.bhIdx + 1 } ∧ bh ∈ blocks.flatten ∧
      ∀ bh' ∈ rest blocks ps, bh.tsid ≤ bh'.tsid ∧
        (bh.tsid = bh'.tsid → bh.minTimestamp ≤ bh'.minTimestamp) := by
  have hcons : rest blocks ps = bh :: rest blocks { ps with bhIdx := ps.bhIdx + 1 } := by
    obtain ⟨hlt, rfl⟩ := List.getElem?_eq_some_iff.mp hget
    rw [rest, rest, drop_eq_getElem_cons hlt, cons_append]
  have hrest := hsorted.sublist h.rest_suffix.sublist
  rw [hcons] at hrest
  refine ⟨hcons, h.rest_suffix.subset (by rw [hcons]; exact mem_cons_self), fun bh' hbh' => ?_⟩
  rw [hcons] at hbh'
  rcases mem_cons.mp hbh' with rfl | hbh'
  · exact ⟨le_rfl, fun _ => le_rfl⟩
  · rcases (pairwise_cons.mp hrest).1 bh' hbh' with hlt | ⟨heq, hmin⟩
    · exact ⟨hlt.le, fun heq => absurd heq (ne_of_lt hlt)⟩
    · exact ⟨heq.le, fun _ => hmin⟩

/-- The next header may be skipped if its time range is wrong. -/
theorem Live.skipHeader (h : Live blocks tsids tr ps)
    (hsorted : blocks.flatten.Pairwise HeaderOrder)
    (hget : ps.bhs[ps.bhIdx]? = some bh) (hbh : overlaps ps.tr bh = false) :
    Live blocks tsids tr { ps with bhIdx := ps.bhIdx + 1 } ∧
      answer blocks { ps with bhIdx := ps.bhIdx + 1 } = answer blocks ps := by
  obtain ⟨hcons, -, -⟩ := h.rest_eq_cons hsorted hget
  refine ⟨⟨h.err_eq, h.tr_eq, h.keys_suffix, ?_⟩, ?_⟩
  · refine (?_ : _ <:+ rest blocks ps).trans h.rest_suffix
    rw [hcons]
    exact suffix_cons _ _
  · rw [answer, answer, hcons, ← singleton_append]
    refine (join_skip fun bh' hbh' _ => ?_).symm
    rw [mem_singleton.mp hbh']
    exact hbh

/-- One round of the loop at a header that is not below the current series. -/
theorem searchAt_spec (hsorted : blocks.flatten.Pairwise HeaderOrder)
    (hid : ∀ t ∈ tsids, ∀ bh ∈ blocks.flatten, t.metricId = bh.tsid.metricId → t = bh.tsid)
    (hps : Live blocks tsids tr ps) (hget : ps.bhs[ps.bhIdx]? = some bh)
    (hle : ps.curTsid ≤ bh.tsid) {goOn : PartSearch → Outcome (Bool × PartSearch)}
    (hgoOn : ∀ ps' : PartSearch, Live blocks tsids tr ps' → ps'.bhs.length - ps'.bhIdx +
      ps'.keys.length < ps.bhs.length - ps.bhIdx + ps.keys.length → ∃ r,
      goOn ps' = .ok r ∧ Searched blocks tsids tr ps' r) :
    ∃ r, searchAt goOn ps bh = .ok r ∧ Searched blocks tsids tr ps r := by
  obtain ⟨hcons, hmem, hbehind⟩ := hps.rest_eq_cons hsorted hget
  have hlt : ps.bhIdx < ps.bhs.length := (List.getElem?_eq_some_iff.mp hget).1
  -- going on after the cursor over the series moved
  have hmoved : ∀ {ks : List Tsid} {m : Bool × PartSearch}, Moved ps ks m → ks <:+ ps.keys →
      ks.length < ps.keys.length →
      join BlockHeader.tsid (overlaps ps.tr) ks (rest blocks ps) = answer blocks ps →
      ∃ r, (if ¬ m.1 = true then Outcome.ok (false, m.2) else goOn m.2) = .ok r ∧
        Searched blocks tsids tr ps r := by
    intro ks m hm hsuffix hshort hjoin
    rcases hps.moved hm hsuffix hjoin with
      ⟨hok, hlive, hkeys, hanswer, hbhs, hbhIdx, hidx⟩ | ⟨hok, hended, hnil⟩
    · rw [hok, if_neg (by simp)]
      obtain ⟨r, hr, hsearched⟩ := hgoOn m.2 hlive (by rw [hbhs, hbhIdx, hkeys]; omega)
      exact ⟨r, hr, hsearched.of_answer_eq hanswer hidx⟩
    · rw [hok, if_pos (by simp)]
      exact ⟨_, rfl, .inr (.inl ⟨rfl, hended, hnil⟩)⟩
  rw [searchAt]
  split_ifs with hmetric hold hnew
  · have hcur : ps.curTsid < bh.tsid := by
      refine lt_of_le_of_ne hle fun heq => hmetric ?_
      rw [heq]
    refine hmoved (skipTsidsSmallerThan_spec ps bh.tsid) (dropWhile_suffix _) ?_ ?_
    · rw [keys, dropWhile_cons_of_pos (by simpa using hcur), length_cons]
      exact Nat.lt_succ_of_le (dropWhile_sublist _).length_le
    · exact join_dropWhile_keys fun bh' hbh' => (hbehind bh' hbh').1
  · have hwrong : overlaps ps.tr bh = false := by
      rw [overlaps, decide_eq_false (not_le.mpr hold), Bool.false_and]
    obtain ⟨hlive, hanswer⟩ := hps.skipHeader hsorted hget hwrong
    obtain ⟨r, hr, hsearched⟩ := hgoOn _ hlive (by
      have hkeys : keys { ps with bhIdx := ps.bhIdx + 1 } = ps.keys := rfl
      simp only [hkeys]
      omega)
    exact ⟨r, hr, hsearched.of_answer_eq hanswer rfl⟩
  · -- all the blocks of the series from here on are too new
    have hcur : ps.curTsid = bh.tsid := by
      refine hid ps.curTsid (hps.keys_suffix.subset mem_cons_self) bh hmem ?_
      exact (not_not.mp hmetric).symm
    refine hmoved (nextTsid_spec ps) (suffix_cons _ _) (Nat.lt_succ_self _) ?_
    refine join_tail fun bh' hbh' heq => ?_
    have hmin := (hbehind bh' hbh').2 (hcur.symm.trans heq.symm)
    have htoo : ¬ bh'.minTimestamp ≤ ps.tr.maxTimestamp := not_le.mpr (lt_of_lt_of_le hnew hmin)
    rw [overlaps, decide_eq_false htoo, Bool.and_false]
  · have hcur : ps.curTsid = bh.tsid := by
      refine hid ps.curTsid (hps.keys_suffix.subset mem_cons_self) bh hmem ?_
      exact (not_not.mp hmetric).symm
    have hright : overlaps ps.tr bh = true := by
      simp [overlaps, not_lt.mp hold, not_lt.mp hnew]
    refine ⟨_, rfl, .inl ⟨rfl, ⟨hps.err_eq, hps.tr_eq, hps.keys_suffix, ?_⟩, ?_⟩⟩
    · refine (?_ : _ <:+ rest blocks ps).trans hps.rest_suffix
      rw [hcons]
      exact suffix_cons _ _
    · rw [answer, hcons, join_cons_wanted (by rw [← hcur]; exact mem_cons_self) hright]
      rfl

theorem smallHeaders_spec {first : BlockHeader} (hfirst : ps.bhs[ps.bhIdx]? = some first) :
    (∀ bh ∈ (ps.bhs.drop ps.bhIdx).take (ps.smallHeaders first), bh.tsid < ps.curTsid) ∧
      ∀ bh, ps.bhs[ps.bhIdx + ps.smallHeaders first]? = some bh → ps.curTsid ≤ bh.tsid := by
  rw [smallHeaders]
  split_ifs with hcur
  · refine ⟨fun bh hbh => ?_, fun bh hget => ?_⟩
    · rw [take_partitionPoint] at hbh
      simpa using forall_mem_takeWhile _ bh hbh
    · obtain ⟨hlt, hget⟩ := List.getElem?_eq_some_iff.mp hget
      have hdrop := drop_partitionPoint
        (fun bh : BlockHeader => decide (bh.tsid < ps.curTsid)) (ps.bhs.drop ps.bhIdx)
      rw [drop_drop, drop_eq_getElem_cons hlt, hget] at hdrop
      simpa using not_of_dropWhile_eq_cons hdrop.symm
  · refine ⟨by simp, fun bh hget => ?_⟩
    rw [Nat.add_zero, hfirst, Option.some.injEq] at hget
    rw [← hget]
    exact not_lt.mp hcur

theorem searchBhsLoop_spec (htsids : tsids.Pairwise (· ≤ ·))
    (hsorted : blocks.flatten.Pairwise HeaderOrder)
    (hid : ∀ t ∈ tsids, ∀ bh ∈ blocks.flatten, t.metricId = bh.tsid.metricId → t = bh.tsid)
    (hps : Live blocks tsids tr ps) {steps : ℕ}
    (hsteps : ps.bhs.length - ps.bhIdx + ps.keys.length ≤ steps) :
    ∃ r, searchBhsLoop steps ps = .ok r ∧ Searched blocks tsids tr ps r := by
  induction steps generalizing ps with
  | zero => simp [keys] at hsteps
  | succ steps ih =>
    rw [searchBhsLoop]
    cases hfirst : ps.bhs[ps.bhIdx]? with
    | none =>
      exact ⟨_, rfl, hps.endOfBhs (drop_eq_nil_of_le (getElem?_eq_none_iff.mp hfirst))⟩
    | some first =>
      obtain ⟨hsmall, hnext⟩ := smallHeaders_spec hfirst
      obtain ⟨hlive, hanswer⟩ := hps.skipHeaders htsids hsmall
      cases hget : ps.bhs[ps.bhIdx + ps.smallHeaders first]? with
      | none =>
        simp only [hget]
        refine ⟨_, rfl, Searched.of_answer_eq (hlive.endOfBhs ?_) hanswer rfl⟩
        exact drop_eq_nil_of_le (getElem?_eq_none_iff.mp hget)
      | some bh =>
        simp only [hget]
        have hkeys : keys { ps with bhIdx := ps.bhIdx + ps.smallHeaders first } = ps.keys := rfl
        have hgoOn : ∀ ps' : PartSearch, Live blocks tsids tr ps' → ps'.bhs.length - ps'.bhIdx +
            ps'.keys.length < ps.bhs.length - (ps.bhIdx + ps.smallHeaders first) + ps.keys.length →
            ∃ r, searchBhsLoop steps ps' = .ok r ∧ Searched blocks tsids tr ps' r :=
          fun ps' hlive' hless => ih hlive' (by omega)
        rw [← hkeys] at hgoOn
        obtain ⟨r, hr, hsearched⟩ := searchAt_spec hsorted hid hlive hget (hnext bh hget) hgoOn
        exact ⟨r, hr, hsearched.of_answer_eq hanswer rfl⟩

/-! ### The cursor over the metaindex rows -/

/-- The rows before the one to scan have headers of smaller series only. -/
theorem skipSmallMetaindexRows_spec (hp : p.LaidOut z blocks) {start : ℕ} {tsid : Tsid}
    {mr : MetaindexRow} (hstart : p.metaindex[start]? = some mr) (hle : mr.tsid ≤ tsid) :
    ∃ idx mr' bhs, skipSmallMetaindexRows p.metaindex start tsid = .ok idx ∧ start ≤ idx ∧
      p.metaindex[idx]? = some mr' ∧ blocks[idx]? = some bhs ∧ mr'.Describes z p bhs ∧
      mr'.tsid ≤ tsid ∧ ∃ pre, (blocks.drop start).flatten = pre ++ (blocks.drop idx).flatten ∧
        ∀ bh ∈ pre, bh.tsid < tsid := by
  rw [skipSmallMetaindexRows, hstart, Outcome.index_some, Outcome.ok_bind]
  simp only
  rw [Outcome.assert_of hle, Outcome.ok_bind]
  split_ifs with hmetric
  · obtain ⟨bhs, hbhs, hdescribes⟩ := hp.describes hstart
    exact ⟨start, mr, bhs, rfl, le_rfl, hstart, hbhs, hdescribes, hle, [], rfl, by simp⟩
  · have hlt : mr.tsid < tsid := by
      refine lt_of_le_of_ne hle fun heq => hmetric ?_
      rw [heq]
    set q := partitionPoint (fun mr : MetaindexRow => decide (mr.tsid < tsid))
      (p.metaindex.drop start) with hq
    have hpos : q > 0 := by
      obtain ⟨hlen, hget⟩ := List.getElem?_eq_some_iff.mp hstart
      rw [hq, partitionPoint, drop_eq_getElem_cons hlen, hget,
        takeWhile_cons_of_pos (by simpa using hlt)]
      exact Nat.succ_pos _
    have hqle : q ≤ p.metaindex.length - start := by
      have := partitionPoint_le_length (fun mr : MetaindexRow => decide (mr.tsid < tsid))
        (p.metaindex.drop start)
      rwa [← hq, length_drop] at this
    have hidx : start + q - 1 < p.metaindex.length := by omega
    -- the row before the one where the search ended is of a smaller series
    have hsmall : p.metaindex[start + q - 1].tsid < tsid := by
      have hmem : p.metaindex[start + q - 1] ∈ (p.metaindex.drop start).take q := by
        refine mem_take_iff_getElem.mpr ⟨q - 1, by rw [length_drop]; omega, ?_⟩
        rw [getElem_drop]
        congr 1
        omega
      have htake := take_partitionPoint (fun mr : MetaindexRow => decide (mr.tsid < tsid))
        (p.metaindex.drop start)
      rw [← hq] at htake
      rw [htake] at hmem
      simpa using forall_mem_takeWhile _ _ hmem
    obtain ⟨bhs, hbhs, hdescribes⟩ := hp.describes (getElem?_eq_getElem hidx)
    rw [Outcome.assert_of hpos, Outcome.ok_bind]
    refine ⟨start + q - 1, _, bhs, rfl, by omega, getElem?_eq_getElem hidx, hbhs, hdescribes,
      hsmall.le, ((blocks.drop start).take (q - 1)).flatten, ?_, fun bh hbh => ?_⟩
    · rw [← flatten_append, show start + q - 1 = start + (q - 1) by omega, ← drop_drop,
        take_append_drop]
    · obtain ⟨bh₀, hhead, htsid⟩ := hdescribes.tsid_eq
      obtain ⟨hlen, hget⟩ := List.getElem?_eq_some_iff.mp hbhs
      have hsplit : blocks.flatten = (blocks.take start).flatten ++
          (((blocks.drop start).take (q - 1)).flatten ++
            (blocks.drop (start + q - 1)).flatten) := by
        rw [← flatten_append, ← flatten_append,
          show start + q - 1 = start + (q - 1) by omega, ← drop_drop, take_append_drop,
          take_append_drop]
      have hsorted := hp.sorted
      rw [hsplit] at hsorted
      have hbefore := (pairwise_append.mp (pairwise_append.mp hsorted).2.1).2.2 bh hbh bh₀ (by
        rw [drop_eq_getElem_cons hlen, hget, flatten_cons]
        exact mem_append_left _ (mem_of_head? hhead))
      rw [htsid] at hsmall
      rcases hbefore with hless | ⟨heq, -⟩
      · exact hless.trans hsmall
      · rw [heq]
        exact hsmall

/-- What going to the next index block does. -/
def Advanced (blocks : List (List BlockHeader)) (tsids : List Tsid) (tr : TimeRange)
    (ps : PartSearch) (r : Bool × PartSearch) : Prop :=
  (r.1 = true ∧ Live blocks tsids tr r.2 ∧ answer blocks r.2 = answer blocks ps ∧
      ps.metaindexIdx < r.2.metaindexIdx ∧ r.2.metaindexIdx ≤ blocks.length) ∨
    (r.1 = false ∧ Ended r.2 ∧ answer blocks ps = [])

/-- All the headers behind a row of the metaindex are from its series on. -/
theorem le_tsid_of_mem_drop (hp : p.LaidOut z blocks) {i : ℕ} {mr : MetaindexRow}
    (hmr : p.metaindex[i]? = some mr) : ∀ bh ∈ (blocks.drop i).flatten, mr.tsid ≤ bh.tsid := by
  obtain ⟨bhs, hbhs, hdescribes⟩ := hp.describes hmr
  obtain ⟨bh₀, hhead, htsid⟩ := hdescribes.tsid_eq
  obtain ⟨bhs', rfl⟩ := head?_eq_some_iff.mp hhead
  obtain ⟨hlen, hget⟩ := List.getElem?_eq_some_iff.mp hbhs
  have hdrop : (blocks.drop i).flatten = bh₀ :: (bhs' ++ (blocks.drop (i + 1)).flatten) := by
    rw [drop_eq_getElem_cons hlen, hget, flatten_cons, cons_append]
  have hsorted : (blocks.drop i).flatten.Pairwise HeaderOrder := by
    refine hp.sorted.sublist ?_
    exact (drop_sublist i blocks).flatten
  intro bh hbh
  rw [hdrop] at hsorted hbh
  rw [htsid]
  rcases mem_cons.mp hbh with rfl | hbh
  · exact le_rfl
  · rcases (pairwise_cons.mp hsorted).1 bh hbh with hlt | ⟨heq, -⟩
    · exact hlt.le
    · exact heq.le

/-- The cursor at a row whose series is not above the current one. -/
theorem Live.atRow (hps : Live blocks tsids tr ps) (hend : ps.bhs.drop ps.bhIdx = [])
    (htsids : tsids.Pairwise (· ≤ ·)) {idx : ℕ} {pre : List BlockHeader}
    (hpre : (blocks.drop ps.metaindexIdx).flatten = pre ++ (blocks.drop idx).flatten)
    (hsmall : ∀ bh ∈ pre, bh.tsid < ps.curTsid ∨ overlaps ps.tr bh = false) :
    Live blocks tsids tr { ps with metaindexIdx := idx } ∧
      answer blocks { ps with metaindexIdx := idx } = answer blocks ps := by
  have hrest : rest blocks ps = pre ++ rest blocks { ps with metaindexIdx := idx } := by
    rw [rest, rest, hend, hpre]
    rfl
  refine ⟨⟨hps.err_eq, hps.tr_eq, hps.keys_suffix, ?_⟩, ?_⟩
  · exact (hrest ▸ suffix_append _ _ : rest blocks _ <:+ rest blocks ps).trans hps.rest_suffix
  · rw [answer, answer, hrest]
    refine (join_skip fun bh hbh hmem => ?_).symm
    rcases hsmall bh hbh with hlt | hwrong
    · exact absurd (hps.le_keys htsids _ hmem) (not_le.mpr hlt)
    · exact hwrong

theorem nextBhsLoop_spec (hp : p.LaidOut z blocks) (hcache : p.CacheCoherent z cache)
    (htsids : tsids.Pairwise (· ≤ ·)) (hps : Live blocks tsids tr ps)
    (hend : ps.bhs.drop ps.bhIdx = [])
    {steps : ℕ} (hsteps : p.metaindex.length - ps.metaindexIdx < steps) :
    ∃ r, nextBhsLoop z p cache steps ps = .ok r ∧ Advanced blocks tsids tr ps r := by
  induction steps generalizing ps with
  | zero => simp at hsteps
  | succ steps ih =>
    have hlen : p.metaindex.length = blocks.length := hp.rows.length_eq
    rw [nextBhsLoop]
    cases hfirst : p.metaindex[ps.metaindexIdx]? with
    | none =>
      refine ⟨_, rfl, .inr ⟨rfl, rfl, ?_⟩⟩
      have hdrop : blocks.drop ps.metaindexIdx = [] :=
        drop_eq_nil_of_le (hlen ▸ getElem?_eq_none_iff.mp hfirst)
      rw [answer, rest, hend, hdrop]
      rfl
    | some first =>
      have hjoin : join BlockHeader.tsid (overlaps ps.tr)
          (ps.keys.dropWhile fun t => decide (t < first.tsid)) (rest blocks ps) =
            answer blocks ps := by
        refine join_dropWhile_keys fun bh hbh => ?_
        rw [rest, hend, nil_append] at hbh
        exact le_tsid_of_mem_drop hp hfirst bh hbh
      have hmoved := hps.moved (skipTsidsSmallerThan_spec ps first.tsid) (dropWhile_suffix _) hjoin
      set ps₁ := (ps.skipTsidsSmallerThan first.tsid).2 with hps₁
      obtain ⟨hok, hlive, hkeys, hanswer, hbhs, hbhIdx, hidx⟩ | ⟨hok, hended, hnil⟩ := hmoved
      · have hcur : first.tsid ≤ ps₁.curTsid := by
          simpa using not_of_dropWhile_eq_cons hkeys.symm
        rw [← hidx] at hfirst
        obtain ⟨idx, mr, bhs, hskip, hle, hmr, hblock, hdescribes, htsid, pre, hpre, hsmall⟩ :=
          skipSmallMetaindexRows_spec hp hfirst hcur
        have hidxlt : idx < blocks.length := (List.getElem?_eq_some_iff.mp hblock).1
        have hdrop : (blocks.drop idx).flatten = bhs ++ (blocks.drop (idx + 1)).flatten := by
          rw [drop_eq_getElem_cons hidxlt, (List.getElem?_eq_some_iff.mp hblock).2,
            flatten_cons]
        have hend₁ : ps₁.bhs.drop ps₁.bhIdx = [] := by rw [hbhs, hbhIdx, hend]
        simp only [hok, not_true_eq_false, if_false]
        rw [← hps₁, hskip, Outcome.ok_bind, hmr, Outcome.index_some, Outcome.ok_bind,
          Outcome.assert_of htsid, Outcome.ok_bind]
        -- a row of another time range
        have hskipRow : (∀ bh ∈ bhs, overlaps ps₁.tr bh = false) →
            ∃ r, nextBhsLoop z p cache steps { ps₁ with metaindexIdx := idx + 1 } = .ok r ∧
              Advanced blocks tsids tr ps r := by
          intro hwrong
          have hpre' : (blocks.drop ps₁.metaindexIdx).flatten =
              (pre ++ bhs) ++ (blocks.drop (idx + 1)).flatten := by
            rw [hpre, hdrop, append_assoc]
          obtain ⟨hlive₂, hanswer₂⟩ := hlive.atRow hend₁ htsids hpre' fun bh hbh =>
            (mem_append.mp hbh).imp (hsmall bh) (hwrong bh)
          obtain ⟨r, hr, hadvanced⟩ := ih hlive₂ hend₁ (by simp only; omega)
          refine ⟨r, hr, ?_⟩
          rcases hadvanced with ⟨hfound, hlive₃, hanswer₃, hlt, hle'⟩ | ⟨hfound, hended, hnil⟩
          · refine .inl ⟨hfound, hlive₃, hanswer₃.trans (hanswer₂.trans hanswer), ?_, hle'⟩
            simp only at hlt
            omega
          · exact .inr ⟨hfound, hended, by rw [← hanswer, ← hanswer₂, hnil]⟩
        split_ifs with hold hnew
        · refine hskipRow fun bh hbh => ?_
          have hlt := lt_of_le_of_lt (hdescribes.le_max bh hbh) hold
          rw [overlaps, decide_eq_false (not_le.mpr hlt), Bool.false_and]
        · refine hskipRow fun bh hbh => ?_
          have hlt := lt_of_lt_of_le hnew (hdescribes.min_le bh hbh)
          rw [overlaps, decide_eq_false (not_le.mpr hlt), Bool.and_false]
        · have hload : loadBhs z p cache { ps₁ with metaindexIdx := idx + 1 } idx mr =
              .ok (true, { ps₁ with metaindexIdx := idx + 1, bhs := bhs, bhIdx := 0 }) := by
            rw [loadBhs]
            cases hc : cache idx with
            | some bhs' =>
              have hread := hcache idx mr bhs' hmr hc
              rw [hdescribes.read_eq, Outcome.ok.injEq] at hread
              rw [hread]
            | none => rw [hdescribes.read_eq]
          obtain ⟨hlive₂, hanswer₂⟩ := hlive.atRow hend₁ htsids hpre fun bh hbh =>
            .inl (hsmall bh hbh)
          have hrest : rest blocks { ps₁ with metaindexIdx := idx + 1, bhs := bhs, bhIdx := 0 } =
              rest blocks { ps₁ with metaindexIdx := idx } := by
            rw [rest, rest, drop_zero, hend₁, nil_append, hdrop]
          refine ⟨_, hload, .inl ⟨rfl, ⟨hlive₂.err_eq, hlive₂.tr_eq, hlive₂.keys_suffix, ?_⟩,
            ?_, ?_, ?_⟩⟩
          · rw [hrest]
            exact hlive₂.rest_suffix
          · rw [answer, hrest]
            exact hanswer₂.trans hanswer
          · simp only
            omega
          · simpa using hidxlt
      · simp only [hok]
        exact ⟨_, rfl, .inr ⟨rfl, hended, hnil⟩⟩

/-! ### The whole search -/

/-- What a call of `next_block` does. -/
def Found (blocks : List (List BlockHeader)) (tsids : List Tsid) (tr : TimeRange)
    (ps : PartSearch) (r : Bool × PartSearch) : Prop :=
  (r.1 = true ∧ Live blocks tsids tr r.2 ∧ answer blocks ps = r.2.blockRef :: answer blocks r.2) ∨
    (r.1 = false ∧ Ended r.2 ∧ answer blocks ps = [])

theorem Found.of_answer_eq {ps' : PartSearch} (h : Found blocks tsids tr ps' r)
    (hanswer : answer blocks ps' = answer blocks ps) :
    Found blocks tsids tr ps r := by
  rw [Found, hanswer] at h
  exact h

theorem searchBhs_spec (hp : p.LaidOut z blocks) (htsids : tsids.Pairwise (· ≤ ·))
    (hid : ∀ t ∈ tsids, ∀ bh ∈ blocks.flatten, t.metricId = bh.tsid.metricId → t = bh.tsid)
    (hps : Live blocks tsids tr ps) :
    ∃ r, ps.searchBhs = .ok r ∧ Searched blocks tsids tr ps r := by
  refine searchBhsLoop_spec htsids hp.sorted hid hps ?_
  rw [keys, length_cons, length_drop]
  omega

theorem nextBhs_spec (hp : p.LaidOut z blocks) (hcache : p.CacheCoherent z cache)
    (htsids : tsids.Pairwise (· ≤ ·)) (hps : Live blocks tsids tr ps)
    (hend : ps.bhIdx ≥ ps.bhs.length) :
    ∃ r, ps.nextBhs z p cache = .ok r ∧ Advanced blocks tsids tr ps r :=
  nextBhsLoop_spec hp hcache htsids hps (drop_eq_nil_of_le hend) (by omega)

theorem nextBlockLoop_spec (hp : p.LaidOut z blocks) (hcache : p.CacheCoherent z cache)
    (htsids : tsids.Pairwise (· ≤ ·))
    (hid : ∀ t ∈ tsids, ∀ bh ∈ blocks.flatten, t.metricId = bh.tsid.metricId → t = bh.tsid)
    (hps : Live blocks tsids tr ps) {steps : ℕ}
    (hsteps : p.metaindex.length - ps.metaindexIdx + (if ps.bhs = [] then 0 else 1) < steps) :
    ∃ r, nextBlockLoop z p cache steps ps = .ok r ∧ Found blocks tsids tr ps r := by
  have hlen : p.metaindex.length = blocks.length := hp.rows.length_eq
  induction steps generalizing ps with
  | zero => simp at hsteps
  | succ steps ih =>
    -- the rest of a round, once there is an index block to search
    have hround : ∀ ps₁ : PartSearch, Live blocks tsids tr ps₁ →
        answer blocks ps₁ = answer blocks ps →
        p.metaindex.length - ps₁.metaindexIdx < steps →
        ∃ r, (do
          let (found, ps) ← ps₁.searchBhs
          if found then return (true, ps) else nextBlockLoop z p cache steps ps) = .ok r ∧
            Found blocks tsids tr ps r := by
      intro ps₁ hlive hanswer hless
      obtain ⟨⟨found, ps₂⟩, hr, hsearched⟩ := searchBhs_spec hp htsids hid hlive
      rw [hr, Outcome.ok_bind]
      rcases hsearched with ⟨hfound, hlive₂, hanswer₂⟩ | ⟨hfound, hended, hnil⟩ |
        ⟨hfound, hlive₂, hanswer₂, hbhs, hidx⟩
      · simp only at hfound hlive₂ hanswer₂
        simp only [hfound, if_true]
        exact ⟨_, rfl, Found.of_answer_eq (.inl ⟨rfl, hlive₂, hanswer₂⟩) hanswer⟩
      · -- the next round returns at once
        simp only at hfound hended
        obtain ⟨steps, rfl⟩ : ∃ n, steps = n + 1 := ⟨steps - 1, by omega⟩
        simp only [hfound, Bool.false_eq_true, if_false]
        rw [nextBlockLoop, hended]
        exact ⟨_, rfl, .inr ⟨rfl, hended, hanswer.symm.trans hnil⟩⟩
      · simp only at hfound hlive₂ hanswer₂ hbhs hidx
        simp only [hfound, Bool.false_eq_true, if_false]
        obtain ⟨r, hr, hfound'⟩ := ih hlive₂ (by rw [hbhs, hidx, if_pos rfl]; exact hless)
        exact ⟨r, hr, hfound'.of_answer_eq (hanswer₂.trans hanswer)⟩
    rw [nextBlockLoop, hps.err_eq]
    simp only [Option.isSome_none, Bool.false_eq_true, if_false]
    split_ifs with hend
    · obtain ⟨⟨ok, ps₁⟩, hr, hadvanced⟩ := nextBhs_spec hp hcache htsids hps hend
      rw [hr, Outcome.ok_bind]
      rcases hadvanced with ⟨hok, hlive, hanswer, hlt, hle⟩ | ⟨hok, hended, hnil⟩
      · simp only at hok hlive hanswer hlt hle
        simp only [hok, not_true_eq_false, if_false]
        exact hround ps₁ hlive hanswer (by omega)
      · simp only at hok hended
        simp only [hok]
        exact ⟨_, rfl, .inr ⟨rfl, hended, hnil⟩⟩
    · have hne : ps.bhs ≠ [] := by
        rintro hnil
        simp [hnil] at hend
      rw [if_neg hne] at hsteps
      simp only [Outcome.ok_bind, not_true_eq_false, if_false]
      exact hround ps hps rfl (by omega)

/-- A search that goes on yields its answer. -/
theorem Live.yields (hp : p.LaidOut z blocks) (hcache : p.CacheCoherent z cache)
    (htsids : tsids.Pairwise (· ≤ ·))
    (hid : ∀ t ∈ tsids, ∀ bh ∈ blocks.flatten, t.metricId = bh.tsid.metricId → t = bh.tsid)
    {hs : List BlockHeader} (hps : Live blocks tsids tr ps) (hanswer : answer blocks ps = hs) :
    Yields z p cache hs ps := by
  have hstep : ∀ {ps : PartSearch}, Live blocks tsids tr ps →
      ∃ r, ps.nextBlock z p cache = .ok r ∧ Found blocks tsids tr ps r := by
    intro ps hps
    refine nextBlockLoop_spec hp hcache htsids hid hps ?_
    split_ifs <;> omega
  induction hs generalizing ps with
  | nil =>
    obtain ⟨⟨ok, ps'⟩, hr, ⟨-, -, hcons⟩ | ⟨hok, hended, -⟩⟩ := hstep hps
    · rw [hanswer] at hcons
      cases hcons
    · simp only at hok hended
      refine ⟨ps', by rw [hr, hok], ?_⟩
      rw [error, hended]
  | cons h hs ih =>
    obtain ⟨⟨ok, ps'⟩, hr, ⟨hok, hlive, hcons⟩ | ⟨-, -, hnil⟩⟩ := hstep hps
    · simp only at hok hlive hcons
      rw [hanswer, List.cons.injEq] at hcons
      exact ⟨ps', by rw [hr, hok], hcons.1.symm, ih hlive hcons.2.symm⟩
    · rw [hanswer] at hnil
      cases hnil

theorem overlaps_iff (hbh : bh.minTimestamp ≤ bh.maxTimestamp)
    (htr : tr.minTimestamp ≤ tr.maxTimestamp) :
    overlaps tr bh = true ↔ bh.Intersects tr := by
  rw [BlockHeader.intersects_iff, max_le_iff, le_min_iff, le_min_iff, overlaps, Bool.and_eq_true,
    decide_eq_true_eq, decide_eq_true_eq]
  tauto

/-- A search that is over yields nothing. -/
theorem Ended.yields (h : Ended ps) : Yields z p cache [] ps := by
  refine ⟨ps, ?_, ?_⟩
  · rw [nextBlock, nextBlockLoop, h]
    rfl
  · rw [error, h]

end Correct

end PartSearch

/-- Search in a part is complete. For every part laid out in index blocks of ordered headers,
whatever the coherent cache answers, for all sorted series and every time range: the calls of
`next_block` yield exactly the headers of these series whose time range meets the given one, each
once and in order, and then the search ends without an error. No assertion fails. -/
theorem partSearch_yields {z : Zstd} {p : Part} {cache : ℕ → Option (List BlockHeader)}
    {blocks : List (List BlockHeader)} (hp : p.LaidOut z blocks) (hcache : p.CacheCoherent z cache)
    {tsids : List Tsid} (htsids : tsids.Pairwise (· ≤ ·))
    (hid : ∀ t ∈ tsids, ∀ bh ∈ blocks.flatten, t.metricId = bh.tsid.metricId → t = bh.tsid)
    {tr : TimeRange} (htr : tr.minTimestamp ≤ tr.maxTimestamp) :
    PartSearch.Yields z p cache
      (blocks.flatten.filter fun bh => decide (bh.tsid ∈ tsids ∧ bh.Intersects tr))
      (PartSearch.new p tsids tr) := by
  have hfilter : (blocks.flatten.filter fun bh => decide (bh.tsid ∈ tsids ∧ bh.Intersects tr)) =
      join BlockHeader.tsid (PartSearch.overlaps tr) tsids blocks.flatten := by
    refine filter_congr fun bh hbh => ?_
    rw [Bool.eq_iff_iff, Bool.and_eq_true, PartSearch.overlaps_iff (hp.range bh hbh) htr]
    simp only [decide_eq_true_eq]
  rw [hfilter, PartSearch.new]
  cases huse : decide (p.ph.minTimestamp ≤ tr.maxTimestamp) &&
      decide (p.ph.maxTimestamp ≥ tr.minTimestamp) with
  | false =>
    -- the part does not overlap the time range
    have hnil : join BlockHeader.tsid (PartSearch.overlaps tr) tsids blocks.flatten = [] := by
      refine join_eq_nil fun bh hbh _ => ?_
      rw [Bool.eq_false_iff]
      intro hoverlaps
      rw [PartSearch.overlaps, Bool.and_eq_true, decide_eq_true_eq, decide_eq_true_eq] at hoverlaps
      have hmin := (hp.min_le bh hbh).trans hoverlaps.2
      have hmax := hoverlaps.1.trans (hp.le_max bh hbh)
      simp [hmin, hmax] at huse
    rw [hnil]
    exact PartSearch.Ended.yields rfl
  | true =>
    cases tsids with
    | nil =>
      rw [join_eq_nil (by simp)]
      exact PartSearch.Ended.yields rfl
    | cons t ts =>
      have hlive : PartSearch.Live blocks (t :: ts) tr
          ⟨default, t :: ts, 1, t, tr, 0, [], 0, none⟩ :=
        ⟨rfl, rfl, suffix_rfl, suffix_rfl⟩
      exact hlive.yields hp hcache htsids hid rfl

/-- A header of one row, with the timestamp and the value in the header. -/
def oneRowHeader (metricId : UInt64) (t : Int64) : BlockHeader :=
  ⟨⟨0, 0, 0, metricId⟩, t, t, 0, 0, 0, 0, 0, 1, 0, 3, 3, 64⟩

/-- Two series in one index block; the second one has a block in the time range. -/
theorem partSearch_yields_second :
    let bhs := [oneRowHeader 1 10, oneRowHeader 2 10, oneRowHeader 2 30]
    let data := compressZstdLevel Zstd.stored [] (bhs.flatMap fun bh => bh.marshal []) 1
    let p : Part := ⟨⟨3, 3, 10, 30, 0⟩, data, [⟨⟨0, 0, 0, 1⟩, 10, 30, 0, 3, 244⟩]⟩
    PartSearch.Yields Zstd.stored p (fun _ => none) [oneRowHeader 2 30]
      (PartSearch.new p [⟨0, 0, 0, 2⟩] ⟨20, 40⟩) := by
  intro bhs data p
  have hsize : data.length = 244 := by
    simp [data, bhs, compressZstdLevel, Zstd.stored, marshaledBlockHeaderSize]
  have hfile : p.indexFile = [] ++ data ++ [] := (append_nil _).symm
  have hread : p.readIndexBlock Zstd.stored ⟨⟨0, 0, 0, 1⟩, 10, 30, 0, 3, 244⟩ = .ok bhs :=
    Part.readIndexBlock_eq Zstd.roundTrips_stored (cons_ne_nil _ _) (by decide) (by decide)
      hfile rfl hsize.symm rfl
  have hp : p.LaidOut Zstd.stored [bhs] :=
    ⟨.cons ⟨⟨_, rfl, rfl⟩, by decide, by decide, hread⟩ .nil, by decide, by decide, by decide,
      by decide⟩
  have hcache : p.CacheCoherent Zstd.stored fun _ => none := by
    intro i mr bhs _ h
    cases h
  have hfilter : ([bhs].flatten.filter fun bh =>
      decide (bh.tsid ∈ [(⟨0, 0, 0, 2⟩ : Tsid)] ∧ bh.Intersects ⟨20, 40⟩)) =
        [oneRowHeader 2 30] := by
    decide
  rw [← hfilter]
  exact partSearch_yields hp hcache (by decide) (by decide) (by decide)

end Esmetrics
