import Esmetrics.Mergeset.PartSearch

/-!
# Search in a table

Model of `esm-mergeset/src/table_search.rs`: a search in every part of a table, merged by a heap of
the current items. The items of the parts are not deduplicated.

For every history of calls, the items after `seek` are sorted, and are those of the parts that are
at least the key, each of them at least once and at most as often as it is in the parts
(`tableSearch_spec`).
-/

namespace Esmetrics.Mergeset

open List

/-- A search in the parts of a table. -/
abbrev TableSearch := HeapMerge PartSearch

namespace TableSearch

def itemLess (a b : Bytes) : Bool := decide (a < b)

/-- A search in the given parts. -/
def new (parts : List Part) : TableSearch := ⟨parts.map PartSearch.new, #[], false, none⟩

variable (z : Zstd)

/-- The current item. -/
def item (ts : TableSearch) : Bytes := HeapMerge.cur (PartSearch.asSource z) ts

/-- The last error, unless it is the end. -/
def error (ts : TableSearch) : Option String := HeapMerge.error ts

/-- The search in a part goes to `k`, and to its first item. -/
def seekSource (k : Bytes) : SourceOps PartSearch Bytes where
  next ps := do
    let ps ← ps.seek z k
    ps.nextItem z
  cur := PartSearch.item
  error := PartSearch.error

/-- Goes to the first item that is at least `k`. -/
def seek (ts : TableSearch) (k : Bytes) : Outcome TableSearch := do
  if (error ts).isSome then .ok ts
  else
    let m ← HeapMerge.start (seekSource z k) itemLess
        (fun err => s!"cannot seek {k}: {err}") ts.pool
    .ok { m with nextBlockNoop := m.nextBlockNoop || ts.nextBlockNoop }

/-- Goes to the next item, and tells whether there is one. Before the first `seek` there is no
heap. -/
def nextItem (ts : TableSearch) : Outcome (Bool × TableSearch) :=
  if ts.err.isNone && !ts.nextBlockNoop && ts.heap.isEmpty then .panic "index out of bounds"
  else
    HeapMerge.next (PartSearch.asSource z) itemLess
      (fun msg => s!"cannot obtain the next block to search in the table: {msg}") ts

/-- Goes to the first item with the given prefix. -/
def firstItemWithPrefix (ts : TableSearch) (pre : Bytes) :
    Outcome (Except HeapMergeError Unit × TableSearch) := do
  let ts ← seek z ts pre
  let (has, ts) ← nextItem z ts
  match error ts with
  | some err => .ok (.error (.other err), ts)
  | none =>
    if !has then .ok (.error .eof, ts)
    else if pre.isPrefixOf (item z ts) then .ok (.ok (), ts)
    else .ok (.error .eof, ts)

/-- A search as a source of items. -/
def asSource : SourceOps TableSearch Bytes := ⟨nextItem z, item z, error⟩

/-- The calls of a search. -/
inductive Call where
  | seek (k : Bytes)
  | nextItem
  | firstItemWithPrefix (pre : Bytes)
deriving DecidableEq, Repr

def call (ts : TableSearch) : Call → Outcome TableSearch
  | .seek k => seek z ts k
  | .nextItem => do
    let (_, ts) ← nextItem z ts
    .ok ts
  | .firstItemWithPrefix pre => do
    let (_, ts) ← firstItemWithPrefix z ts pre
    .ok ts

/-- A history of calls. -/
def run (ts : TableSearch) : List Call → Outcome TableSearch
  | [] => .ok ts
  | c :: calls => do
    let ts ← call z ts c
    run ts calls

/-! ### Seek -/

section Seek

variable {z : Zstd} {tables : List (Part × List (List (List Bytes)))} {ts : TableSearch}

/-- A search that stands in a part, beside the items of the part. -/
def StandsIn (z : Zstd) (g : Part × List (List (List Bytes))) (ps : PartSearch) : Prop :=
  g.1.Holds z g.2 ∧ ps.Stands z g.1 g.2

/-- The items of the parts. -/
def itemsOf (tables : List (Part × List (List (List Bytes)))) : List Bytes :=
  tables.flatMap fun g => g.2.flatten.flatten

/-- A search that has come through some calls without an error: it may go on with `seek`. -/
structure Ready (z : Zstd) (tables : List (Part × List (List (List Bytes))))
    (ts : TableSearch) : Prop where
  error_eq : error ts = none
  meets : List.Forall₂ (StandsIn z) tables ts.pool

/-- A search behind the first `seek`: it may go on with any call. -/
structure Started (z : Zstd) (tables : List (Part × List (List (List Bytes)))) (ts : TableSearch) :
    Prop where
  error_eq : error ts = none
  sources : ts.SourcesMeet (StandsIn z) tables

theorem Started.ready (h : Started z tables ts) : Ready z tables ts := ⟨h.error_eq, h.sources.meets⟩

theorem standsIn_nextItem (g : Part × List (List (List Bytes))) (ps : PartSearch) (has : Bool)
    (ps' : PartSearch) (h : StandsIn z g ps)
    (hnext : (PartSearch.asSource z).next ps = .ok (has, ps')) : StandsIn z g ps' :=
  ⟨h.1, h.2.nextItem h.1 hnext⟩

/-- The searches in the parts go to `k`. -/
theorem exists_seekAll {pool : List PartSearch} (h : List.Forall₂ (StandsIn z) tables pool)
    (k : Bytes) : ∃ pool' streams, List.Forall₂ (fun ps ps' => ps.seek z k = .ok ps') pool pool' ∧
      List.Forall₂ (StandsIn z) tables pool' ∧
      List.Forall₂ (PartSearch.asSource z).Delivers pool' streams ∧
      (∀ stream ∈ streams, stream.Pairwise (· ≤ ·)) ∧
      List.Forall₂ (fun g rem => PartSearch.TailFrom k g.2.flatten.flatten rem) tables streams := by
  induction h with
  | nil => exact ⟨[], [], .nil, .nil, .nil, by simp, .nil⟩
  | @cons g ps tables pool hps _ ih =>
    obtain ⟨pool', streams, hseek, hstands, hdelivers, hsorted, htails⟩ := ih
    obtain ⟨hg, hps⟩ := hps
    obtain ⟨ps', hps', hsought⟩ := PartSearch.seek_spec hg hps k
    obtain ⟨hstands', rem, hrem, htail⟩ := hsought.delivers hg
    refine ⟨ps' :: pool', rem :: streams, .cons hps' hseek, .cons ⟨hg, hstands'⟩ hstands,
      .cons hrem hdelivers, fun stream hstream => ?_, .cons htail htails⟩
    rcases mem_cons.mp hstream with rfl | hstream
    · exact hg.sorted.sublist htail.isSuffix.sublist
    · exact hsorted stream hstream

/-- Seeking while the sources are started is starting the sources that were sought. -/
theorem startSources_seekSource {k : Bytes} {pool pool' : List PartSearch}
    {streams : List (List Bytes)}
    (hseek : List.Forall₂ (fun ps ps' => ps.seek z k = .ok ps') pool pool')
    (hdelivers : List.Forall₂ (PartSearch.asSource z).Delivers pool' streams) (i : ℕ) :
    HeapMerge.startSources (seekSource z k) i pool =
      HeapMerge.startSources (PartSearch.asSource z) i pool' := by
  induction hseek generalizing i streams with
  | nil => rfl
  | @cons ps ps' pool pool' hps _ ih =>
    obtain ⟨rem, streams, hrem, hrest, rfl⟩ := forall₂_cons_left_iff.mp hdelivers
    have hnext : (seekSource z k).next ps = (PartSearch.asSource z).next ps' := by
      change (do let ps ← ps.seek z k; ps.nextItem z) = ps'.nextItem z
      rw [hps, Outcome.ok_bind]
    rw [HeapMerge.startSources, HeapMerge.startSources, hnext, ih hrest (i + 1)]
    cases rem with
    | nil =>
      obtain ⟨ps₁, hps₁, herror⟩ := hrem
      have herror' : (seekSource z k).error ps₁ = none := herror
      simp only [hps₁, Outcome.ok_bind, Bool.false_eq_true, if_false, herror, herror']
    | cons item rem =>
      obtain ⟨ps₁, hps₁, _⟩ := hrem
      simp only [hps₁, Outcome.ok_bind, if_true]

/-- After the first `seek`, the next item is that of the merge. -/
theorem Started.nextItem_eq (h : Started z tables ts) :
    nextItem z ts = HeapMerge.next (PartSearch.asSource z) itemLess
      (fun msg => s!"cannot obtain the next block to search in the table: {msg}") ts := by
  have hnot : ¬ (ts.err.isNone && !ts.nextBlockNoop && ts.heap.isEmpty) = true := by
    intro hcond
    simp only [Bool.and_eq_true, Option.isNone_iff_eq_none, Array.isEmpty_iff_size_eq_zero] at hcond
    have := h.sources.active hcond.1.1
    omega
  rw [nextItem, if_neg hnot]

/-- The next item can be looked for, and the search may go on. -/
theorem Started.exists_nextItem (h : Started z tables ts) :
    ∃ has ts', nextItem z ts = .ok (has, ts') ∧ Started z tables ts' := by
  have hstep : ∀ g ps, StandsIn z g ps → ∃ has ps',
      (PartSearch.asSource z).next ps = .ok (has, ps') ∧ (PartSearch.asSource z).error ps' = none :=
    fun g ps hps => hps.2.exists_nextItem hps.1
  obtain ⟨has, ts', hnext, herror⟩ := h.sources.exists_next hstep h.error_eq itemLess
    (fun msg => s!"cannot obtain the next block to search in the table: {msg}")
  exact ⟨has, ts', h.nextItem_eq.trans hnext, herror, h.sources.next standsIn_nextItem hnext⟩

theorem Started.nextItem (h : Started z tables ts) {has : Bool} {ts' : TableSearch}
    (hnext : nextItem z ts = .ok (has, ts')) : Started z tables ts' := by
  obtain ⟨has₁, ts₁, hnext₁, hstarted⟩ := h.exists_nextItem
  rw [hnext₁] at hnext
  cases hnext
  exact hstarted

/-- The items of the merge are those of the search. -/
theorem Started.delivers (h : Started z tables ts) {es : List Bytes}
    (hdelivers : (HeapMerge.asSource (PartSearch.asSource z) itemLess
      (fun msg => s!"cannot obtain the next block to search in the table: {msg}")).Delivers ts es) :
    (asSource z).Delivers ts es := by
  induction es generalizing ts with
  | nil =>
    obtain ⟨ts', hnext, herror⟩ := hdelivers
    exact ⟨ts', h.nextItem_eq.trans hnext, herror⟩
  | cons e es ih =>
    obtain ⟨ts', hnext, hcur, hrest⟩ := hdelivers
    have hnext' : TableSearch.nextItem z ts = .ok (true, ts') := h.nextItem_eq.trans hnext
    exact ⟨ts', hnext', hcur, ih (h.nextItem hnext') hrest⟩

/-- What a search gives for `k`: sorted items that are at least `k`, every one of them that is in
the parts, and none more often than it is in the parts. -/
structure ItemsFrom (k : Bytes) (all es : List Bytes) : Prop where
  sorted : es.Pairwise (· ≤ ·)
  le : ∀ item ∈ es, k ≤ item
  mem : ∀ item ∈ all, k ≤ item → item ∈ es
  count_le : ∀ item, es.count item ≤ all.count item

/-- The tails of the parts have the items from `k` on. -/
theorem itemsFrom_of_perm {k : Bytes} {streams : List (List Bytes)} {es : List Bytes}
    (htails : List.Forall₂ (fun g rem => PartSearch.TailFrom k g.2.flatten.flatten rem)
      tables streams)
    (hperm : es ~ streams.flatten) (hsorted : es.Pairwise (· ≤ ·)) :
      ItemsFrom k (itemsOf tables) es := by
  have hstreams : (∀ item ∈ streams.flatten, k ≤ item) ∧
      (∀ item ∈ itemsOf tables, k ≤ item → item ∈ streams.flatten) ∧
      ∀ item, streams.flatten.count item ≤ (itemsOf tables).count item := by
    clear hperm
    induction htails with
    | nil => exact ⟨by simp, by simp [itemsOf], by simp⟩
    | @cons g rem tables streams htail _ ih =>
      obtain ⟨hle, hmem, hcount⟩ := ih
      rw [itemsOf, flatMap_cons, flatten_cons]
      refine ⟨fun item hitem => ?_, fun item hitem hk => ?_, fun item => ?_⟩
      · rcases mem_append.mp hitem with hitem | hitem
        · exact htail.le item hitem
        · exact hle item hitem
      · rcases mem_append.mp hitem with hitem | hitem
        · exact mem_append_left _ (htail.mem item hitem hk)
        · exact mem_append_right _ (hmem item hitem hk)
      · rw [count_append, count_append]
        exact Nat.add_le_add (htail.isSuffix.sublist.count_le item) (hcount item)
  obtain ⟨hle, hmem, hcount⟩ := hstreams
  refine ⟨hsorted, fun item hitem => hle item (hperm.mem_iff.mp hitem),
    fun item hitem hk => hperm.mem_iff.mpr (hmem item hitem hk), fun item => ?_⟩
  rw [hperm.count_eq]
  exact hcount item

/-- **Seek.** After `seek`, a search gives the items from `k` on. -/
theorem Ready.exists_seek (h : Ready z tables ts) (k : Bytes) :
    ∃ ts' es, seek z ts k = .ok ts' ∧ Started z tables ts' ∧ (asSource z).Delivers ts' es ∧
      ItemsFrom k (itemsOf tables) es := by
  obtain ⟨pool', streams, hseek, hstands, hdelivers, hstreams, htails⟩ := exists_seekAll h.meets k
  set describe := fun err : String => s!"cannot seek {k}: {err}" with hdescribe
  obtain ⟨m, es, hstart, hes, hperm, hsorted⟩ :=
    HeapMerge.exists_delivers_start itemLess id describe
    (fun msg => s!"cannot obtain the next block to search in the table: {msg}") hdelivers
  have hstart' : HeapMerge.start (seekSource z k) itemLess describe ts.pool = .ok m := by
    rw [← hstart, HeapMerge.start, HeapMerge.start, startSources_seekSource hseek hdelivers]
    rfl
  have hstarted : Started z tables m :=
    ⟨HeapMerge.error_of_start hdelivers hstart,
      HeapMerge.sourcesMeet_start standsIn_nextItem hstands hstart⟩
  have hitems : ItemsFrom k (itemsOf tables) es := by
    refine itemsFrom_of_perm htails hperm (hsorted ?_ hstreams)
    intro a _ b _
    rw [itemLess, decide_eq_decide]
    rfl
  have hnone : ¬ (error ts).isSome := by simp [h.error_eq]
  have hseek' : seek z ts k = .ok { m with nextBlockNoop :=
      m.nextBlockNoop || ts.nextBlockNoop } := by
    rw [seek, if_neg hnone, hstart', Outcome.ok_bind]
  rw [hseek']
  by_cases hrunning : m.err = none
  · have hnoop := HeapMerge.nextBlockNoop_of_start hstart hrunning
    refine ⟨m, es, ?_, hstarted, hstarted.delivers hes, hitems⟩
    rw [hnoop, Bool.true_or, ← hnoop]
  · -- the search has ended at once
    obtain ⟨err, herr⟩ := Option.ne_none_iff_exists'.mp hrunning
    have hend : HeapMerge.next (PartSearch.asSource z) itemLess
        (fun msg => s!"cannot obtain the next block to search in the table: {msg}") m =
        .ok (false, m) := by
      rw [HeapMerge.next, herr]
      rfl
    obtain rfl : es = [] := by
      cases es with
      | nil => rfl
      | cons e es =>
        obtain ⟨m', hnext, _⟩ := hes
        cases hend.symm.trans hnext
    set ts' : TableSearch := { m with nextBlockNoop :=
      m.nextBlockNoop || ts.nextBlockNoop } with hts'
    have hstarted' : Started z tables ts' :=
      ⟨hstarted.error_eq, hstarted.sources.meets, hstarted.sources.lt_length,
        hstarted.sources.active⟩
    have herr' : ts'.err = some err := herr
    refine ⟨ts', [], rfl, hstarted', hstarted'.delivers ⟨ts', ?_, hstarted.error_eq⟩, hitems⟩
    change HeapMerge.next _ _ _ ts' = _
    rw [HeapMerge.next, herr']
    rfl

/-- The first of the items from a prefix on has the prefix if any item has it. -/
theorem ItemsFrom.isPrefix_head {pre e : Bytes} {all es : List Bytes}
    (h : ItemsFrom pre all (e :: es))
    {item : Bytes} (hitem : item ∈ all) (hpre : pre <+: item) : pre <+: e ∧ e ≤ item := by
  have hle : pre ≤ item := by
    obtain ⟨suffix, rfl⟩ := hpre
    exact le_append_right pre suffix
  have hmin : e ≤ item := by
    rcases mem_cons.mp (h.mem item hitem hle) with rfl | hmem
    · exact le_rfl
    · exact (pairwise_cons.mp h.sorted).1 item hmem
  exact ⟨isPrefix_of_between (prefix_refl pre) hpre (h.le e mem_cons_self) hmin, hmin⟩

/-- What `first_item_with_prefix` returns: the smallest item with the prefix, if there is one. -/
structure FindsPrefix (z : Zstd) (pre : Bytes) (all : List Bytes) (res : Except HeapMergeError Unit)
    (ts : TableSearch) : Prop where
  found : (∃ item ∈ all, pre <+: item) →
    res = .ok () ∧ item z ts ∈ all ∧ pre <+: item z ts ∧ ∀ other ∈ all,
    pre <+: other → item z ts ≤ other
  notFound : (¬ ∃ item ∈ all, pre <+: item) → res = .error .eof

theorem Ready.exists_firstItemWithPrefix (h : Ready z tables ts) (pre : Bytes) :
    ∃ res ts', firstItemWithPrefix z ts pre = .ok (res, ts') ∧ Started z tables ts' ∧
      FindsPrefix z pre (itemsOf tables) res ts' := by
  obtain ⟨ts₁, es, hseek, hstarted, hdelivers, hitems⟩ := h.exists_seek pre
  match es, hdelivers, hitems with
  | [], ⟨ts₂, hnext, herror⟩, hitems =>
    have hnext' : TableSearch.nextItem z ts₁ = .ok (false, ts₂) := hnext
    have herror' : error ts₂ = none := herror
    refine ⟨.error .eof, ts₂, ?_, hstarted.nextItem hnext', ?_, fun _ => rfl⟩
    · simp only [firstItemWithPrefix, hseek, Outcome.ok_bind, hnext', herror',
        Bool.not_false, if_true]
    · rintro ⟨item, hitem, suffix, rfl⟩
      exact absurd (hitems.mem _ hitem (le_append_right pre suffix)) (by simp)
  | e :: es, ⟨ts₂, hnext, hcur, _⟩, hitems =>
    have hnext' : TableSearch.nextItem z ts₁ = .ok (true, ts₂) := hnext
    have hcur' : item z ts₂ = e := hcur
    have hstarted₂ := hstarted.nextItem hnext'
    have hmem : e ∈ itemsOf tables := by
      rw [← one_le_count_iff]
      refine le_trans ?_ (hitems.count_le e)
      rw [count_cons_self]
      omega
    by_cases hpre : pre <+: e
    · refine ⟨.ok (), ts₂, ?_, hstarted₂, fun _ => ⟨rfl, ?_, ?_, ?_⟩, fun hnot => ?_⟩
      · simp only [firstItemWithPrefix, hseek, Outcome.ok_bind, hnext', hstarted₂.error_eq, hcur',
          isPrefixOf_iff_prefix.mpr hpre, Bool.not_true, Bool.false_eq_true, if_false, if_true]
      · rwa [hcur']
      · rwa [hcur']
      · intro other hother hpre'
        rw [hcur']
        exact (hitems.isPrefix_head hother hpre').2
      · exact absurd ⟨e, hmem, hpre⟩ hnot
    · have hnot : ¬ pre.isPrefixOf e = true := mt isPrefixOf_iff_prefix.mp hpre
      refine ⟨.error .eof, ts₂, ?_, hstarted₂, ?_, fun _ => rfl⟩
      · simp only [firstItemWithPrefix, hseek, Outcome.ok_bind, hnext', hstarted₂.error_eq, hcur',
          if_neg hnot, Bool.not_true, Bool.false_eq_true, if_false]
      · rintro ⟨item, hitem, hpre'⟩
        exact absurd (hitems.isPrefix_head hitem hpre').1 hpre

/-! ### Histories -/

/-- The calls but the first `next_item` keep the search in order. -/
theorem Ready.exists_call (h : Ready z tables ts) {c : Call}
    (hc : Started z tables ts ∨ c ≠ .nextItem) :
    ∃ ts', call z ts c = .ok ts' ∧ Started z tables ts' := by
  match c, hc with
  | .seek k, _ =>
    obtain ⟨ts', -, hseek, hstarted, -⟩ := h.exists_seek k
    exact ⟨ts', hseek, hstarted⟩
  | .nextItem, .inl hstarted =>
    obtain ⟨has, ts', hnext, hstarted'⟩ := hstarted.exists_nextItem
    refine ⟨ts', ?_, hstarted'⟩
    rw [call, hnext, Outcome.ok_bind]
  | .nextItem, .inr hc => exact absurd rfl hc
  | .firstItemWithPrefix pre, _ =>
    obtain ⟨res, ts', hfirst, hstarted, -⟩ := h.exists_firstItemWithPrefix pre
    refine ⟨ts', ?_, hstarted⟩
    rw [call, hfirst, Outcome.ok_bind]

theorem Started.exists_run (h : Started z tables ts) (calls : List Call) :
    ∃ ts', run z ts calls = .ok ts' ∧ Started z tables ts' := by
  induction calls generalizing ts with
  | nil => exact ⟨ts, rfl, h⟩
  | cons c calls ih =>
    obtain ⟨ts₁, hcall, hstarted⟩ := h.ready.exists_call (.inl h)
    obtain ⟨ts', hrun, hstarted'⟩ := ih hstarted
    refine ⟨ts', ?_, hstarted'⟩
    rw [run, hcall, Outcome.ok_bind, hrun]

theorem ready_new (h : ∀ g ∈ tables, g.1.Holds z g.2) :
    Ready z tables (new (tables.map Prod.fst)) := by
  refine ⟨rfl, ?_⟩
  rw [new, map_map, forall₂_map_right_iff, forall₂_same]
  exact fun g hg => ⟨h g hg, PartSearch.stands_new z⟩

/-- A history returns unless it begins with `next_item`, and the search may go on. -/
theorem ready_run (h : ∀ g ∈ tables, g.1.Holds z g.2) (calls : List Call) :
    (calls.head? = some .nextItem ∧ (run z (new (tables.map Prod.fst)) calls).Panics) ∨
    ∃ ts, run z (new (tables.map Prod.fst)) calls = .ok ts ∧ Ready z tables ts := by
  have hnew := ready_new h
  match calls with
  | [] => exact .inr ⟨_, rfl, hnew⟩
  | .nextItem :: calls => exact .inl ⟨rfl, _, rfl⟩
  | .seek k :: calls =>
    obtain ⟨ts₁, hcall, hstarted⟩ := hnew.exists_call (c := .seek k) (.inr (by simp))
    obtain ⟨ts, hrun, hstarted'⟩ := hstarted.exists_run calls
    exact .inr ⟨ts, by rw [run, hcall, Outcome.ok_bind, hrun], hstarted'.ready⟩
  | .firstItemWithPrefix pre :: calls =>
    obtain ⟨ts₁, hcall, hstarted⟩ := hnew.exists_call (c :=
      .firstItemWithPrefix pre) (.inr (by simp))
    obtain ⟨ts, hrun, hstarted'⟩ := hstarted.exists_run calls
    exact .inr ⟨ts, by rw [run, hcall, Outcome.ok_bind, hrun], hstarted'.ready⟩

end Seek

/-- **Search in a table.** For every history of calls, which returns unless it begins with
`next_item`: after `seek`, repeated `next_item` gives the sorted items from the key on and then ends
without an error, and `first_item_with_prefix` finds the smallest item with the prefix if there is
one. -/
theorem tableSearch_spec {z : Zstd} {tables : List (Part × List (List (List Bytes)))}
    (hparts : ∀ g ∈ tables, g.1.Holds z g.2) (calls : List Call) :
    (calls.head? = some .nextItem ∧ (run z (new (tables.map Prod.fst)) calls).Panics) ∨
    ∃ ts, run z (new (tables.map Prod.fst)) calls = .ok ts ∧
      (∀ k, ∃ ts' es, seek z ts k = .ok ts' ∧ (asSource z).Delivers ts' es ∧
        es.Pairwise (· ≤ ·) ∧ (∀ item ∈ es, k ≤ item) ∧
        (∀ item ∈ itemsOf tables, k ≤ item → item ∈ es) ∧
        ∀ item, es.count item ≤ (itemsOf tables).count item) ∧
      ∀ pre, ∃ res ts', firstItemWithPrefix z ts pre = .ok (res, ts') ∧
        (res = .ok () ↔ ∃ item ∈ itemsOf tables, pre <+: item) ∧
        (res = .ok () → item z ts' ∈ itemsOf tables ∧ pre <+: item z ts' ∧
          ∀ other ∈ itemsOf tables, pre <+: other → item z ts' ≤ other) := by
  refine (ready_run hparts calls).imp id fun ⟨ts, hrun, hready⟩ =>
    ⟨ts, hrun, fun k => ?_, fun pre => ?_⟩
  · obtain ⟨ts', es, hseek, -, hdelivers, hitems⟩ := hready.exists_seek k
    exact ⟨ts', es, hseek, hdelivers, hitems.sorted, hitems.le, hitems.mem, hitems.count_le⟩
  · obtain ⟨res, ts', hfirst, -, hfinds⟩ := hready.exists_firstItemWithPrefix pre
    have hiff : res = .ok () ↔ ∃ item ∈ itemsOf tables, pre <+: item := by
      refine ⟨fun hres => ?_, fun hex => (hfinds.found hex).1⟩
      by_contra hnot
      rw [hfinds.notFound hnot] at hres
      cases hres
    exact ⟨res, ts', hfirst, hiff, fun hres => (hfinds.found (hiff.mp hres)).2⟩

/-- A part with the items 1 and 2 in a block and 3 in another one. -/
def threeItems : Part where
  ph := ⟨3, 2, [1], [3]⟩
  path := ""
  mrs := [⟨[1], 2, 0, 65⟩]
  indexFile := compressZstdLevel Zstd.stored []
    (BlockHeader.marshal ⟨[], [3], .plain, 1, 1, 8, 0, 0⟩
      (BlockHeader.marshal ⟨[], [1], .plain, 2, 0, 0, 1, 8⟩ [])) 1
  itemsFile := [2]
  lensFile := marshalUint64 [] 1

theorem holds_threeItems : threeItems.Holds Zstd.stored [[[[1], [2]], [[3]]]] := by
  have hfirst : threeItems.HoldsBlock Zstd.stored ⟨[], [1], .plain, 2, 0, 0, 1, 8⟩ [[1], [2]] :=
    ⟨rfl, [], by decide +kernel, by simp⟩
  have hsecond : threeItems.HoldsBlock Zstd.stored ⟨[], [3], .plain, 1, 1, 8, 0, 0⟩ [[3]] :=
    ⟨rfl, [], by decide +kernel, by simp⟩
  have hrow : threeItems.HoldsRow Zstd.stored ⟨[1], 2, 0, 65⟩ [[[1], [2]], [[3]]] :=
    ⟨rfl, _, by decide +kernel, .cons hfirst (.cons hsecond .nil)⟩
  exact ⟨.cons hrow .nil, by decide, rfl, rfl⟩

/-- After a `seek` behind the last item, 2 is found in both parts. -/
theorem tableSearch_spec_twice :
    ∃ ts, run Zstd.stored (new [threeItems, threeItems]) [.seek [4], .nextItem] = .ok ts ∧
      ∃ ts' es, seek Zstd.stored ts [2] = .ok ts' ∧ (asSource Zstd.stored).Delivers ts' es ∧
        [2] ∈ es ∧ [3] ∈ es ∧ [1] ∉ es := by
  have htables : ∀ g ∈ List.replicate 2 (threeItems, [[[[1], [2]], [[(3 : UInt8)]]]]),
      g.1.Holds Zstd.stored g.2 := by
    intro g hg
    rw [eq_of_mem_replicate hg]
    exact holds_threeItems
  obtain ⟨hhead, -⟩ | ⟨ts, hrun, hseek, -⟩ := tableSearch_spec htables [.seek [4], .nextItem]
  · cases hhead
  · obtain ⟨ts', es, hts', hdelivers, -, hle, hmem, -⟩ := hseek [2]
    refine ⟨ts, hrun, ts', es, hts', hdelivers, hmem _ (by decide) (by decide),
      hmem _ (by decide) (by decide), fun h => ?_⟩
    exact absurd (hle _ h) (by decide)

end TableSearch

end Esmetrics.Mergeset
