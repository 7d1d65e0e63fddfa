import Esmetrics.Storage.BlockStream.Reader
import Esmetrics.Storage.PartSearch

/-!
# Opening a part

Model of `Part::new` of `esm-storage/src/part/mod.rs`, of `new_part` of `inmemory.rs` and of
`BlockRef::read_block` of `search.rs`: a part is opened from its files, and the block of a header is
read at the offsets in the header.

A part that was written is laid out as the search demands, and the blocks of its headers are read
back at their own places (`writePart_laidOut`), also where blocks share their timestamps.
-/

namespace Esmetrics

open List

/-- A part with the files of its data. -/
structure PartFiles extends Part where
  timestampsFile : Bytes
  valuesFile : Bytes

namespace PartFiles

variable (z : Zstd)

/-- Opens a part; a metaindex that cannot be read is fatal. -/
def new (ph : PartHeader) (path : String)
    (metaindexData timestampsFile valuesFile indexFile : Bytes) :
    Outcome PartFiles :=
  match unmarshalMetaindexRows z metaindexData with
  | .ok metaindex => .ok ⟨⟨ph, indexFile, metaindex⟩, timestampsFile, valuesFile⟩
  | .err err => .panic s!"FATAL: cannot unmarshal metaindex data from \"{path}\": {err}"
  | .panic msg => .panic msg

/-- Reads the block of a header. -/
def readBlock (p : PartFiles) (bh : BlockHeader) : Outcome Block := do
  let timestampsData ← mustReadAt p.timestampsFile bh.timestampsBlockSize.toNat
      bh.timestampsBlockOffset
  let valuesData ← mustReadAt p.valuesFile bh.valuesBlockSize.toNat bh.valuesBlockOffset
  unmarshalBlockData z bh timestampsData valuesData

end PartFiles

/-- Opens an in-memory part. -/
def InmemoryPart.newPart (z : Zstd) (mp : InmemoryPart) : Outcome PartFiles :=
  PartFiles.new z mp.ph "" mp.metaindexData mp.timestampsData mp.valuesData mp.indexData

/-! ### Data at an offset -/

theorem mustReadAt_middle {before : Bytes} (data after : Bytes) {off : UInt64}
    (hoff : off.toNat = before.length) :
    mustReadAt (before ++ data ++ after) data.length off = .ok data := by
  rw [mustReadAt, hoff,
    Outcome.assert_of (by rw [length_append, length_append]; omega), Outcome.ok_bind,
    append_assoc, drop_left, take_left, Outcome.pure_eq_ok]

theorem toNat_add_length {off : UInt64} {before : Bytes} (data : Bytes)
    (hoff : off.toNat = before.length)
    (hlt : (before ++ data).length < 2 ^ 64) :
    (off + UInt64.ofNat data.length).toNat = (before ++ data).length := by
  rw [length_append] at hlt ⊢
  rw [UInt64.toNat_add, UInt64.toNat_ofNat', hoff,
    Nat.mod_eq_of_lt (by omega : data.length < 2 ^ 64), Nat.mod_eq_of_lt hlt]

/-- The cursor is at the end of `before`, with the timestamps that were stored last. -/
structure DataCursor.EndsAt (c : DataCursor) (before valuesBefore : Bytes) : Prop where
  timestamps : c.timestampsOffset.toNat = before.length
  values : c.valuesOffset.toNat = valuesBefore.length
  prev : c.prevTimestampsData ≠ [] → ∃ pre post, before = pre ++ c.prevTimestampsData ++ post ∧
    c.prevTimestampsOffset.toNat = pre.length

/-- Every packed block is at the offsets of its header. -/
theorem DataCursor.EndsAt.reads {c : DataCursor} {ps : List Block} {before valuesBefore : Bytes}
    (h : c.EndsAt before valuesBefore) (hloc : c.LocatesAll ps)
    (hlt : (before ++ c.timestampsFile ps).length < 2 ^ 64)
    (hvlt : (valuesBefore ++ ps.flatMap Block.valuesData).length < 2 ^ 64) :
    ∀ p ∈ ps, mustReadAt (before ++ c.timestampsFile ps) p.timestampsData.length
        p.bh.timestampsBlockOffset = .ok p.timestampsData ∧
      mustReadAt (valuesBefore ++ ps.flatMap Block.valuesData) p.valuesData.length
        p.bh.valuesBlockOffset = .ok p.valuesData := by
  induction ps generalizing c before valuesBefore with
  | nil => simp
  | cons p ps ih =>
    obtain ⟨⟨htimestamps, hvalues⟩, hloc⟩ := hloc
    rw [flatMap_cons, ← append_assoc] at hvlt ⊢
    rw [DataCursor.timestampsFile, ← append_assoc] at hlt ⊢
    have hvread := mustReadAt_middle p.valuesData (ps.flatMap Block.valuesData) (hvalues ▸ h.values)
    have hvend := toNat_add_length p.valuesData h.values (by
      rw [length_append] at hvlt
      omega)
    -- the timestamps of `p` are those that were stored last, or are stored now
    have hstep : (c.next p).EndsAt (before ++ c.stored p) (valuesBefore ++ p.valuesData) ∧
        mustReadAt (before ++ c.stored p ++ (c.next p).timestampsFile ps) p.timestampsData.length
          p.bh.timestampsBlockOffset = .ok p.timestampsData := by
      rw [DataCursor.next, DataCursor.stored] at hlt ⊢
      by_cases hshares : c.shares p
      · simp only [if_pos hshares, append_nil] at htimestamps hlt ⊢
        obtain ⟨hne, heq⟩ := of_decide_eq_true hshares
        obtain ⟨pre, post, hbefore, hoff⟩ := h.prev hne
        refine ⟨⟨h.timestamps, hvend, h.prev⟩, ?_⟩
        rw [hbefore, heq, append_assoc _ post]
        exact mustReadAt_middle _ _ (htimestamps ▸ hoff)
      · simp only [if_neg hshares] at htimestamps hlt ⊢
        have hend := toNat_add_length p.timestampsData h.timestamps (by
          rw [length_append] at hlt
          omega)
        exact ⟨⟨hend, hvend, fun _ => ⟨before, [], (append_nil _).symm, h.timestamps⟩⟩,
          mustReadAt_middle _ _ (htimestamps ▸ h.timestamps)⟩
    intro q hq
    rcases mem_cons.mp hq with rfl | hq
    · exact ⟨hstep.2, hvread⟩
    · exact ih hstep.1 hloc hlt hvlt q hq

/-! ### Index blocks -/

/-- The range of a metaindex row holds those of its headers. -/
theorem registeredRow_range {g : List Block} (hlen : g.length < 2 ^ 32) : ∀ p ∈ g,
    (registeredRow g).minTimestamp ≤ p.bh.minTimestamp ∧
      p.bh.maxTimestamp ≤ (registeredRow g).maxTimestamp := by
  induction g using List.reverseRecOn with
  | nil => simp
  | append_singleton g p ih =>
    rw [length_append, length_singleton] at hlen
    intro q hq
    rw [registeredRow, foldl_concat, ← registeredRow]
    by_cases hg : g = []
    · subst hg
      obtain rfl := mem_singleton.mp hq
      exact ⟨le_rfl, le_rfl⟩
    · have hcount : (registeredRow g).blockHeadersCount + 1 ≠ 1 := by
        intro h
        have hnat := congrArg UInt32.toNat h
        rw [UInt32.toNat_add, (registeredRow_spec hg (by omega)).1, UInt32.toNat_one,
          Nat.mod_eq_of_lt hlen] at hnat
        exact hg (length_eq_zero_iff.mp (by omega))
      simp only [MetaindexRow.registerBlockHeader, hcount, if_false]
      rcases mem_append.mp hq with hq | hq
      · obtain ⟨hmin, hmax⟩ := ih (by omega) q hq
        split_ifs with h1 h2 h2
        · exact ⟨h1.le.trans hmin, hmax.trans (le_of_lt h2)⟩
        · exact ⟨h1.le.trans hmin, hmax⟩
        · exact ⟨hmin, hmax.trans (le_of_lt h2)⟩
        · exact ⟨hmin, hmax⟩
      · obtain rfl := mem_singleton.mp hq
        split_ifs with h1 h2 h2
        · exact ⟨le_rfl, le_rfl⟩
        · exact ⟨le_rfl, not_lt.mp h2⟩
        · exact ⟨not_lt.mp h1, le_rfl⟩
        · exact ⟨not_lt.mp h1, not_lt.mp h2⟩

variable {z : Zstd} {compressLevel : ℤ} {gs : List (List Block)} {bs : List Block}

/-- The rows of consecutive index blocks describe their headers. -/
theorem describes_indexRows (hz : z.RoundTrips) (hfit : z.IndexBlocksFit) {p : Part}
    {before : Bytes}
    {offset : UInt64} (hgs : ∀ g ∈ gs, IsIndexGroup g)
    (hvalid : ∀ q ∈ gs.flatten, q.bh.validate = .ok ())
    (hsorted : (gs.flatten.map fun q => q.bh.tsid).Pairwise (· ≤ ·))
    (hoff : offset.toNat = before.length)
    (hfile : p.indexFile = before ++ gs.flatMap (indexBlock z compressLevel))
    (hlt : p.indexFile.length < 2 ^ 64) :
    List.Forall₂ (MetaindexRow.Describes z p) (indexRows z compressLevel offset gs)
      (gs.map fun g => g.map Block.bh) := by
  induction gs generalizing before offset with
  | nil => exact .nil
  | cons g gs ih =>
    have hg := hgs g mem_cons_self
    rw [flatten_cons] at hsorted hvalid
    rw [map_append, pairwise_append] at hsorted
    rw [flatMap_cons, ← append_assoc] at hfile
    obtain ⟨hcount, hhead, -⟩ := registeredRow_spec hg.1 hg.length_lt
    have hrange := registeredRow_range hg.length_lt
    have hflat : (g.map Block.bh).flatMap (fun bh => bh.marshal []) = g.flatMap fun q =>
        q.bh.marshal [] :=
      flatMap_map _ _ _
    refine .cons ⟨?_, fun bh hbh => ?_, fun bh hbh => ?_, ?_⟩ (ih
      (fun g hg => hgs g (mem_cons_of_mem _ hg)) (fun q hq => hvalid q (mem_append_right _ hq))
      hsorted.2.1 (toNat_add_length _ hoff ?_) hfile)
    · obtain ⟨q, g', rfl⟩ := exists_cons_of_ne_nil hg.1
      exact ⟨q.bh, rfl, (Option.some.inj hhead).symm⟩
    · obtain ⟨q, hq, rfl⟩ := mem_map.mp hbh
      exact (hrange q hq).1
    · obtain ⟨q, hq, rfl⟩ := mem_map.mp hbh
      exact (hrange q hq).2
    · refine Part.readIndexBlock_eq hz (mt map_eq_nil_iff.mp hg.1) (fun bh hbh => ?_) ?_
        (by rw [hflat]; exact hfile) hoff ?_ ?_
      · obtain ⟨q, hq, rfl⟩ := mem_map.mp hbh
        exact hvalid q (mem_append_left _ hq)
      · rw [map_map]
        exact hsorted.1
      · rw [hflat]
        exact BlockStreamReader.toNat_indexBlockSize compressLevel hfit hg offset
      · rw [length_map]
        exact hcount
    · rw [hfile, length_append] at hlt
      omega

/-! ### Parts that were written -/

theorem length_flatMap_lt {α : Type} {l : List α} {f : α → Bytes}
    (h : ∀ a ∈ l, (f a).length < 2 ^ 32)
    (hl : l.length ≤ 2 ^ 32) : (l.flatMap f).length < 2 ^ 64 := by
  have hle : (l.flatMap f).length ≤ l.length * (2 ^ 32 - 1) := by
    rw [length_flatMap, ← length_map (fun a => (f a).length), ← smul_eq_mul]
    refine sum_le_card_nsmul _ _ fun n hn => ?_
    obtain ⟨a, ha, rfl⟩ := mem_map.mp hn
    exact Nat.le_pred_of_lt (h a ha)
  omega

theorem length_timestampsFile_le (c : DataCursor) (ps : List Block) :
    (c.timestampsFile ps).length ≤ (ps.flatMap Block.timestampsData).length := by
  induction ps generalizing c with
  | nil => exact le_rfl
  | cons p ps ih =>
    have hstored : (c.stored p).length ≤ p.timestampsData.length := by
      rw [DataCursor.stored]
      split_ifs <;> simp
    rw [DataCursor.timestampsFile, flatMap_cons, length_append, length_append]
    exact Nat.add_le_add hstored (ih _)

/-- The files of a part can be addressed. -/
theorem IsLayoutOf.length_lt {part : InmemoryPart} (h : IsLayoutOf z compressLevel bs gs part)
    (hfit : z.IndexBlocksFit) (hlen : bs.length ≤ 2 ^ 32) :
    part.timestampsData.length < 2 ^ 64 ∧ part.valuesData.length < 2 ^ 64 ∧
      part.indexData.length < 2 ^ 64 := by
  have hps : ∀ p ∈ gs.flatten, p.timestampsData.length < 2 ^ 32 ∧ p.valuesData.length < 2 ^ 32 := by
    intro p hp
    obtain ⟨b, -, hpacks⟩ := exists_of_mem_left h.packs.flip hp
    rw [← hpacks.timestampsBlockSize_eq, ← hpacks.valuesBlockSize_eq]
    exact ⟨UInt32.toNat_lt _, UInt32.toNat_lt _⟩
  have hflat : gs.flatten.length ≤ 2 ^ 32 := h.packs.length_eq ▸ hlen
  have hgs : gs.length ≤ gs.flatten.length := by
    rw [length_flatten, ← length_map List.length]
    refine length_le_sum_of_one_le _ fun n hn => ?_
    obtain ⟨g, hg, rfl⟩ := mem_map.mp hn
    exact length_pos_iff.mpr (h.isIndexGroup g hg).1
  refine ⟨?_, ?_, ?_⟩
  · rw [h.timestampsData_eq]
    exact (length_timestampsFile_le _ _).trans_lt
      (length_flatMap_lt (fun p hp => (hps p hp).1) hflat)
  · rw [h.valuesData_eq]
    exact length_flatMap_lt (fun p hp => (hps p hp).2) hflat
  · rw [h.indexData_eq]
    refine length_flatMap_lt (fun g hg => ?_) (hgs.trans hflat)
    rw [← BlockStreamReader.toNat_indexBlockSize compressLevel hfit (h.isIndexGroup g hg) 0]
    exact UInt32.toNat_lt _

/-- Headers in the order of a part are sorted by series. -/
theorem pairwise_tsid_of_headerOrder {ps : List Block}
    (h : (ps.map Block.bh).Pairwise HeaderOrder) :
    (ps.map fun p => p.bh.tsid).Pairwise (· ≤ ·) := by
  rw [pairwise_map] at h ⊢
  refine h.imp fun hab => ?_
  rcases hab with hlt | ⟨heq, -⟩
  · exact hlt.le
  · exact heq.le

/-- **A written part is searchable.** Blocks in the order of a part are written; the part is opened,
and is laid out as the search demands. Its headers are those of the blocks, in their order, with
their series and their first and last timestamps, and each of them leads to the content of its
block. -/
theorem writePart_laidOut (hz : z.RoundTrips) (hfit : z.IndexBlocksFit) (compressLevel : ℤ)
    (hne : bs ≠ [])
    (hlen : bs.length ≤ 2 ^ 32) (hbs : ∀ b ∈ bs, b.Writable)
    (horder : bs.Pairwise fun a b => a.bh.tsid < b.bh.tsid ∨
      a.bh.tsid = b.bh.tsid ∧ a.unreadTimestamps.headD 0 ≤ b.unreadTimestamps.headD 0) :
    ∃ part p blocks, writePart z 0 compressLevel bs = .ok part ∧ part.newPart z = .ok p ∧
      p.toPart.LaidOut z blocks ∧
      List.Forall₂ (fun b bh => bh.tsid = b.bh.tsid ∧ b.unreadTimestamps.head? =
        some bh.minTimestamp ∧
        b.unreadTimestamps.getLast? = some bh.maxTimestamp ∧
        ∃ b', p.readBlock z bh = .ok b' ∧ b'.content = b.content) bs blocks.flatten := by
  obtain ⟨part, gs, hwrite, h⟩ := exists_writePart hz hfit compressLevel hbs
  obtain ⟨htlt, hvlt, hilt⟩ := h.length_lt hfit hlen
  obtain ⟨-, -, hleast, hgreatest⟩ := h.ph_spec hne hbs
  have hkeys : (bs.map fun b => (b.bh.tsid, b.unreadTimestamps.headD 0)) =
      gs.flatten.map fun p => (p.bh.tsid, p.bh.minTimestamp) := by
    rw [← forall₂_eq_eq_eq, forall₂_map_left_iff, forall₂_map_right_iff]
    refine h.packs.imp fun b p hp => ?_
    rw [hp.tsid_eq, headD_eq_head?_getD, hp.minTimestamp_eq, Option.getD_some]
  -- the headers are in the order of the blocks
  have hsorted : (gs.flatten.map Block.bh).Pairwise HeaderOrder := by
    have hpairs : (bs.map fun b => (b.bh.tsid, b.unreadTimestamps.headD 0)).Pairwise fun x y =>
        x.1 < y.1 ∨ x.1 = y.1 ∧ x.2 ≤ y.2 := pairwise_map.mpr horder
    rw [hkeys, pairwise_map] at hpairs
    exact pairwise_map.mpr hpairs
  have hvalid : ∀ p ∈ gs.flatten, p.bh.validate = .ok () := by
    intro p hp
    obtain ⟨b, -, hpacks⟩ := exists_of_mem_left h.packs.flip hp
    exact hpacks.validate_eq
  have hrange : ∀ p ∈ gs.flatten, p.bh.minTimestamp ≤ p.bh.maxTimestamp ∧
      part.ph.minTimestamp ≤ p.bh.minTimestamp ∧ p.bh.maxTimestamp ≤ part.ph.maxTimestamp := by
    intro p hp
    obtain ⟨b, hb, hpacks⟩ := exists_of_mem_left h.packs.flip hp
    have hfirst := mem_of_head? hpacks.minTimestamp_eq
    have hlast := mem_of_getLast? hpacks.maxTimestamp_eq
    refine ⟨?_, hleast.2 ⟨b, hb, hfirst⟩, hgreatest.2 ⟨b, hb, hlast⟩⟩
    obtain ⟨rest, hrest⟩ := head?_eq_some_iff.mp hpacks.minTimestamp_eq
    have hts := (hbs b hb).sorted
    rw [hrest] at hts hlast
    rcases mem_cons.mp hlast with heq | hlast
    · exact heq.ge
    · exact (pairwise_cons.mp hts).1 _ hlast
  have hrows : indexRows z compressLevel 0 gs ≠ [] := by
    intro hnil
    cases gs with
    | nil => exact hne (forall₂_nil_right_iff.mp h.packs)
    | cons g gs => cases hnil
  have htsids := pairwise_tsid_of_headerOrder hsorted
  have hopen := unmarshalMetaindexRows_marshal hz hrows
    (validate_of_mem_indexRows hfit h.isIndexGroup 0)
    (pairwise_tsid_indexRows h.isIndexGroup htsids 0).1 compressLevel
  rw [← h.metaindexData_eq] at hopen
  have hfile : part.indexData = [] ++ gs.flatMap (indexBlock z compressLevel) := h.indexData_eq
  have hstart : DataCursor.start.EndsAt [] [] := ⟨rfl, rfl, fun hp => absurd rfl hp⟩
  have hreads := hstart.reads h.locatesAll (by rwa [h.timestampsData_eq] at htlt)
    (by rwa [h.valuesData_eq] at hvlt)
  rw [nil_append, nil_append, ← h.timestampsData_eq, ← h.valuesData_eq] at hreads
  refine ⟨part, ⟨⟨part.ph, part.indexData, _⟩, part.timestampsData, part.valuesData⟩, _, hwrite, ?_,
    ⟨describes_indexRows hz hfit h.isIndexGroup hvalid htsids
      (rfl : (0 : UInt64).toNat = ([] : Bytes).length) hfile hilt,
      ?_, ?_, ?_, ?_⟩, ?_⟩
  · rw [InmemoryPart.newPart, PartFiles.new, hopen]
  all_goals rw [← map_flatten]
  · exact hsorted
  · exact forall_mem_map.mpr fun p hp => (hrange p hp).1
  · exact forall_mem_map.mpr fun p hp => (hrange p hp).2.1
  · exact forall_mem_map.mpr fun p hp => (hrange p hp).2.2
  · rw [forall₂_map_right_iff, forall₂_iff_zip]
    refine ⟨h.packs.length_eq, fun {b p} hbp => ?_⟩
    have hpacks := (forall₂_iff_zip.mp h.packs).2 hbp
    obtain ⟨htimestamps, hvalues⟩ := hreads p (of_mem_zip hbp).2
    refine ⟨hpacks.tsid_eq, hpacks.minTimestamp_eq, hpacks.maxTimestamp_eq, b.readBack p, ?_, ?_⟩
    · rw [PartFiles.readBlock, hpacks.timestampsBlockSize_eq, hpacks.valuesBlockSize_eq]
      rw [htimestamps, Outcome.ok_bind, hvalues, Outcome.ok_bind, hpacks.unmarshalBlockData_eq]
    · rw [Block.content, Block.content, ← hpacks.tsid_eq, ← hpacks.scale_eq]
      rfl

/-- Two series that share their timestamps. -/
theorem writePart_laidOut_shared :
    ∃ part p blocks, writePart Zstd.stored 0 1
          [.ofRows ⟨1, 2, 3, 4⟩ [10, 20, 40] [5, 6, 9],
            .ofRows ⟨1, 2, 3, 5⟩ [10, 20, 40] [7, 7, 7]] =
        .ok part ∧
      part.newPart Zstd.stored = .ok p ∧ p.toPart.LaidOut Zstd.stored blocks := by
  have hwritable : ∀ b ∈ [Block.ofRows ⟨1, 2, 3, 4⟩ [10, 20, 40] [5, 6, 9],
      .ofRows ⟨1, 2, 3, 5⟩ [10, 20, 40] [7, 7, 7]], b.Writable := by
    intro b hb
    rcases mem_cons.mp hb with rfl | hb
    · exact ⟨rfl, by decide, by decide, by decide, rfl⟩
    · rw [mem_singleton.mp hb]
      exact ⟨rfl, by decide, by decide, by decide, rfl⟩
  obtain ⟨part, p, blocks, hwrite, hopen, hlaid, -⟩ := writePart_laidOut Zstd.roundTrips_stored
    Zstd.indexBlocksFit_stored 1 (by decide) (by decide) hwritable (by decide)
  exact ⟨part, p, blocks, hwrite, hopen, hlaid⟩

end Esmetrics
