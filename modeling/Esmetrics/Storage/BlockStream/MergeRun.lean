import Esmetrics.Storage.BlockStream.Merger
import Mathlib.Algebra.BigOperators.Group.Multiset.Basic
import Mathlib.Algebra.Order.Group.Multiset
import Mathlib.Tactic.Abel

/-!
# Runs of the merge

What the merge of block streams does with its blocks, one after the other, seen through the pending
block, the blocks handed to the writer and the counters (`MergeView`). `MergeView.Step` says what
one block can do to it, and every property of a whole merge is an invariant of these steps.

No row is lost or doubled, and the counters are those of the rows (`mergeBlockStreams_conserves`).
-/

namespace Esmetrics

open List Option

/-- A block as a reader returns it: loaded, with the true number of rows in its header. -/
structure Block.Fresh (b : Block) : Prop extends b.Loaded where
  rowsCount_eq : b.bh.rowsCount.toNat = b.values.length

/-- The blocks that are read back from a written part are fresh. -/
theorem Block.Packs.fresh_readBack {z : Zstd} {b p : Block} (hb : b.Writable)
    (hp : Block.Packs z b p) : (b.readBack p).Fresh where
  nextIdx_eq := rfl
  length_eq := hp.length_eq.symm
  values_ne := hb.unreadValues_ne_nil
  timestampsData_eq := rfl
  valuesData_eq := rfl
  sorted := hb.sorted
  minTimestamp_eq := hp.minTimestamp_eq
  maxTimestamp_eq := hp.maxTimestamp_eq
  precisionBits_eq := hp.precisionBits_eq.trans hb.precisionBits_eq
  rowsCount_eq := hp.rowsCount_eq

/-- The merge drops all the rows of the block. -/
def Block.IsDropped (dmis : Option Uint64Set) (retentionDeadline : Int64) (b : Block) : Prop :=
  (dmis.any fun dmis => dmis.has b.bh.tsid.metricId) = true ∨ b.bh.maxTimestamp < retentionDeadline

/-- What is observed of a merge. -/
structure MergeView where
  pending : Option Block
  /-- The blocks that were handed to the writer. -/
  written : List Block
  merged : ℕ
  deleted : ℕ

def MergeState.view (s : MergeState) : MergeView :=
  ⟨if s.pendingBlockIsEmpty then none else some s.pendingBlock, s.written,
    s.rowsMerged + s.localRowsMerged, s.rowsDeleted + s.localRowsDeleted⟩

namespace MergeView

/-- What the next block does to a merge. -/
inductive Step (dmis : Option Uint64Set) (retentionDeadline : Int64) (v : MergeView) (b : Block) :
    MergeView → Prop
  | drop (hdrop : b.IsDropped dmis retentionDeadline) :
      Step dmis retentionDeadline v b { v with deleted := v.deleted + b.rows.length }
  | load (hkeep : ¬ b.IsDropped dmis retentionDeadline) (hp : v.pending = none) :
      Step dmis retentionDeadline v b { v with pending := some b }
  | flush {p : Block} (hkeep : ¬ b.IsDropped dmis retentionDeadline) (hp : v.pending = some p)
      (hapart : p.bh.tsid.metricId ≠ b.bh.tsid.metricId ∧ p.bh.tsid ≤ b.bh.tsid ∨
        p.bh.tsid.metricId = b.bh.tsid.metricId ∧ p.bh.maxTimestamp ≤ b.bh.minTimestamp) :
      Step dmis retentionDeadline v b
        ⟨some b, v.written ++ [p], v.merged + p.rows.length, v.deleted⟩
  | merge {p : Block} (hkeep : ¬ b.IsDropped dmis retentionDeadline) (hp : v.pending = some p)
      (hmetric : p.bh.tsid.metricId = b.bh.tsid.metricId)
      (hlen : (mergedRows retentionDeadline p b).length ≤ maxRowsPerBlock) :
      Step dmis retentionDeadline v b
        { v with
          pending := some (b.ofMerged (mergedRows retentionDeadline p b))
          deleted := v.deleted + (skippedRows retentionDeadline p).length +
            (skippedRows retentionDeadline b).length }
  | split {p : Block} (hkeep : ¬ b.IsDropped dmis retentionDeadline) (hp : v.pending = some p)
      (hmetric : p.bh.tsid.metricId = b.bh.tsid.metricId)
      (hlen : maxRowsPerBlock < (mergedRows retentionDeadline p b).length) :
      Step dmis retentionDeadline v b
        ⟨some (b.ofMerged ((mergedRows retentionDeadline p b).drop maxRowsPerBlock)),
          v.written ++ [b.ofMerged ((mergedRows retentionDeadline p b).take maxRowsPerBlock)],
          v.merged + maxRowsPerBlock,
          v.deleted + (skippedRows retentionDeadline p).length +
            (skippedRows retentionDeadline b).length⟩

/-- What a list of blocks does to a merge. -/
inductive Steps (dmis : Option Uint64Set) (retentionDeadline : Int64) :
    MergeView → List Block → MergeView → Prop
  | nil (v : MergeView) : Steps dmis retentionDeadline v [] v
  | cons {v v' v'' : MergeView} {b : Block} {bs : List Block}
      (hstep : Step dmis retentionDeadline v b v')
      (hsteps : Steps dmis retentionDeadline v' bs v'') :
      Steps dmis retentionDeadline v (b :: bs) v''

/-- The pending block is written at the end. -/
def finish (v : MergeView) : MergeView :=
  match v.pending with
  | none => v
  | some p => { v with written := v.written ++ [p], merged := v.merged + p.rows.length }

end MergeView

section Steps

variable {dmis : Option Uint64Set} {retentionDeadline : Int64}

/-- A block that is kept has a row that is not before the deadline. -/
theorem Block.Loaded.keptRows_ne {b : Block} (hb : b.Loaded)
    (hmax : ¬ b.bh.maxTimestamp < retentionDeadline) : keptRows retentionDeadline b ≠ [] := by
  obtain ⟨row, hrow, heq⟩ := hb.exists_row_max
  rw [← skippedRows_append_keptRows retentionDeadline b] at hrow
  rcases mem_append.mp hrow with h | h
  · have hlt := lt_of_mem_skippedRows h
    rw [heq] at hlt
    exact absurd hlt hmax
  · exact ne_nil_of_mem h

theorem mergedRows_ne {p b : Block} (hb : b.Loaded)
    (hmax : ¬ b.bh.maxTimestamp < retentionDeadline) : mergedRows retentionDeadline p b ≠ [] := by
  intro h
  have hperm := mergedRows_perm retentionDeadline p b
  rw [h, nil_perm, append_eq_nil_iff] at hperm
  exact hb.keptRows_ne hmax hperm.2

/-- What holds of the pending block between two steps: it is loaded, and it has the series and the
scale of an earlier block. -/
structure MergeView.PendingOk (bs : List Block) (v : MergeView) : Prop where
  loaded : ∀ p, v.pending = some p → p.Loaded
  series : ∀ p, v.pending = some p → ∃ b ∈ bs, b.bh.tsid = p.bh.tsid ∧ b.bh.scale = p.bh.scale

namespace MergeView

variable {v v' : MergeView} {b : Block}

theorem Step.pendingOk (h : Step dmis retentionDeadline v b v') {bs : List Block}
    (hv : v.PendingOk bs) (hb : b.Loaded) : v'.PendingOk (bs ++ [b]) := by
  have hself : ∀ p : Block, p.bh.tsid = b.bh.tsid → p.bh.scale = b.bh.scale →
      ∃ b' ∈ bs ++ [b], b'.bh.tsid = p.bh.tsid ∧ b'.bh.scale = p.bh.scale :=
    fun p htsid hscale => ⟨b, by simp, htsid.symm, hscale.symm⟩
  cases h with
  | drop hdrop =>
    refine ⟨hv.loaded, fun p hp => ?_⟩
    obtain ⟨b', hb', hseries⟩ := hv.series p hp
    exact ⟨b', mem_append_left _ hb', hseries⟩
  | load hkeep hp =>
    refine ⟨?_, ?_⟩
    · rintro p ⟨⟩
      exact hb
    · rintro p ⟨⟩
      exact hself b rfl rfl
  | flush hkeep hp hapart =>
    refine ⟨?_, ?_⟩
    · rintro p ⟨⟩
      exact hb
    · rintro p ⟨⟩
      exact hself b rfl rfl
  | @merge p hkeep hp hmetric hlen =>
    have hmax := not_or.mp hkeep |>.2
    refine ⟨?_, ?_⟩
    · rintro q ⟨⟩
      exact Block.loaded_ofMerged hb (mergedRows_ne hb hmax) (mergedRows_sorted (hv.loaded p hp) hb)
    · rintro q ⟨⟩
      exact hself _ rfl rfl
  | @split p hkeep hp hmetric hlen =>
    refine ⟨?_, ?_⟩
    · rintro q ⟨⟩
      refine Block.loaded_ofMerged hb ?_
        ((mergedRows_sorted (hv.loaded p hp) hb).sublist (drop_sublist _ _))
      rw [Ne, drop_eq_nil_iff]
      omega
    · rintro q ⟨⟩
      exact hself _ rfl rfl

end MergeView

/-! ### The steps are those of the code -/

variable {z : Zstd}

theorem BlockStreamWriter.writeExternalBlock_rowsMerged {dedupInterval : Int64}
    {w w' : BlockStreamWriter} {b p : Block} {ph ph' : PartHeader} {n n' : ℕ}
    (h : w.writeExternalBlock z dedupInterval b ph n = .ok (w', p, ph', n')) :
    n' = n + b.pendingRowsCount := by
  unfold BlockStreamWriter.writeExternalBlock at h
  obtain ⟨b1, -, h⟩ := Outcome.bind_eq_ok_iff.mp h
  obtain ⟨b2, -, h⟩ := Outcome.bind_eq_ok_iff.mp h
  obtain ⟨b3, -, h⟩ := Outcome.bind_eq_ok_iff.mp h
  obtain ⟨w1, -, h⟩ := Outcome.bind_eq_ok_iff.mp h
  simp only [Outcome.ok.injEq, Prod.mk.injEq] at h
  exact h.2.2.2.symm

theorem Block.Loaded.pendingRowsCount_eq {b : Block} (hb : b.Loaded) :
    b.pendingRowsCount = b.rows.length := by
  rw [pendingRowsCount, if_neg hb.values_ne, hb.nextIdx_eq, Nat.sub_zero, hb.length_rows]

/-- Writing a block. -/
theorem MergeState.write_view {dedupInterval : Int64} {s s' : MergeState} {b : Block}
    (hb : b.Loaded) (h : s.write z dedupInterval b = .ok s') :
    s'.pendingBlock = s.pendingBlock ∧ s'.pendingBlockIsEmpty = s.pendingBlockIsEmpty ∧
      s'.written = s.written ++ [b] ∧
      s'.rowsMerged + s'.localRowsMerged = s.rowsMerged + s.localRowsMerged + b.rows.length ∧
      s'.rowsDeleted + s'.localRowsDeleted = s.rowsDeleted + s.localRowsDeleted := by
  unfold write at h
  obtain ⟨⟨w, p, ph, n⟩, hwrite, h⟩ := Outcome.bind_eq_ok_iff.mp h
  cases h
  have hn := BlockStreamWriter.writeExternalBlock_rowsMerged hwrite
  refine ⟨rfl, rfl, rfl, ?_, rfl⟩
  simp only
  rw [hn, hb.pendingRowsCount_eq]
  omega

/-- What the code does with the next block is a step. -/
theorem MergeState.mergeBlock_step {dedupInterval : Int64} {s s' : MergeState} {b : Block}
    (hp : ∀ p, s.view.pending = some p → p.Loaded) (hb : b.Fresh)
    (hscale : ∀ p, s.view.pending = some p → p.bh.tsid.metricId = b.bh.tsid.metricId →
      p.bh.scale = b.bh.scale)
    (h : s.mergeBlock z dedupInterval dmis retentionDeadline b = .ok s') :
    MergeView.Step dmis retentionDeadline s.view b s'.view := by
  have hlen := hb.length_rows
  unfold mergeBlock at h
  split_ifs at h with h1 h2 h3 h4 h5
  · cases h
    have hdrop := MergeView.Step.drop (v := s.view) (.inl h1 : b.IsDropped dmis retentionDeadline)
    rw [hlen, ← hb.rowsCount_eq, MergeState.view, Nat.add_assoc] at hdrop
    exact hdrop
  · cases h
    have hdrop := MergeView.Step.drop (v := s.view) (.inr h2 : b.IsDropped dmis retentionDeadline)
    rw [hlen, ← hb.rowsCount_eq, MergeState.view, Nat.add_assoc] at hdrop
    exact hdrop
  · cases h
    have hload := MergeView.Step.load (v := s.view) (not_or.mpr ⟨h1, h2⟩) (if_pos h3)
    rw [MergeState.view] at hload
    rw [hb.copyFrom_eq]
    exact hload
  · have hkeep : ¬ b.IsDropped dmis retentionDeadline := not_or.mpr ⟨h1, h2⟩
    have hpending : s.view.pending = some s.pendingBlock := if_neg h3
    obtain ⟨_, hassert, h⟩ := Outcome.bind_eq_ok_iff.mp h
    have htsid : s.pendingBlock.bh.tsid ≤ b.bh.tsid := Outcome.of_assert hassert
    obtain ⟨s1, hwrite, h⟩ := Outcome.bind_eq_ok_iff.mp h
    cases h
    obtain ⟨-, hempty, hwritten, hmerged, hdeleted⟩ := write_view (hp _ hpending) hwrite
    have hflush := MergeView.Step.flush (v := s.view) hkeep hpending (.inl ⟨h4, htsid⟩)
    have hview : ({ s1 with pendingBlock := b.copyFrom } : MergeState).view =
        ⟨some b, s.view.written ++ [s.pendingBlock], s.view.merged + s.pendingBlock.rows.length,
          s.view.deleted⟩ := by
      simp only [view, hempty, if_neg h3, hwritten, hmerged, hdeleted, hb.copyFrom_eq]
    rw [hview]
    exact hflush
  · have hkeep : ¬ b.IsDropped dmis retentionDeadline := not_or.mpr ⟨h1, h2⟩
    have hpending : s.view.pending = some s.pendingBlock := if_neg h3
    rw [Bool.and_eq_true, decide_eq_true_eq] at h5
    obtain ⟨s1, hwrite, h⟩ := Outcome.bind_eq_ok_iff.mp h
    cases h
    obtain ⟨-, hempty, hwritten, hmerged, hdeleted⟩ := write_view (hp _ hpending) hwrite
    have hflush := MergeView.Step.flush (v := s.view) hkeep hpending
      (.inr ⟨not_not.mp h4, h5.2⟩)
    have hview : ({ s1 with pendingBlock := b.copyFrom } : MergeState).view =
        ⟨some b, s.view.written ++ [s.pendingBlock], s.view.merged + s.pendingBlock.rows.length,
          s.view.deleted⟩ := by
      simp only [view, hempty, if_neg h3, hwritten, hmerged, hdeleted, hb.copyFrom_eq]
    rw [hview]
    exact hflush
  · have hkeep : ¬ b.IsDropped dmis retentionDeadline := not_or.mpr ⟨h1, h2⟩
    have hpending : s.view.pending = some s.pendingBlock := if_neg h3
    have hmetric := not_not.mp h4
    have hloaded := hp _ hpending
    rw [mergePending_eq z dedupInterval retentionDeadline hloaded hb.toLoaded hmetric
      (hscale _ hpending hmetric) (mergedRows_ne hb.toLoaded h2)] at h
    dsimp only at h
    split_ifs at h with hmax
    · cases h
      have hmerge := MergeView.Step.merge (v := s.view) hkeep hpending hmetric hmax
      have hview : ∀ q : Block, ({ s with
            pendingBlock := q
            localRowsDeleted := s.localRowsDeleted +
              (skippedRows retentionDeadline s.pendingBlock).length +
              (skippedRows retentionDeadline b).length } : MergeState).view =
          { s.view with
            pending := some q
            deleted := s.view.deleted + (skippedRows retentionDeadline s.pendingBlock).length +
              (skippedRows retentionDeadline b).length } := by
        intro q
        simp only [view, if_neg h3, Nat.add_assoc]
      rw [hview]
      exact hmerge
    · rw [not_le] at hmax
      have hhead : (b.ofMerged ((mergedRows retentionDeadline s.pendingBlock b).take
          maxRowsPerBlock)).Loaded := by
        refine Block.loaded_ofMerged hb.toLoaded ?_
          ((mergedRows_sorted hloaded hb.toLoaded).sublist (take_sublist _ _))
        rw [Ne, ← length_eq_zero_iff, length_take]
        have h8192 : maxRowsPerBlock = 8192 := rfl
        omega
      obtain ⟨hpend, hempty, hwritten, hmerged, hdeleted⟩ := write_view hhead h
      have hsplit := MergeView.Step.split (v := s.view) hkeep hpending hmetric hmax
      have hrows : (b.ofMerged ((mergedRows retentionDeadline s.pendingBlock b).take
          maxRowsPerBlock)).rows.length = maxRowsPerBlock := by
        rw [Block.rows_ofMerged, length_take]
        omega
      rw [hrows] at hmerged
      have hview : s'.view =
          ⟨some (b.ofMerged ((mergedRows retentionDeadline s.pendingBlock b).drop maxRowsPerBlock)),
            s.view.written ++ [b.ofMerged ((mergedRows retentionDeadline s.pendingBlock b).take
              maxRowsPerBlock)], s.view.merged + maxRowsPerBlock,
            s.view.deleted + (skippedRows retentionDeadline s.pendingBlock).length +
              (skippedRows retentionDeadline b).length⟩ := by
        simp only [view, hempty, if_neg h3, hpend, hwritten, hmerged, hdeleted, Nat.add_assoc]
      rw [hview]
      exact hsplit

theorem MergeState.view_tickStats (s : MergeState) (ct : ℕ) : (s.tickStats ct).view = s.view := by
  rw [tickStats]
  split_ifs
  · rfl
  · rfl

/-- The loop of the merge takes the steps of the blocks that the merger delivers, all of them if it
ends without an error. -/
theorem MergeState.mergeLoop_steps {dedupInterval : Int64} {ticks : List Tick}
    {bsm bsm' : BlockStreamMerger} {s s' : MergeState} {done bs : List Block}
    {res : Except MergeError Unit}
    (hdel : (HeapMerge.asSource (readerOps z) BlockStreamMerger.heapLess
      BlockStreamMerger.describe).Delivers bsm bs)
    (hok : s.view.PendingOk done) (hfresh : ∀ b ∈ bs, b.Fresh)
    (hscale : ∀ b ∈ done ++ bs, ∀ b' ∈ done ++ bs,
      b.bh.tsid.metricId = b'.bh.tsid.metricId → b.bh.scale = b'.bh.scale)
    (h : s.mergeLoop z dedupInterval dmis retentionDeadline ticks bsm =
      .ok (some (res, bsm', s'))) :
    ∃ bs₁ bs₂, bs = bs₁ ++ bs₂ ∧ MergeView.Steps dmis retentionDeadline s.view bs₁ s'.view ∧
      s'.view.PendingOk (done ++ bs₁) ∧ (res = .ok () → bs₂ = [] ∧ bsm'.error = none) := by
  induction ticks generalizing bsm s done bs with
  | nil =>
    obtain ⟨⟨has, bsm1⟩, hnext, h⟩ := Outcome.bind_eq_ok_iff.mp h
    match bs, hdel with
    | [], ⟨bsm2, hnext', herror⟩ =>
      obtain ⟨rfl, rfl⟩ : has = false ∧ bsm1 = bsm2 := by
        simpa using hnext.symm.trans hnext'
      cases h
      exact ⟨[], [], rfl, .nil _, by rwa [append_nil], fun _ => ⟨rfl, herror⟩⟩
    | b :: bs, ⟨bsm2, hnext', _, _⟩ =>
      obtain ⟨rfl, rfl⟩ : has = true ∧ bsm1 = bsm2 := by
        simpa using hnext.symm.trans hnext'
      cases h
  | cons tick ticks ih =>
    obtain ⟨⟨has, bsm1⟩, hnext, h⟩ := Outcome.bind_eq_ok_iff.mp h
    match bs, hdel with
    | [], ⟨bsm2, hnext', herror⟩ =>
      obtain ⟨rfl, rfl⟩ : has = false ∧ bsm1 = bsm2 := by
        simpa using hnext.symm.trans hnext'
      cases h
      exact ⟨[], [], rfl, .nil _, by rwa [append_nil], fun _ => ⟨rfl, herror⟩⟩
    | b :: bs, ⟨bsm2, hnext', hcur, hrest⟩ =>
      obtain ⟨rfl, rfl⟩ : has = true ∧ bsm1 = bsm2 := by
        simpa using hnext.symm.trans hnext'
      have hblock : BlockStreamMerger.block z bsm1 = b := hcur
      simp only [Bool.not_true, Bool.false_eq_true, if_false, hblock] at h
      have hview := view_tickStats s tick.ct
      have hnone : ∀ err : MergeError, res = .error err → s' = s.tickStats tick.ct →
          ∃ bs₁ bs₂, b :: bs = bs₁ ++ bs₂ ∧
            MergeView.Steps dmis retentionDeadline s.view bs₁ s'.view ∧
            s'.view.PendingOk (done ++ bs₁) ∧ (res = .ok () → bs₂ = [] ∧ bsm'.error = none) := by
        rintro err rfl rfl
        rw [hview]
        exact ⟨[], b :: bs, rfl, .nil _, by rwa [append_nil], fun h => (nomatch h)⟩
      by_cases hstop : tick.stop = true
      · rw [if_pos hstop] at h
        cases h
        exact hnone _ rfl rfl
      rw [if_neg hstop] at h
      cases hstep : (s.tickStats tick.ct).mergeBlock z dedupInterval dmis retentionDeadline b with
      | err msg =>
        rw [hstep] at h
        cases h
        exact hnone _ rfl rfl
      | panic msg =>
        rw [hstep] at h
        cases h
      | ok s1 =>
        rw [hstep] at h
        have hb := hfresh b mem_cons_self
        rw [← hview] at hok
        have hone := mergeBlock_step hok.loaded hb (fun p hp hmetric => by
          obtain ⟨b', hb', htsid, hsc⟩ := hok.series p hp
          rw [← hsc]
          exact hscale b' (mem_append_left _ hb') b (by simp) (by rw [htsid, hmetric])) hstep
        have hok1 := hone.pendingOk hok hb.toLoaded
        obtain ⟨bs₁, bs₂, rfl, hsteps, hok', hend⟩ := ih hrest hok1
          (fun b hb => hfresh b (mem_cons_of_mem _ hb))
          (by simpa only [append_assoc, singleton_append] using hscale) h
        rw [hview] at hone
        rw [append_assoc, singleton_append] at hok'
        exact ⟨b :: bs₁, bs₂, rfl, .cons hone hsteps, hok', hend⟩

end Steps

/-! ### Conservation of rows -/

/-- The rows of a block with their series. -/
def Block.seriesRows (b : Block) : Multiset (UInt64 × Int64 × Int64) :=
  (b.rows.map fun row => (b.bh.tsid.metricId, row) : List (UInt64 × Int64 × Int64))

/-- The rows of a list of blocks. -/
def rowsOf (bs : List Block) : Multiset (UInt64 × Int64 × Int64) := (bs.map Block.seriesRows).sum

theorem rowsOf_append (bs bs' : List Block) : rowsOf (bs ++ bs') = rowsOf bs + rowsOf bs' := by
  rw [rowsOf, map_append, sum_append, rowsOf, rowsOf]

theorem rowsOf_singleton (b : Block) : rowsOf [b] = b.seriesRows := by
  rw [rowsOf, map_singleton, sum_singleton]

theorem rowsOf_perm {bs bs' : List Block} (h : bs.Perm bs') : rowsOf bs = rowsOf bs' :=
  (h.map Block.seriesRows).sum_eq

theorem Block.card_seriesRows (b : Block) : Multiset.card b.seriesRows = b.rows.length := by
  rw [seriesRows, Multiset.coe_card, length_map]

section Conservation

variable (dmis : Option Uint64Set) (retentionDeadline : Int64)

/-- The series is deleted. -/
def IsDeletedId (metricId : UInt64) : Prop := (dmis.any fun dmis => dmis.has metricId) = true

/-- After the blocks `bs`, their rows are written, pending or gone; the rows that are gone were
deleted or too old, the others are not of deleted series, and the counters count them. -/
structure MergeView.Conserves (merged₀ deleted₀ : ℕ) (bs : List Block)
    (gone : Multiset (UInt64 × Int64 × Int64)) (v : MergeView) : Prop where
  rows_eq : rowsOf v.written + rowsOf v.pending.toList + gone = rowsOf bs
  of_mem_gone : ∀ row ∈ gone, IsDeletedId dmis row.1 ∨ row.2.1 < retentionDeadline
  kept : ∀ row ∈ rowsOf v.written + rowsOf v.pending.toList, ¬ IsDeletedId dmis row.1
  merged_eq : v.merged = merged₀ + Multiset.card (rowsOf v.written)
  deleted_eq : v.deleted = deleted₀ + Multiset.card gone

variable {dmis retentionDeadline} {merged₀ deleted₀ : ℕ} {bs : List Block}
  {gone : Multiset (UInt64 × Int64 × Int64)} {v v' : MergeView} {b : Block}

/-- Rows with the id of their series. -/
def labelRows (metricId : UInt64) (rows : List (Int64 × Int64)) :
    Multiset (UInt64 × Int64 × Int64) :=
  (rows.map fun row => (metricId, row) : List (UInt64 × Int64 × Int64))

theorem labelRows_append (metricId : UInt64) (rows rows' : List (Int64 × Int64)) :
    labelRows metricId (rows ++ rows') = labelRows metricId rows + labelRows metricId rows' := by
  rw [labelRows, map_append, ← Multiset.coe_add]
  rfl

theorem labelRows_perm (metricId : UInt64) {rows rows' : List (Int64 × Int64)}
    (h : rows.Perm rows') : labelRows metricId rows = labelRows metricId rows' :=
  Multiset.coe_eq_coe.mpr (h.map _)

theorem mem_labelRows {metricId : UInt64} {rows : List (Int64 × Int64)}
    {row : UInt64 × Int64 × Int64} (h : row ∈ labelRows metricId rows) :
    row.1 = metricId ∧ row.2 ∈ rows := by
  rw [labelRows, Multiset.mem_coe] at h
  obtain ⟨row', hrow', rfl⟩ := mem_map.mp h
  exact ⟨rfl, hrow'⟩

theorem card_labelRows (metricId : UInt64) (rows : List (Int64 × Int64)) :
    Multiset.card (labelRows metricId rows) = rows.length := by
  rw [labelRows, Multiset.coe_card, length_map]

theorem Block.seriesRows_ofMerged (b : Block) (rows : List (Int64 × Int64)) :
    (b.ofMerged rows).seriesRows = labelRows b.bh.tsid.metricId rows := by
  rw [seriesRows, rows_ofMerged]
  rfl

/-- The rows of a block are those that are kept and those that are skipped. -/
theorem Block.seriesRows_eq (retentionDeadline : Int64) (b : Block) :
    b.seriesRows = labelRows b.bh.tsid.metricId (keptRows retentionDeadline b) +
      labelRows b.bh.tsid.metricId (skippedRows retentionDeadline b) := by
  rw [add_comm, ← labelRows_append, skippedRows_append_keptRows]
  rfl

/-- The rows of the merge of two blocks of one series, with those that are skipped. -/
theorem labelRows_mergedRows (retentionDeadline : Int64) {p b : Block}
    (hmetric : p.bh.tsid.metricId = b.bh.tsid.metricId) :
    labelRows b.bh.tsid.metricId (mergedRows retentionDeadline p b) +
        (labelRows b.bh.tsid.metricId (skippedRows retentionDeadline p) +
          labelRows b.bh.tsid.metricId (skippedRows retentionDeadline b)) =
      p.seriesRows + b.seriesRows := by
  rw [labelRows_perm _ (mergedRows_perm retentionDeadline p b), labelRows_append,
    Block.seriesRows_eq retentionDeadline p, Block.seriesRows_eq retentionDeadline b, hmetric]
  abel

/-- The rows that a merge of two blocks skips are too old. -/
theorem lt_of_mem_skipped {p b : Block} {metricId : UInt64} {row : UInt64 × Int64 × Int64}
    (h : row ∈ labelRows metricId (skippedRows retentionDeadline p) +
      labelRows metricId (skippedRows retentionDeadline b)) : row.2.1 < retentionDeadline := by
  rcases Multiset.mem_add.mp h with h | h
  · exact lt_of_mem_skippedRows (mem_labelRows h).2
  · exact lt_of_mem_skippedRows (mem_labelRows h).2

/-- A step conserves rows. -/
theorem MergeView.Step.conserves (h : Step dmis retentionDeadline v b v') (hb : b.Loaded)
    (hv : v.Conserves dmis retentionDeadline merged₀ deleted₀ bs gone) :
    ∃ gone', v'.Conserves dmis retentionDeadline merged₀ deleted₀ (bs ++ [b]) gone' := by
  have hrows := hv.rows_eq
  have hself : ¬ b.IsDropped dmis retentionDeadline →
      ∀ row : UInt64 × Int64 × Int64, row.1 = b.bh.tsid.metricId → ¬ IsDeletedId dmis row.1 := by
    intro hkeep row heq
    rw [heq]
    exact (not_or.mp hkeep).1
  cases h with
  | drop hdrop =>
    refine ⟨gone + b.seriesRows, ?_, ?_, hv.kept, hv.merged_eq, ?_⟩
    · rw [rowsOf_append, rowsOf_singleton, ← hrows]
      simp only
      abel
    · intro row hrow
      rcases Multiset.mem_add.mp hrow with hrow | hrow
      · exact hv.of_mem_gone row hrow
      · obtain ⟨hid, hmem⟩ := mem_labelRows hrow
        rcases hdrop with hdrop | hdrop
        · rw [hid]
          exact .inl hdrop
        · exact .inr ((hb.mem_range hmem).2.trans_lt hdrop)
    · simp only
      rw [hv.deleted_eq, Multiset.card_add, Block.card_seriesRows]
      omega
  | load hkeep hp =>
    rw [hp] at hrows
    have hkept := hv.kept
    rw [hp] at hkept
    refine ⟨gone, ?_, hv.of_mem_gone, ?_, hv.merged_eq, hv.deleted_eq⟩
    · rw [rowsOf_append, rowsOf_singleton, ← hrows]
      simp only [toList_some, toList_none, rowsOf_singleton]
      rw [show rowsOf [] = 0 from rfl]
      abel
    · intro row hrow
      simp only [toList_some, rowsOf_singleton] at hrow
      rcases Multiset.mem_add.mp hrow with hrow | hrow
      · exact hkept row (Multiset.mem_add.mpr (.inl hrow))
      · exact hself hkeep row (mem_labelRows hrow).1
  | @flush p hkeep hp hapart =>
    rw [hp] at hrows
    have hkept := hv.kept
    rw [hp] at hkept
    simp only [toList_some, rowsOf_singleton] at hrows hkept
    refine ⟨gone, ?_, hv.of_mem_gone, ?_, ?_, hv.deleted_eq⟩
    · simp only [toList_some, rowsOf_append, rowsOf_singleton]
      rw [← hrows]
      abel
    · intro row hrow
      simp only [toList_some, rowsOf_append, rowsOf_singleton] at hrow
      rcases Multiset.mem_add.mp hrow with hrow | hrow
      · exact hkept row hrow
      · exact hself hkeep row (mem_labelRows hrow).1
    · simp only [rowsOf_append, rowsOf_singleton, Multiset.card_add, Block.card_seriesRows,
        hv.merged_eq]
      omega
  | @merge p hkeep hp hmetric hlen =>
    rw [hp] at hrows
    have hkept := hv.kept
    rw [hp] at hkept
    simp only [toList_some, rowsOf_singleton] at hrows hkept
    refine ⟨gone + (labelRows b.bh.tsid.metricId (skippedRows retentionDeadline p) +
      labelRows b.bh.tsid.metricId (skippedRows retentionDeadline b)), ?_, ?_, ?_, hv.merged_eq, ?_⟩
    · simp only [toList_some, rowsOf_append, rowsOf_singleton, Block.seriesRows_ofMerged]
      rw [← hrows]
      have hmerged := labelRows_mergedRows retentionDeadline hmetric
      calc _ = rowsOf v.written + (labelRows b.bh.tsid.metricId (mergedRows retentionDeadline p b) +
            (labelRows b.bh.tsid.metricId (skippedRows retentionDeadline p) +
              labelRows b.bh.tsid.metricId (skippedRows retentionDeadline b))) + gone := by abel
        _ = _ := by
          rw [hmerged]
          abel
    · intro row hrow
      rcases Multiset.mem_add.mp hrow with hrow | hrow
      · exact hv.of_mem_gone row hrow
      · exact .inr (lt_of_mem_skipped hrow)
    · intro row hrow
      simp only [toList_some, rowsOf_singleton, Block.seriesRows_ofMerged] at hrow
      rcases Multiset.mem_add.mp hrow with hrow | hrow
      · exact hkept row (Multiset.mem_add.mpr (.inl hrow))
      · exact hself hkeep row (mem_labelRows hrow).1
    · simp only [Multiset.card_add, card_labelRows, hv.deleted_eq]
      omega
  | @split p hkeep hp hmetric hlen =>
    rw [hp] at hrows
    have hkept := hv.kept
    rw [hp] at hkept
    simp only [toList_some, rowsOf_singleton] at hrows hkept
    have hcut : labelRows b.bh.tsid.metricId ((mergedRows retentionDeadline p b).take
        maxRowsPerBlock) +
        labelRows b.bh.tsid.metricId ((mergedRows retentionDeadline p b).drop maxRowsPerBlock) =
        labelRows b.bh.tsid.metricId (mergedRows retentionDeadline p b) := by
      rw [← labelRows_append, take_append_drop]
    refine ⟨gone + (labelRows b.bh.tsid.metricId (skippedRows retentionDeadline p) +
      labelRows b.bh.tsid.metricId (skippedRows retentionDeadline b)), ?_, ?_, ?_, ?_, ?_⟩
    · simp only [toList_some, rowsOf_append, rowsOf_singleton, Block.seriesRows_ofMerged]
      rw [← hrows]
      have hmerged := labelRows_mergedRows retentionDeadline hmetric
      rw [← hcut] at hmerged
      calc _ = rowsOf v.written + (labelRows b.bh.tsid.metricId
              ((mergedRows retentionDeadline p b).take maxRowsPerBlock) +
            labelRows b.bh.tsid.metricId ((mergedRows retentionDeadline p b).drop maxRowsPerBlock) +
            (labelRows b.bh.tsid.metricId (skippedRows retentionDeadline p) +
              labelRows b.bh.tsid.metricId (skippedRows retentionDeadline b))) + gone := by abel
        _ = _ := by
          rw [hmerged]
          abel
    · intro row hrow
      rcases Multiset.mem_add.mp hrow with hrow | hrow
      · exact hv.of_mem_gone row hrow
      · exact .inr (lt_of_mem_skipped hrow)
    · intro row hrow
      simp only [toList_some, rowsOf_append, rowsOf_singleton,
        Block.seriesRows_ofMerged] at hrow
      rcases Multiset.mem_add.mp hrow with hrow | hrow
      · rcases Multiset.mem_add.mp hrow with hrow | hrow
        · exact hkept row (Multiset.mem_add.mpr (.inl hrow))
        · exact hself hkeep row (mem_labelRows hrow).1
      · exact hself hkeep row (mem_labelRows hrow).1
    · simp only [rowsOf_append, rowsOf_singleton, Multiset.card_add, Block.seriesRows_ofMerged,
        card_labelRows, hv.merged_eq, length_take]
      omega
    · simp only [Multiset.card_add, card_labelRows, hv.deleted_eq]
      omega

/-- A list of steps conserves rows. -/
theorem MergeView.Steps.conserves {bs' : List Block}
    (h : Steps dmis retentionDeadline v bs' v') (hbs' : ∀ b ∈ bs', b.Loaded)
    (hv : v.Conserves dmis retentionDeadline merged₀ deleted₀ bs gone) :
    ∃ gone', v'.Conserves dmis retentionDeadline merged₀ deleted₀ (bs ++ bs') gone' := by
  induction h generalizing bs gone with
  | nil v => exact ⟨gone, by rwa [append_nil]⟩
  | @cons v v1 v' b bs' hstep _ ih =>
    obtain ⟨gone1, hv1⟩ := hstep.conserves (hbs' b mem_cons_self) hv
    obtain ⟨gone', hv'⟩ := ih (fun b hb => hbs' b (mem_cons_of_mem _ hb)) hv1
    rw [append_assoc, singleton_append] at hv'
    exact ⟨gone', hv'⟩

theorem MergeView.Conserves.finish
    (hv : v.Conserves dmis retentionDeadline merged₀ deleted₀ bs gone) :
    rowsOf v.finish.written + gone = rowsOf bs ∧
      (∀ row ∈ rowsOf v.finish.written, ¬ IsDeletedId dmis row.1) ∧
      v.finish.merged = merged₀ + Multiset.card (rowsOf v.finish.written) ∧
      v.finish.deleted = deleted₀ + Multiset.card gone := by
  have hrows := hv.rows_eq
  have hkept := hv.kept
  cases hp : v.pending with
  | none =>
    have hfinish : v.finish = v := by simp only [MergeView.finish, hp]
    have hnil : rowsOf (Option.toList none) = 0 := rfl
    rw [hp, hnil, add_zero] at hrows hkept
    rw [hfinish]
    exact ⟨hrows, hkept, hv.merged_eq, hv.deleted_eq⟩
  | some p =>
    have hfinish : v.finish =
        { v with written := v.written ++ [p], merged := v.merged + p.rows.length } := by
      simp only [MergeView.finish, hp]
    rw [hp, toList_some, ← rowsOf_append] at hrows hkept
    rw [hfinish]
    refine ⟨hrows, hkept, ?_, hv.deleted_eq⟩
    simp only
    rw [rowsOf_append, rowsOf_singleton, Multiset.card_add, Block.card_seriesRows, hv.merged_eq]
    omega

end Conservation

/-! ### What the writer is given -/

section Writes

variable {z : Zstd} {dedupInterval : Int64}

theorem BlockStreamWriter.writeExternalBlock_of_rowsMerged {w w' : BlockStreamWriter} {b p : Block}
    {ph ph' : PartHeader} {n n' : ℕ}
    (h : w.writeExternalBlock z dedupInterval b ph n = .ok (w', p, ph', n')) (m : ℕ) :
    w.writeExternalBlock z dedupInterval b ph m = .ok (w', p, ph', m + b.pendingRowsCount) := by
  unfold BlockStreamWriter.writeExternalBlock at h ⊢
  obtain ⟨b1, hdedup, h⟩ := Outcome.bind_eq_ok_iff.mp h
  obtain ⟨b2, hpack, h⟩ := Outcome.bind_eq_ok_iff.mp h
  obtain ⟨b3, hpack', h⟩ := Outcome.bind_eq_ok_iff.mp h
  obtain ⟨w1, hflush, h⟩ := Outcome.bind_eq_ok_iff.mp h
  simp only [Outcome.ok.injEq, Prod.mk.injEq] at h
  obtain ⟨rfl, rfl, rfl, -⟩ := h
  simp only [hdedup, Outcome.ok_bind, hpack, hpack', hflush]

theorem BlockStreamWriter.writeExternalBlocks_concat {w w' w'' : BlockStreamWriter}
    {bs : List Block} {b p : Block} {ph ph' ph'' : PartHeader} {n m k k' : ℕ}
    (h : w.writeExternalBlocks z dedupInterval ph n bs = .ok (w', ph', m))
    (hb : w'.writeExternalBlock z dedupInterval b ph' k = .ok (w'', p, ph'', k')) :
    ∃ m', w.writeExternalBlocks z dedupInterval ph n (bs ++ [b]) = .ok (w'', ph'', m') := by
  induction bs generalizing w ph n with
  | nil =>
    cases h
    refine ⟨m + b.pendingRowsCount, ?_⟩
    rw [nil_append, writeExternalBlocks, writeExternalBlock_of_rowsMerged hb m]
    rfl
  | cons c bs ih =>
    rw [writeExternalBlocks] at h
    obtain ⟨⟨w1, p1, ph1, n1⟩, hwrite, h⟩ := Outcome.bind_eq_ok_iff.mp h
    obtain ⟨m', hm'⟩ := ih h
    refine ⟨m', ?_⟩
    rw [cons_append, writeExternalBlocks, hwrite, Outcome.ok_bind]
    exact hm'

/-- The writer has been given the blocks that are recorded. -/
def MergeState.HasWritten (z : Zstd) (dedupInterval : Int64) (bsw : BlockStreamWriter)
    (s : MergeState) : Prop :=
  ∃ n, bsw.writeExternalBlocks z dedupInterval default 0 s.written = .ok (s.bsw, s.ph, n)

variable {bsw : BlockStreamWriter} {s s' : MergeState}

theorem MergeState.HasWritten.write (h : s.HasWritten z dedupInterval bsw) {b : Block}
    (hwrite : s.write z dedupInterval b = .ok s') : s'.HasWritten z dedupInterval bsw := by
  obtain ⟨n, hn⟩ := h
  unfold MergeState.write at hwrite
  obtain ⟨⟨w, p, ph, m⟩, hb, hwrite⟩ := Outcome.bind_eq_ok_iff.mp hwrite
  cases hwrite
  exact BlockStreamWriter.writeExternalBlocks_concat hn hb

theorem MergeState.HasWritten.mergePending (h : s.HasWritten z dedupInterval bsw)
    {retentionDeadline : Int64} {b : Block}
    (hmerge : s.mergePending z dedupInterval retentionDeadline b = .ok s') :
    s'.HasWritten z dedupInterval bsw := by
  unfold MergeState.mergePending at hmerge
  obtain ⟨⟨p, b⟩, -, hmerge⟩ := Outcome.bind_eq_ok_iff.mp hmerge
  obtain ⟨⟨tmp, deleted⟩, -, hmerge⟩ := Outcome.bind_eq_ok_iff.mp hmerge
  dsimp only at hmerge
  split_ifs at hmerge
  · cases hmerge
    exact h
  · obtain ⟨tmp', -, hmerge⟩ := Outcome.bind_eq_ok_iff.mp hmerge
    cases hmerge
    exact h
  · obtain ⟨tail, -, hmerge⟩ := Outcome.bind_eq_ok_iff.mp hmerge
    obtain ⟨head, -, hmerge⟩ := Outcome.bind_eq_ok_iff.mp hmerge
    exact MergeState.HasWritten.write (s := { s with
      localRowsDeleted := deleted, pendingBlock := tail }) h hmerge

theorem MergeState.HasWritten.mergeBlock (h : s.HasWritten z dedupInterval bsw)
    {dmis : Option Uint64Set} {retentionDeadline : Int64} {b : Block}
    (hmerge : s.mergeBlock z dedupInterval dmis retentionDeadline b = .ok s') :
    s'.HasWritten z dedupInterval bsw := by
  unfold MergeState.mergeBlock at hmerge
  split_ifs at hmerge
  · cases hmerge
    exact h
  · cases hmerge
    exact h
  · cases hmerge
    exact h
  · obtain ⟨_, -, hmerge⟩ := Outcome.bind_eq_ok_iff.mp hmerge
    obtain ⟨s1, hwrite, hmerge⟩ := Outcome.bind_eq_ok_iff.mp hmerge
    cases hmerge
    have h1 : s1.HasWritten z dedupInterval bsw := h.write hwrite
    exact h1
  · obtain ⟨s1, hwrite, hmerge⟩ := Outcome.bind_eq_ok_iff.mp hmerge
    cases hmerge
    have h1 : s1.HasWritten z dedupInterval bsw := h.write hwrite
    exact h1
  · exact h.mergePending hmerge

theorem MergeState.HasWritten.tickStats (h : s.HasWritten z dedupInterval bsw) (ct : ℕ) :
    (s.tickStats ct).HasWritten z dedupInterval bsw := by
  rw [MergeState.tickStats]
  split_ifs
  · exact h
  · exact h

theorem MergeState.HasWritten.mergeLoop (h : s.HasWritten z dedupInterval bsw)
    {dmis : Option Uint64Set} {retentionDeadline : Int64} {ticks : List Tick}
    {bsm bsm' : BlockStreamMerger} {res : Except MergeError Unit}
    (hloop : s.mergeLoop z dedupInterval dmis retentionDeadline ticks bsm =
      .ok (some (res, bsm', s'))) : s'.HasWritten z dedupInterval bsw := by
  induction ticks generalizing bsm s with
  | nil =>
    obtain ⟨⟨has, bsm1⟩, -, hloop⟩ := Outcome.bind_eq_ok_iff.mp hloop
    cases has with
    | true => cases hloop
    | false =>
      cases hloop
      exact h
  | cons tick ticks ih =>
    obtain ⟨⟨has, bsm1⟩, -, hloop⟩ := Outcome.bind_eq_ok_iff.mp hloop
    dsimp only at hloop
    split_ifs at hloop
    · cases hloop
      exact h
    · cases hloop
      exact h.tickStats tick.ct
    · cases hstep : (s.tickStats tick.ct).mergeBlock z dedupInterval dmis retentionDeadline
          (bsm1.block z) with
      | ok s1 =>
        rw [hstep] at hloop
        exact ih ((h.tickStats tick.ct).mergeBlock hstep) hloop
      | err msg =>
        rw [hstep] at hloop
        cases hloop
        exact h.tickStats tick.ct
      | panic msg =>
        rw [hstep] at hloop
        cases hloop

end Writes

/-! ### A whole merge -/

theorem BlockStreamReader.yields_iff_delivers {z : Zstd} {r : BlockStreamReader} {bs : List Block} :
    r.Yields z bs ↔ (readerOps z).Delivers r bs := by
  induction bs generalizing r with
  | nil => exact Iff.rfl
  | cons b bs ih =>
    refine exists_congr fun r' => ?_
    rw [ih]
    exact Iff.rfl

section Whole

variable {z : Zstd} {dedupInterval : Int64} {bsw : BlockStreamWriter}
  {bsrs : List BlockStreamReader} {streams : List (List Block)} {dmis : Option Uint64Set}
  {retentionDeadline : Int64} {rowsMerged rowsDeleted : ℕ} {ticks : List Tick}
  {bufs : Bytes × Bytes × Bytes × Bytes} {s : MergeState}

/-- The key by which block streams are sorted. -/
def Block.streamKey (b : Block) : Tsid ×ₗ Int64 := toLex (b.bh.tsid, b.bh.minTimestamp)

/-- What a merge relies on: fresh blocks of at most the maximum number of rows, streams sorted by
series and first timestamp, and series that are identified by their metric id and have one scale. -/
structure MergeInput (streams : List (List Block)) : Prop where
  fresh : ∀ b ∈ streams.flatten, b.Fresh
  length_le : ∀ b ∈ streams.flatten, b.rows.length ≤ maxRowsPerBlock
  sorted : ∀ stream ∈ streams, stream.Pairwise fun a b => a.streamKey ≤ b.streamKey
  tsid_eq : ∀ b ∈ streams.flatten, ∀ b' ∈ streams.flatten,
    b.bh.tsid.metricId = b'.bh.tsid.metricId → b.bh.tsid = b'.bh.tsid
  scale_eq : ∀ b ∈ streams.flatten, ∀ b' ∈ streams.flatten,
    b.bh.tsid.metricId = b'.bh.tsid.metricId → b.bh.scale = b'.bh.scale

/-- The order of the heap is that of the keys. -/
theorem MergeInput.comparesBy (h : MergeInput streams) :
    ComparesBy BlockStreamMerger.heapLess Block.streamKey streams.flatten := by
  intro a ha b hb
  rw [BlockStreamMerger.heapLess, BlockHeader.less, Block.streamKey, Block.streamKey,
    Bool.eq_iff_iff, decide_eq_true_iff, Prod.Lex.toLex_lt_toLex]
  split_ifs with hmetric
  · have htsid := h.tsid_eq a ha b hb hmetric
    simp [htsid]
  · have hne : a.bh.tsid ≠ b.bh.tsid := fun heq => hmetric (by rw [heq])
    simp [hne]

theorem MergeState.pendingOk_start (bs : List Block) :
    (start bsw rowsMerged rowsDeleted).view.PendingOk bs :=
  ⟨fun _ hp => (nomatch hp), fun _ hp => (nomatch hp)⟩

/-- The steps of a merge: those of some of the blocks of the readers, and of all of them, each once,
if the merge ends without an error. -/
theorem mergeBlockStreams_steps {res : Except MergeError (Bytes × Bytes × Bytes × Bytes)}
    (hyields : List.Forall₂ (BlockStreamReader.Yields z) bsrs streams)
    (hfresh : ∀ b ∈ streams.flatten, b.Fresh)
    (hscale : ∀ b ∈ streams.flatten, ∀ b' ∈ streams.flatten,
      b.bh.tsid.metricId = b'.bh.tsid.metricId → b.bh.scale = b'.bh.scale)
    (h : mergeBlockStreams z dedupInterval bsw bsrs dmis retentionDeadline rowsMerged rowsDeleted
      ticks = .ok (some (res, s))) :
    ∃ bs₁ bs₂ v, (bs₁ ++ bs₂).Perm streams.flatten ∧
      (MergeInput streams → (bs₁ ++ bs₂).Pairwise fun a b => a.streamKey ≤ b.streamKey) ∧
      MergeView.Steps dmis retentionDeadline ⟨none, [], rowsMerged, rowsDeleted⟩ bs₁ v ∧
      v.PendingOk bs₁ ∧
      (s.written = v.written ∨ s.written = v.finish.written) ∧
      ∀ bufs, res = .ok bufs → bs₂ = [] ∧ s.written = v.finish.written ∧
        s.rowsMerged = v.finish.merged ∧ s.rowsDeleted = v.finish.deleted ∧
        (∃ n, bsw.writeExternalBlocks z dedupInterval default 0 s.written = .ok (s.bsw, s.ph, n)) ∧
        s.bsw.mustClose z = .ok bufs := by
  have hdel : List.Forall₂ (readerOps z).Delivers bsrs streams :=
    hyields.imp fun _ _ h => BlockStreamReader.yields_iff_delivers.mp h
  obtain ⟨bsm, bs, hinit, hbsm, hperm, hsorted⟩ := HeapMerge.exists_delivers_start
    BlockStreamMerger.heapLess Block.streamKey BlockStreamMerger.describe
    BlockStreamMerger.describe hdel
  unfold mergeBlockStreams at h
  rw [BlockStreamMerger.init, hinit, Outcome.ok_bind] at h
  obtain ⟨out, hinternal, h⟩ := Outcome.bind_eq_ok_iff.mp h
  obtain ⟨res1, s1, rfl⟩ : ∃ res1 s1, out = some (res1, s1) := by
    match out, h with
    | some (res1, s1), _ => exact ⟨res1, s1, rfl⟩
  obtain ⟨bufs1, hclose, h⟩ := Outcome.bind_eq_ok_iff.mp h
  obtain ⟨rfl, hres⟩ : s1 = s ∧ (∀ bufs, res = .ok bufs → res1 = .ok () ∧ bufs = bufs1) := by
    match res1, h with
    | .ok (), h =>
      cases h
      exact ⟨rfl, fun bufs h => ⟨rfl, (Except.ok.inj h).symm⟩⟩
    | .error .forciblyStopped, h =>
      cases h
      exact ⟨rfl, fun bufs h => (nomatch h)⟩
    | .error (.other msg), h =>
      cases h
      exact ⟨rfl, fun bufs h => (nomatch h)⟩
  unfold mergeBlockStreamsInternal at hinternal
  obtain ⟨out, hloop, hinternal⟩ := Outcome.bind_eq_ok_iff.mp hinternal
  obtain ⟨res2, bsm', s2, rfl⟩ : ∃ res2 bsm' s2, out = some (res2, bsm', s2) := by
    match out, hinternal with
    | some (res2, bsm', s2), _ => exact ⟨res2, bsm', s2, rfl⟩
  have hwritten : s2.HasWritten z dedupInterval bsw :=
    MergeState.HasWritten.mergeLoop (s := .start bsw rowsMerged rowsDeleted) ⟨0, rfl⟩ hloop
  obtain ⟨bs₁, bs₂, rfl, hsteps, hok, hend⟩ := MergeState.mergeLoop_steps hbsm
    (MergeState.pendingOk_start []) (fun b hb => hfresh b (hperm.mem_iff.mp hb))
    (fun b hb b' hb' => hscale b (hperm.mem_iff.mp hb) b' (hperm.mem_iff.mp hb')) hloop
  rw [nil_append] at hok
  refine ⟨bs₁, bs₂, s2.view, hperm, fun hinput => hsorted hinput.comparesBy hinput.sorted, hsteps,
    hok, ?_⟩
  match res2, hend, hinternal with
  | .error err, _, hinternal =>
    simp only [Outcome.ok.injEq, Option.some.injEq, Prod.mk.injEq] at hinternal
    obtain ⟨rfl, rfl⟩ := hinternal
    refine ⟨.inl rfl, fun bufs hb => ?_⟩
    obtain ⟨hb, -⟩ := hres bufs hb
    cases hb
  | .ok (), hend, hinternal =>
    obtain ⟨hnil, herror⟩ := hend rfl
    dsimp only at hinternal
    rw [herror] at hinternal
    obtain ⟨s3, hlast, hinternal⟩ := Outcome.bind_eq_ok_iff.mp hinternal
    simp only [Outcome.ok.injEq, Option.some.injEq, Prod.mk.injEq] at hinternal
    obtain ⟨-, rfl⟩ := hinternal
    have hfinal : s3.written = s2.view.finish.written ∧
        s3.rowsMerged + s3.localRowsMerged = s2.view.finish.merged ∧
        s3.rowsDeleted + s3.localRowsDeleted = s2.view.finish.deleted ∧
        s3.HasWritten z dedupInterval bsw := by
      split_ifs at hlast with hempty
      · cases hlast
        have hfinish : s2.view.finish = s2.view := by
          simp only [MergeView.finish, MergeState.view, if_pos hempty]
        rw [hfinish]
        exact ⟨rfl, rfl, rfl, hwritten⟩
      · have hpending : s2.view.pending = some s2.pendingBlock := if_neg hempty
        have hfinish : s2.view.finish =
            { s2.view with
              written := s2.view.written ++ [s2.pendingBlock]
              merged := s2.view.merged + s2.pendingBlock.rows.length } := by
          simp only [MergeView.finish, hpending]
        obtain ⟨-, -, hwr, hmerged, hdeleted⟩ :=
          MergeState.write_view (hok.loaded _ hpending) hlast
        rw [hfinish]
        exact ⟨hwr, hmerged, hdeleted, hwritten.write hlast⟩
    obtain ⟨hwr, hmerged, hdeleted, hhas⟩ := hfinal
    refine ⟨.inr hwr, fun bufs hb => ?_⟩
    obtain ⟨-, rfl⟩ := hres bufs hb
    exact ⟨hnil, hwr, hmerged, hdeleted, hhas, hclose⟩

/-! ### A merge returns -/

theorem Block.Loaded.writable {b : Block} (hb : b.Loaded) (hlen : b.rows.length ≤ maxRowsPerBlock) :
    b.Writable where
  length_eq := hb.length_eq
  nextIdx_lt := by
    rw [hb.nextIdx_eq]
    exact length_pos_iff.mpr hb.values_ne
  length_le := by rwa [hb.unreadValues_eq, ← hb.length_rows]
  sorted := by
    rw [hb.unreadTimestamps_eq]
    exact hb.sorted
  precisionBits_eq := hb.precisionBits_eq

/-- The writer is in a state that it reaches by writing blocks. -/
def MergeState.WriterOk (z : Zstd) (compressLevel : ℤ) (s : MergeState) : Prop :=
  ∃ gs cur, s.bsw = BlockStreamWriter.writing z compressLevel gs cur ∧
    (∀ g ∈ gs, IsIndexGroup g) ∧ (cur = [] ∨ IsIndexGroup cur)

variable {compressLevel : ℤ}

theorem MergeState.WriterOk.exists_write (hz : z.RoundTrips) (hfit : z.IndexBlocksFit)
    (h : s.WriterOk z compressLevel) {b : Block} (hb : b.Writable) :
    ∃ s', s.write z 0 b = .ok s' ∧ s'.WriterOk z compressLevel := by
  obtain ⟨gs, cur, hbsw, hgs, hcur⟩ := h
  obtain ⟨p, gs', cur', -, -, -, hgs', hcur', hwrite⟩ :=
    BlockStreamWriter.writeExternalBlock_writing compressLevel hz hfit hgs hcur hb s.ph
      s.localRowsMerged
  rw [← hbsw] at hwrite
  unfold MergeState.write
  simp only [hwrite, Outcome.ok_bind]
  exact ⟨_, rfl, gs', cur', rfl, hgs', .inr hcur'⟩

theorem MergeState.WriterOk.exists_mustClose (hfit : z.IndexBlocksFit)
    (h : s.WriterOk z compressLevel) : ∃ bufs, s.bsw.mustClose z = .ok bufs := by
  obtain ⟨gs, cur, hbsw, hgs, hcur⟩ := h
  rw [hbsw, BlockStreamWriter.mustClose]
  rcases hcur with rfl | hcur
  · exact ⟨_, rfl⟩
  · rw [BlockStreamWriter.flushIndexData_writing hfit hcur]
    exact ⟨_, rfl⟩

/-- A block is merged without an error and without a panic. -/
theorem MergeState.exists_mergeBlock (dmis : Option Uint64Set) (retentionDeadline : Int64)
    (hz : z.RoundTrips) (hfit : z.IndexBlocksFit) {b : Block}
    (hw : s.WriterOk z compressLevel)
    (hp : ∀ p, s.view.pending = some p → p.Loaded ∧ p.rows.length ≤ maxRowsPerBlock ∧
      p.bh.tsid ≤ b.bh.tsid ∧ (p.bh.tsid.metricId = b.bh.tsid.metricId → p.bh.scale = b.bh.scale))
    (hb : b.Fresh) (hlen : b.rows.length ≤ maxRowsPerBlock) :
    ∃ s', s.mergeBlock z 0 dmis retentionDeadline b = .ok s' ∧ s'.WriterOk z compressLevel ∧
      ∀ p, s'.view.pending = some p → p.rows.length ≤ maxRowsPerBlock := by
  have hlocal : ∀ (s1 : MergeState) (q : Block), s1.pendingBlock = q →
      q.rows.length ≤ maxRowsPerBlock →
      ∀ p, s1.view.pending = some p → p.rows.length ≤ maxRowsPerBlock := by
    rintro s1 q rfl hq p hpend
    simp only [view] at hpend
    split_ifs at hpend
    cases hpend
    exact hq
  unfold mergeBlock
  split_ifs with h1 h2 h3 h4 h5
  · exact ⟨_, rfl, hw, fun p hpend => (hp p hpend).2.1⟩
  · exact ⟨_, rfl, hw, fun p hpend => (hp p hpend).2.1⟩
  · refine ⟨_, rfl, hw, hlocal _ b ?_ hlen⟩
    exact hb.copyFrom_eq
  · obtain ⟨hloaded, hplen, htsid, -⟩ := hp _ (if_neg h3)
    obtain ⟨s1, hwrite, hw1⟩ := hw.exists_write hz hfit (hloaded.writable hplen)
    have hge : b.bh.tsid ≥ s.pendingBlock.bh.tsid := htsid
    refine ⟨{ s1 with pendingBlock := b.copyFrom }, ?_, hw1, hlocal _ b hb.copyFrom_eq hlen⟩
    simp only [Outcome.assert_of hge, Outcome.ok_bind, hwrite]
  · obtain ⟨hloaded, hplen, -, -⟩ := hp _ (if_neg h3)
    obtain ⟨s1, hwrite, hw1⟩ := hw.exists_write hz hfit (hloaded.writable hplen)
    refine ⟨{ s1 with pendingBlock := b.copyFrom }, ?_, hw1, hlocal _ b hb.copyFrom_eq hlen⟩
    rw [hwrite]
    rfl
  · obtain ⟨hloaded, hplen, -, hscale⟩ := hp _ (if_neg h3)
    have hmetric := not_not.mp h4
    have hsum : (mergedRows retentionDeadline s.pendingBlock b).length ≤ 2 * maxRowsPerBlock := by
      rw [(mergedRows_perm retentionDeadline s.pendingBlock b).length_eq, length_append]
      have h1 := (keptRows_sublist retentionDeadline s.pendingBlock).length_le
      have h2 := (keptRows_sublist retentionDeadline b).length_le
      omega
    rw [mergePending_eq z 0 retentionDeadline hloaded hb.toLoaded hmetric (hscale hmetric)
      (mergedRows_ne hb.toLoaded h2)]
    dsimp only
    split_ifs with hmax
    · refine ⟨_, rfl, hw, hlocal _ (b.ofMerged (mergedRows retentionDeadline s.pendingBlock b))
        rfl ?_⟩
      rwa [Block.rows_ofMerged]
    · have hhead : (b.ofMerged ((mergedRows retentionDeadline s.pendingBlock b).take
          maxRowsPerBlock)).Loaded := by
        refine Block.loaded_ofMerged hb.toLoaded ?_
          ((mergedRows_sorted hloaded hb.toLoaded).sublist (take_sublist _ _))
        rw [Ne, ← length_eq_zero_iff, length_take]
        have h8192 : maxRowsPerBlock = 8192 := rfl
        omega
      obtain ⟨s1, hwrite, hw1⟩ := MergeState.WriterOk.exists_write (s := { s with
        pendingBlock := b.ofMerged ((mergedRows retentionDeadline s.pendingBlock b).drop
          maxRowsPerBlock)
        localRowsDeleted := s.localRowsDeleted +
          (skippedRows retentionDeadline s.pendingBlock).length +
          (skippedRows retentionDeadline b).length }) hz hfit hw (hhead.writable (by
            rw [Block.rows_ofMerged, length_take]
            omega))
      obtain ⟨hpend, -⟩ := write_view hhead hwrite
      refine ⟨s1, hwrite, hw1, hlocal s1 _ hpend ?_⟩
      rw [Block.rows_ofMerged, length_drop]
      omega

/-- The loop of the merge ends when the blocks are sorted, no stop is requested and there is a tick
for every block. -/
theorem MergeState.exists_mergeLoop (dmis : Option Uint64Set) (retentionDeadline : Int64)
    (hz : z.RoundTrips) (hfit : z.IndexBlocksFit)
    {bsm : BlockStreamMerger} {done bs : List Block}
    (hdel : (HeapMerge.asSource (readerOps z) BlockStreamMerger.heapLess
      BlockStreamMerger.describe).Delivers bsm bs)
    (hw : s.WriterOk z compressLevel) (hok : s.view.PendingOk done)
    (hpend : ∀ p, s.view.pending = some p → p.rows.length ≤ maxRowsPerBlock)
    (hinput : MergeInput [done ++ bs]) (hticks : bs.length ≤ ticks.length)
    (hstop : ∀ tick ∈ ticks, tick.stop = false) :
    ∃ bsm' s', s.mergeLoop z 0 dmis retentionDeadline ticks bsm = .ok (some (.ok (), bsm', s')) ∧
      s'.WriterOk z compressLevel ∧
      ∀ p, s'.view.pending = some p → p.rows.length ≤ maxRowsPerBlock := by
  induction bs generalizing ticks bsm s done with
  | nil =>
    obtain ⟨bsm', hnext, -⟩ := hdel
    refine ⟨bsm', s, ?_, hw, hpend⟩
    have hnext' : bsm.nextBlock z = .ok (false, bsm') := hnext
    match ticks with
    | [] =>
      rw [mergeLoop, hnext']
      rfl
    | tick :: ticks =>
      rw [mergeLoop, hnext']
      rfl
  | cons b bs ih =>
    obtain ⟨bsm1, hnext, hcur, hrest⟩ := hdel
    have hnext' : bsm.nextBlock z = .ok (true, bsm1) := hnext
    have hblock : BlockStreamMerger.block z bsm1 = b := hcur
    match ticks with
    | [] =>
      rw [length_cons, length_nil] at hticks
      omega
    | tick :: ticks =>
      have hmem : ∀ {b'}, b' ∈ done ++ b :: bs →
          b' ∈ ([done ++ b :: bs] : List (List Block)).flatten := by
        intro b' hb'
        rwa [flatten_singleton]
      have hbmem : b ∈ done ++ b :: bs := by simp
      have hb := hinput.fresh b (hmem hbmem)
      have hsorted := hinput.sorted _ mem_cons_self
      rw [← view_tickStats s tick.ct] at hok hpend
      have hw1 : (s.tickStats tick.ct).WriterOk z compressLevel := by
        rw [tickStats]
        split_ifs
        · exact hw
        · exact hw
      obtain ⟨s1, hmerge, hws1, hpend1⟩ := exists_mergeBlock dmis retentionDeadline hz
        hfit hw1 (fun p hp => by
          obtain ⟨b', hb', htsid, hsc⟩ := hok.series p hp
          refine ⟨hok.loaded p hp, hpend p hp, ?_, fun hmetric => ?_⟩
          · have hle := (pairwise_append.mp hsorted).2.2 b' hb' b mem_cons_self
            rw [Block.streamKey, Block.streamKey, Prod.Lex.toLex_le_toLex] at hle
            rw [← htsid]
            rcases hle with hlt | ⟨heq, -⟩
            · exact hlt.le
            · exact heq.le
          · rw [← hsc]
            exact hinput.scale_eq b' (hmem (mem_append_left _ hb')) b (hmem hbmem)
              (by rw [htsid, hmetric])) hb (hinput.length_le b (hmem hbmem))
      have hstep := mergeBlock_step hok.loaded hb (fun p hp hmetric => by
        obtain ⟨b', hb', htsid, hsc⟩ := hok.series p hp
        rw [← hsc]
        exact hinput.scale_eq b' (hmem (mem_append_left _ hb')) b (hmem hbmem)
          (by rw [htsid, hmetric])) hmerge
      have hok1 := hstep.pendingOk hok hb.toLoaded
      rw [length_cons, length_cons] at hticks
      obtain ⟨bsm', s', hloop, hw', hpend'⟩ := ih hrest hws1 hok1 hpend1
        (by rwa [append_assoc, singleton_append]) (by omega)
        (fun t ht => hstop t (mem_cons_of_mem _ ht))
      refine ⟨bsm', s', ?_, hw', hpend'⟩
      rw [mergeLoop, hnext']
      simp only [Outcome.ok_bind, Bool.not_true, Bool.false_eq_true, if_false,
        hstop tick mem_cons_self, hblock, hmerge]
      exact hloop

/-- A merge of well-formed streams that is not stopped returns without an error. -/
theorem exists_mergeBlockStreams (hz : z.RoundTrips) (hfit : z.IndexBlocksFit)
    (hyields : List.Forall₂ (BlockStreamReader.Yields z) bsrs streams) (hinput : MergeInput streams)
    (dmis : Option Uint64Set) (retentionDeadline : Int64) (compressLevel : ℤ)
    (rowsMerged rowsDeleted : ℕ) (ticks : List Tick)
    (hticks : streams.flatten.length ≤ ticks.length) (hstop : ∀ tick ∈ ticks, tick.stop = false) :
    ∃ bufs s, mergeBlockStreams z 0 (.newInmemoryPart compressLevel) bsrs dmis retentionDeadline
      rowsMerged rowsDeleted ticks = .ok (some (.ok bufs, s)) := by
  have hdel : List.Forall₂ (readerOps z).Delivers bsrs streams :=
    hyields.imp fun _ _ h => BlockStreamReader.yields_iff_delivers.mp h
  obtain ⟨bsm, bs, hinit, hbsm, hperm, hsorted⟩ := HeapMerge.exists_delivers_start
    BlockStreamMerger.heapLess Block.streamKey BlockStreamMerger.describe
    BlockStreamMerger.describe hdel
  have hmem : ∀ b, b ∈ ([[] ++ bs] : List (List Block)).flatten → b ∈ streams.flatten := by
    intro b hb
    rw [flatten_singleton, nil_append] at hb
    exact hperm.mem_iff.mp hb
  have hinput' : MergeInput [[] ++ bs] := by
    refine ⟨fun b hb => hinput.fresh b (hmem b hb), fun b hb => hinput.length_le b (hmem b hb), ?_,
      fun b hb b' hb' => hinput.tsid_eq b (hmem b hb) b' (hmem b' hb'),
      fun b hb b' hb' => hinput.scale_eq b (hmem b hb) b' (hmem b' hb')⟩
    intro stream hstream
    rw [mem_singleton.mp hstream, nil_append]
    exact hsorted hinput.comparesBy hinput.sorted
  have hw : (MergeState.start (.newInmemoryPart compressLevel) rowsMerged rowsDeleted).WriterOk z
      compressLevel := ⟨[], [], rfl, by simp, .inl rfl⟩
  obtain ⟨bsm', s, hloop, hws, hpend⟩ := MergeState.exists_mergeLoop dmis retentionDeadline
    hz hfit hbsm hw (MergeState.pendingOk_start [])
    (fun _ hp => (nomatch hp)) hinput' (by rwa [hperm.length_eq]) hstop
  obtain ⟨bs₁, bs₂, -, -, hok, hend⟩ := MergeState.mergeLoop_steps hbsm
    (MergeState.pendingOk_start []) (fun b hb => hinput.fresh b (hperm.mem_iff.mp hb))
    (fun b hb b' hb' => hinput.scale_eq b (hperm.mem_iff.mp hb) b' (hperm.mem_iff.mp hb')) hloop
  have herror := (hend rfl).2
  obtain ⟨s', hlast, hws'⟩ : ∃ s', (if s.pendingBlockIsEmpty then .ok s else
      s.write z 0 s.pendingBlock) = .ok s' ∧ s'.WriterOk z compressLevel := by
    split_ifs with hempty
    · exact ⟨s, rfl, hws⟩
    · have hpending : s.view.pending = some s.pendingBlock := if_neg hempty
      exact hws.exists_write hz hfit ((hok.loaded _ hpending).writable (hpend _ hpending))
  obtain ⟨bufs, hclose⟩ := hws'.exists_mustClose hfit
  refine ⟨bufs, s'.flushStats, ?_⟩
  have hclose' : s'.flushStats.bsw.mustClose z = .ok bufs := hclose
  simp only [mergeBlockStreams, BlockStreamMerger.init, hinit, Outcome.ok_bind,
    mergeBlockStreamsInternal, hloop, herror, hlast, hclose']

/-- **Conservation of rows.** A merge without deduplication that ends without an error writes every
input row that is not deleted and not too old exactly as often as it is in the input, no other row
more often than it is in the input, and no row of a deleted series; the counters count the rows that
were written and those that were not. -/
theorem mergeBlockStreams_conserves
    (hyields : List.Forall₂ (BlockStreamReader.Yields z) bsrs streams)
    (hfresh : ∀ b ∈ streams.flatten, b.Fresh)
    (hscale : ∀ b ∈ streams.flatten, ∀ b' ∈ streams.flatten,
      b.bh.tsid.metricId = b'.bh.tsid.metricId → b.bh.scale = b'.bh.scale)
    (h : mergeBlockStreams z 0 bsw bsrs dmis retentionDeadline rowsMerged rowsDeleted ticks =
      .ok (some (.ok bufs, s))) :
    (∀ row, ¬ IsDeletedId dmis row.1 → retentionDeadline ≤ row.2.1 →
      (rowsOf s.written).count row = (rowsOf streams.flatten).count row) ∧
    (∀ row, (rowsOf s.written).count row ≤ (rowsOf streams.flatten).count row) ∧
    (∀ row ∈ rowsOf s.written, ¬ IsDeletedId dmis row.1) ∧
    s.rowsMerged = rowsMerged + Multiset.card (rowsOf s.written) ∧
    s.rowsMerged + s.rowsDeleted =
      rowsMerged + rowsDeleted + Multiset.card (rowsOf streams.flatten) ∧
    (∃ n, bsw.writeExternalBlocks z 0 default 0 s.written = .ok (s.bsw, s.ph, n)) ∧
    s.bsw.mustClose z = .ok bufs := by
  obtain ⟨bs, bs₂, v, hperm, -, hsteps, -, -, hend⟩ := mergeBlockStreams_steps hyields hfresh hscale
    h
  obtain ⟨rfl, hwritten, hmerged, hdeleted, hwrites, hclose⟩ := hend bufs rfl
  rw [append_nil] at hperm
  have hstart : MergeView.Conserves dmis retentionDeadline rowsMerged rowsDeleted [] 0
      ⟨none, [], rowsMerged, rowsDeleted⟩ := by
    refine ⟨rfl, ?_, ?_, rfl, rfl⟩
    · intro row hrow
      exact absurd hrow (Multiset.notMem_zero row)
    · intro row hrow
      exact absurd hrow (Multiset.notMem_zero row)
  obtain ⟨gone, hv⟩ := hsteps.conserves
    (fun b hb => (hfresh b (hperm.mem_iff.mp hb)).toLoaded) hstart
  obtain ⟨hrows, hkept, hcount, hgone⟩ := hv.finish
  rw [nil_append, rowsOf_perm hperm] at hrows
  rw [hwritten, hmerged, hdeleted, ← hrows]
  refine ⟨?_, ?_, hkept, hcount, ?_, hwritten ▸ hwrites, hclose⟩
  · intro row hid hts
    have hnot : row ∉ gone := fun hmem =>
      (hv.of_mem_gone row hmem).elim hid fun hlt => not_lt.mpr hts hlt
    rw [Multiset.count_add, Multiset.count_eq_zero_of_notMem hnot, Nat.add_zero]
  · intro row
    rw [Multiset.count_add]
    exact Nat.le_add_right _ _
  · rw [hcount, hgone, Multiset.card_add]
    omega

end Whole

/-! ### Two parts with overlapping blocks -/

/-- A reader over a part of one block. -/
theorem exists_reader_singleton {z : Zstd} (hz : z.RoundTrips) (hfit : z.IndexBlocksFit)
    (compressLevel : ℤ) {b : Block} (hb : b.Writable) :
    ∃ part r blk, writePart z 0 compressLevel [b] = .ok part ∧
      BlockStreamReader.fromInmemoryPart z part = .ok r ∧ r.Yields z [blk] ∧ blk.Fresh ∧
      blk.content = b.content := by
  have hbs : ∀ b' ∈ [b], b'.Writable := fun b' hb' => by rwa [mem_singleton.mp hb']
  obtain ⟨part, gs, hwrite, hlayout⟩ := exists_writePart hz hfit compressLevel hbs
  obtain ⟨r, hreader, hblock, hbefore⟩ :=
    hlayout.exists_before hz hfit (cons_ne_nil _ _) (pairwise_singleton _ _)
  match hflat : gs.flatten, hlayout.packs with
  | [p], .cons hp .nil =>
    have hyields := hbefore.yields hz hfit hlayout.packs (nil_append _) (by
      rw [hblock, hflat]
      exact pairwise_cons.mpr ⟨fun t _ => Tsid.default_le t, pairwise_singleton _ _⟩)
    rw [hflat] at hyields
    refine ⟨part, r, b.readBack p, hwrite, hreader, hyields, hp.fresh_readBack hb, ?_⟩
    rw [Block.content, Block.content, ← hp.tsid_eq, ← hp.scale_eq]
    rfl

/-- The rows of a fresh block, from what it says. -/
theorem Block.Fresh.rows_of_content {b b' : Block} (hcontent : b.content = b'.content) :
    b.bh.tsid = b'.bh.tsid ∧ b.bh.scale = b'.bh.scale ∧ b.rows = b'.rows := by
  obtain ⟨htsid, hscale, hts, hvals⟩ : b.bh.tsid = b'.bh.tsid ∧ b.bh.scale = b'.bh.scale ∧
      b.unreadTimestamps = b'.unreadTimestamps ∧ b.unreadValues = b'.unreadValues := by
    simpa only [Block.content, Prod.mk.injEq] using hcontent
  exact ⟨htsid, hscale, by rw [Block.rows, Block.rows, hts, hvals]⟩

/-- One-block streams of one series. -/
theorem mergeInput_of_singletons {blks : List Block} (hfresh : ∀ b ∈ blks, b.Fresh)
    (hlen : ∀ b ∈ blks, b.rows.length ≤ maxRowsPerBlock) {tsid : Tsid} {scale : Int16}
    (hseries : ∀ b ∈ blks, b.bh.tsid = tsid ∧ b.bh.scale = scale) :
    MergeInput (blks.map fun b => [b]) := by
  have hflat : (blks.map fun b => [b]).flatten = blks := by
    rw [← flatMap_def, flatMap_singleton']
  refine ⟨?_, ?_, ?_, ?_, ?_⟩
  · rwa [hflat]
  · rwa [hflat]
  · intro stream hstream
    obtain ⟨b, -, rfl⟩ := mem_map.mp hstream
    exact pairwise_singleton _ _
  · rw [hflat]
    intro b hb b' hb' _
    rw [(hseries b hb).1, (hseries b' hb').1]
  · rw [hflat]
    intro b hb b' hb' _
    rw [(hseries b hb).2, (hseries b' hb').2]

/-- The rows at 10, 20 and 40 are merged with those at 20 and 30; the first is too old. -/
theorem mergeBlockStreams_conserves_two :
    ∃ bsrs bufs s, mergeBlockStreams Zstd.stored 0 (.newInmemoryPart 1) bsrs none 15 0 0
        [⟨1, false⟩, ⟨1, false⟩] = .ok (some (.ok bufs, s)) ∧
      (rowsOf s.written).count (4, 20, 6) = 1 ∧ (rowsOf s.written).count (4, 20, 7) = 1 ∧
      s.rowsMerged + s.rowsDeleted = 5 := by
  have hz := Zstd.roundTrips_stored
  have hfit := Zstd.indexBlocksFit_stored
  obtain ⟨-, r1, blk1, -, -, hy1, hf1, hc1⟩ := exists_reader_singleton hz hfit 1
    (b := .ofRows ⟨1, 2, 3, 4⟩ [10, 20, 40] [5, 6, 9]) ⟨rfl, by decide, by decide, by decide, rfl⟩
  obtain ⟨-, r2, blk2, -, -, hy2, hf2, hc2⟩ := exists_reader_singleton hz hfit 1
    (b := .ofRows ⟨1, 2, 3, 4⟩ [20, 30] [7, 8]) ⟨rfl, by decide, by decide, by decide, rfl⟩
  obtain ⟨htsid1, hscale1, hrows1⟩ := Block.Fresh.rows_of_content hc1
  obtain ⟨htsid2, hscale2, hrows2⟩ := Block.Fresh.rows_of_content hc2
  have hall : ∀ {P : Block → Prop}, P blk1 → P blk2 → ∀ b ∈ [blk1, blk2], P b := by
    intro P h1 h2 b hb
    rcases mem_cons.mp hb with rfl | hb
    · exact h1
    · rwa [mem_singleton.mp hb]
  have hinput := mergeInput_of_singletons (hall hf1 hf2)
    (hall (by rw [hrows1]; decide) (by rw [hrows2]; decide))
    (hall ⟨htsid1, hscale1⟩ ⟨htsid2, hscale2⟩)
  have hyields : List.Forall₂ (BlockStreamReader.Yields Zstd.stored) [r1, r2] [[blk1], [blk2]] :=
    .cons hy1 (.cons hy2 .nil)
  have hstreams : rowsOf ([blk1, blk2].map fun b => [b]).flatten =
      {(4, 10, 5), (4, 20, 6), (4, 40, 9), (4, 20, 7), (4, 30, 8)} := by
    change blk1.seriesRows + (blk2.seriesRows + 0) = _
    rw [Block.seriesRows, Block.seriesRows, hrows1, hrows2, htsid1, htsid2]
    rfl
  obtain ⟨bufs, s, hmerge⟩ := exists_mergeBlockStreams hz hfit hyields hinput none 15 1 0 0
    [⟨1, false⟩, ⟨1, false⟩] (Nat.le_refl 2) (by simp)
  obtain ⟨hkept, -, -, -, hcount, -⟩ := mergeBlockStreams_conserves hyields hinput.fresh
    hinput.scale_eq hmerge
  refine ⟨[r1, r2], bufs, s, hmerge, ?_, ?_, ?_⟩
  · rw [hkept _ (by simp [IsDeletedId]) (by decide)]
    exact (congrArg (Multiset.count (4, 20, 6)) hstreams).trans (by decide)
  · rw [hkept _ (by simp [IsDeletedId]) (by decide)]
    exact (congrArg (Multiset.count (4, 20, 7)) hstreams).trans (by decide)
  · rw [hcount, Nat.zero_add]
    exact congrArg Multiset.card hstreams

end Esmetrics
