import Esmetrics.Esmagent.Scrape.AutoMetrics
import Esmetrics.Lib.NamedValues
import Esmetrics.Relabel.Apply

/-!
# The labels of a scraped series

Model of `build_series` in `esmagent/src/scrape/scrapework.rs`: the labels of a row are merged with
those of the target, and what remains with the external ones. Where `honor_labels` is not set, a
label that is in the way of another one is renamed to `exported_` and its name, and a label that has
this name already gets the prefix once more.

That second name is not checked, and labels that the same call has appended are not looked at. Where
a renamed label has room (`Room`), the merge is an update of the function that the labels show
(`shows_foldl_displace`); otherwise a name occurs twice from then on (`exists_twice_of_not_room`).
The labels of a target stay where they are unless an external label displaces them (`keeps_iff`).
-/

namespace Esmetrics.Esmagent.Scrape

open List
open Function (Injective update update_idem update_of_ne update_self)

open Relabel (Label ParsedConfigs Library)

/-! ### Building a series -/

/-- A row that was parsed. -/
structure Row where
  metric : Bytes
  tags : List (Bytes × Bytes)
  /-- The bits of the value. -/
  value : UInt64
  timestamp : Int64

def rowLabels (row : Row) : List Label := ⟨metricName, row.metric⟩ :: row.tags.map fun t =>
  ⟨t.1, t.2⟩

def buildSeries (lib : Library) (metricRelabel : ParsedConfigs) (honorTimestamps : Bool)
    (cfg : ScrapeConfigResolved) (row : Row) (scrapeTimestampMs : Int64) : Option OwnedSeries :=
  let labels := mergeExtraLabels (rowLabels row) cfg.targetLabels cfg.honorLabels
  let (kept, labels) := Relabel.apply lib metricRelabel labels
  if !kept then none
  else
    let labels := finalizeLabels labels
    if labels = [] then none
    else
      let labels := mergeExtraLabels labels cfg.externalLabels cfg.honorLabels
      let sampleTimestamp :=
        if honorTimestamps ∧ row.timestamp ≠ 0 then row.timestamp else scrapeTimestampMs
      some ⟨labels, [⟨.row row.value, sampleTimestamp⟩]⟩

/-! ### The labels in front of the merged ones -/

/-- What the merge of a label does to the labels that were there before the call. -/
def displace (k : Bytes) (labels : List Label) : List Label :=
  match labels.findIdx? (fun l : Label => l.name = k) with
  | none => labels
  | some pos =>
    (match labels.findIdx? (fun l : Label => l.name = exported k) with
      | some dup => labels.modify dup (setName (exported (exported k)))
      | none => labels).modify pos (setName (exported k))

theorem length_displace (k : Bytes) (labels : List Label) :
    (displace k labels).length = labels.length := by
  rw [displace]
  split
  · rfl
  · split
    · rw [length_modify, length_modify]
    · rw [length_modify]

variable {k name value : Bytes} {pos i : ℕ}

theorem lt_of_findIdx? {labels : List Label}
    (h : labels.findIdx? (fun l : Label => l.name = k) = some pos) :
    pos < labels.length :=
  (findIdx?_eq_some_iff_findIdx_eq.mp h).1

theorem modify_append_left (f : Label → Label) {labels : List Label} (hi : i < labels.length)
    (rest : List Label) : (labels ++ rest).modify i f = labels.modify i f ++ rest := by
  induction labels generalizing i with
  | nil => cases hi
  | cons l labels ih =>
    cases i with
    | zero => rfl
    | succ i =>
      rw [cons_append, modify_succ_cons, modify_succ_cons, cons_append,
        ih (Nat.lt_of_succ_lt_succ hi)]

theorem mergeExtraLabel_append (labels appended : List Label) (x : Label) :
    mergeExtraLabel false labels.length (labels ++ appended) x =
    displace x.name labels ++ (appended ++ [x]) := by
  rw [mergeExtraLabel, displace, take_left]
  rcases hpos : labels.findIdx? (fun l : Label => l.name = x.name) with _ | pos
  · exact append_assoc _ _ _
  · have hlt := lt_of_findIdx? hpos
    rcases hdup : labels.findIdx? (fun l : Label => l.name = exported x.name) with _ | dup
    · simp only [Bool.false_eq_true, if_false, hdup]
      rw [modify_append_left _ hlt, append_assoc]
    · have hmodified : pos < (labels.modify dup (setName (exported (exported x.name)))).length := by
        rwa [length_modify]
      simp only [Bool.false_eq_true, if_false, hdup]
      rw [modify_append_left _ (lt_of_findIdx? hdup), modify_append_left _ hmodified, append_assoc]

theorem mergeExtraLabels_eq (labels extra : List Label) :
    mergeExtraLabels labels extra false = extra.foldl (fun w x => displace x.name w)
    labels ++ extra := by
  have hrun : ∀ appended w, w.length = labels.length →
      extra.foldl (mergeExtraLabel false labels.length) (w ++ appended) =
        extra.foldl (fun w x => displace x.name w) w ++ (appended ++ extra) := by
    induction extra with
    | nil => intro appended w _; rw [append_nil]; rfl
    | cons x extra ih =>
      intro appended w hw
      rw [foldl_cons, foldl_cons, ← hw, mergeExtraLabel_append, hw,
        ih _ _ ((length_displace _ _).trans hw), append_assoc, singleton_append]
  have h := hrun [] labels rfl
  rwa [append_nil, nil_append] at h

/-- A merge that honors the labels drops those whose names are in use. -/
theorem mergeExtraLabels_honored (labels extra : List Label) :
    mergeExtraLabels labels extra true = labels ++ extra.filter fun x =>
    x.name ∉ labels.map Label.name := by
  have hrun : ∀ appended, extra.foldl (mergeExtraLabel true labels.length) (labels ++ appended) =
      labels ++ (appended ++ extra.filter fun x => x.name ∉ labels.map Label.name) := by
    induction extra with
    | nil => intro appended; rw [filter_nil, append_nil]; rfl
    | cons x extra ih =>
      intro appended
      rw [foldl_cons, mergeExtraLabel, take_left]
      rcases hpos : labels.findIdx? (fun l : Label => l.name = x.name) with _ | pos
      · have hnot : x.name ∉ labels.map Label.name := by
          simpa [findIdx?_eq_none_iff] using hpos
        dsimp only
        rw [append_assoc, ih, filter_cons_of_pos (by simpa using hnot), append_assoc,
          singleton_append]
      · obtain ⟨hlt, hname, -⟩ := findIdx?_eq_some_iff_getElem.mp hpos
        have hmem : x.name ∈ labels.map Label.name :=
          mem_map.mpr ⟨_, getElem_mem hlt, of_decide_eq_true hname⟩
        dsimp only
        rw [if_pos rfl, ih, filter_cons_of_neg (by simpa using hmem)]
  have h := hrun []
  rwa [append_nil, nil_append] at h

/-! ### Names in use -/

/-- The name that a merge adds to those in use. -/
def newName (used : List Bytes) (k : Bytes) : Bytes :=
  if k ∉ used then k else if exported k ∉ used then exported k else exported (exported k)

theorem findIdx?_eq_none_iff {labels : List Label} :
    labels.findIdx? (fun l : Label => l.name = k) = none ↔ k ∉ labels.map Label.name := by
  rw [List.findIdx?_eq_none_iff, List.mem_map, not_exists]
  simp only [decide_eq_false_iff_not, not_and]

theorem getElem?_of_findIdx? {labels : List Label}
    (h : labels.findIdx? (fun l : Label => l.name = k) = some pos) : ∃ l,
    labels[pos]? = some l ∧ l.name = k := by
  obtain ⟨hlt, hname, -⟩ := findIdx?_eq_some_iff_getElem.mp h
  exact ⟨labels[pos], getElem?_eq_getElem hlt, of_decide_eq_true hname⟩

theorem mem_of_findIdx? {labels : List Label}
    (h : labels.findIdx? (fun l : Label => l.name = k) = some pos) :
    k ∈ labels.map Label.name := by
  obtain ⟨l, hl, rfl⟩ := getElem?_of_findIdx? h
  exact mem_map_of_mem (mem_of_getElem? hl)

theorem modify_perm {labels : List Label} {l : Label} (f : Label → Label)
    (h : labels[i]? = some l) : (l :: labels.modify i f).Perm (f l :: labels) := by
  induction labels generalizing i with
  | nil => cases h
  | cons a labels ih =>
    cases i with
    | zero =>
      cases h
      exact Perm.swap _ _ _
    | succ i =>
      rw [getElem?_cons_succ] at h
      rw [modify_succ_cons]
      exact (Perm.swap _ _ _).trans (((ih h).cons a).trans (Perm.swap _ _ _))

/-- Renaming a label puts one name in the place of another. -/
theorem names_modify_perm {labels : List Label} {l : Label} (name : Bytes)
    (h : labels[i]? = some l) :
    (l.name :: (labels.modify i (setName name)).map Label.name).Perm
    (name :: labels.map Label.name) :=
  (modify_perm (setName name) h).map Label.name

theorem length_exported (k : Bytes) : (exported k).length = 9 + k.length := by
  rw [exported, length_append, (by decide : (ascii "exported_").length = 9)]

theorem exported_ne (k : Bytes) : exported k ≠ k := by
  intro heq
  have hlen := congrArg List.length heq
  rw [length_exported] at hlen
  omega

theorem exported_injective : Injective exported := fun _ _ h => append_cancel_left h

/-- **One name is added** by the merge of a label. -/
theorem names_displace_perm (k : Bytes) (labels : List Label) :
    (k :: (displace k labels).map Label.name).Perm (newName (labels.map Label.name) k ::
      labels.map Label.name) := by
  rw [displace, newName]
  rcases hpos : labels.findIdx? (fun l : Label => l.name = k) with _ | pos
  · rw [if_pos (findIdx?_eq_none_iff.mp hpos)]
  · obtain ⟨l, hl, rfl⟩ := getElem?_of_findIdx? hpos
    rw [if_neg (not_not.mpr (mem_of_findIdx? hpos))]
    rcases hdup : labels.findIdx? (fun l' : Label => l'.name = exported l.name) with _ | dup
    · rw [if_pos (findIdx?_eq_none_iff.mp hdup)]
      exact names_modify_perm _ hl
    · obtain ⟨d, hd, hname⟩ := getElem?_of_findIdx? hdup
      rw [if_neg (not_not.mpr (mem_of_findIdx? hdup))]
      have hne : dup ≠ pos := by
        rintro rfl
        rw [hl] at hd
        cases hd
        exact exported_ne _ hname.symm
      have hl' : (labels.modify dup (setName (exported (exported l.name))))[pos]? = some l :=
        (getElem?_modify_ne _ _ hne).trans hl
      have hfirst := names_modify_perm (exported (exported l.name)) hd
      rw [hname] at hfirst
      exact (names_modify_perm (exported l.name) hl').trans hfirst

/-! ### The merge as an update -/

def pair (l : Label) : Bytes × Bytes := (l.name, l.value)

theorem fst_pair (labels : List Label) : (labels.map pair).map Prod.fst =
    labels.map Label.name := by
  rw [map_map]
  rfl

theorem mem_pair {labels : List Label} :
    (name, value) ∈ labels.map pair ↔ (⟨name, value⟩ : Label) ∈ labels := by
  rw [mem_map]
  constructor
  · rintro ⟨⟨n, v⟩, hl, heq⟩
    cases heq
    exact hl
  · exact fun hl => ⟨_, hl, rfl⟩

/-- A label is laid on a name: the value that is there moves to the exported name, and a value that
is there moves once more. -/
def lay (f : Bytes → Option Bytes) (x : Label) : Bytes → Option Bytes :=
  match f x.name, f (exported x.name) with
  | none, _ => update f x.name (some x.value)
  | some v, none => update (update f (exported x.name) (some v)) x.name (some x.value)
  | some v, some w =>
    update
      (update (update f (exported (exported x.name)) (some w)) (exported x.name) (some v))
      x.name (some x.value)

/-- Where a label and its exported name are both in use, the exported name is not one of a label
that was merged before, and the name after it is free. -/
def HasRoom (f : Bytes → Option Bytes) (placed : List Bytes) (k : Bytes) : Prop :=
  f k ≠ none → f (exported k) ≠ none → exported k ∉ placed ∧ f (exported (exported k)) = none

/-- Every label of a list has room when its turn comes. -/
def Room (f : Bytes → Option Bytes) (placed : List Bytes) : List Label → Prop
  | [] => True
  | x :: extra => HasRoom f placed x.name ∧ Room (lay f x) (placed ++ [x.name]) extra

/-- No label of a list displaces the label `t`, unless by one with the same value. -/
def Keeps (f : Bytes → Option Bytes) (t : Bytes) : List Label → Prop
  | [] => True
  | x :: extra => (exported x.name = t → f x.name ≠ none → f x.name = f t) ∧ Keeps (lay f x) t extra

section Step

variable {f : Bytes → Option Bytes} {labels appended : List Label} {x : Label}

/-- A renamed label, as an update of what is shown. -/
theorem shows_modify {all : List Label} (h : Shows (all.map pair) f) {i : ℕ} {l : Label}
    (hl : all[i]? = some l) {k' : Bytes} (hk' : f k' = none) :
    Shows ((all.modify i (setName k')).map pair)
      (update (update f k' (some l.value)) l.name none) := by
  have hmem : (l.name, l.value) ∈ all.map pair := mem_pair.mpr (mem_of_getElem? hl)
  have hrename := h.rename ((h.mem_iff _ _).mp hmem) hk'
  have hmap : (all.modify i (setName k')).map pair =
      (all.map pair).map fun kv => (if kv.1 = l.name then k' else kv.1, kv.2) := by
    apply ext_getElem?
    intro j
    simp only [getElem?_map, getElem?_modify]
    rcases hj : all[j]? with _ | a
    · rfl
    · by_cases hij : i = j
      · subst hij
        rw [hl] at hj
        cases hj
        simp [pair, setName]
      · have hne : a.name ≠ l.name := by
          intro heq
          have hnodup := h.nodup
          rw [fst_pair] at hnodup
          obtain ⟨hi, -⟩ := List.getElem?_eq_some_iff.mp hl
          refine hij ((getElem?_inj (by rwa [length_map]) hnodup).mp ?_)
          rw [getElem?_map, getElem?_map, hl, hj, Option.map_some, Option.map_some, heq]
        simp [pair, hij, hne]
  rw [hmap]
  exact hrename

/-- **Merging a label that has room** is an update. -/
theorem shows_displace (h : Shows ((labels ++ appended).map pair) f)
    (hx : x.name ∉ appended.map Label.name)
    (hroom : HasRoom f (appended.map Label.name) x.name) :
    Shows ((displace x.name labels ++ (appended ++ [x])).map pair) (lay f x) := by
  have happend (w : List Label) : (w ++ (appended ++ [x])).map pair =
      (w ++ appended).map pair ++ [(x.name, x.value)] := by
    rw [← append_assoc, map_append, map_singleton]
    rfl
  have hnone {k : Bytes} (hk : f k = none) :
      labels.findIdx? (fun l : Label => l.name = k) = none := by
    have hnot := h.not_mem hk
    rw [fst_pair, map_append, mem_append, not_or] at hnot
    exact findIdx?_eq_none_iff.mpr hnot.1
  have hsome {k v : Bytes} (hk : f k = some v) (hmem : k ∉ appended.map Label.name) :
      ∃ pos, labels.findIdx? (fun l : Label => l.name = k) = some pos ∧
      labels[pos]? = some ⟨k, v⟩ := by
    rcases hpos : labels.findIdx? (fun l : Label => l.name = k) with _ | pos
    · have hused := mem_names.mpr ⟨v, (h.mem_iff k v).mpr hk⟩
      rw [fst_pair, map_append, mem_append] at hused
      exact absurd (hused.resolve_left (findIdx?_eq_none_iff.mp hpos)) hmem
    · obtain ⟨l, hl, rfl⟩ := getElem?_of_findIdx? hpos
      have hlmem := mem_append_left appended (mem_of_getElem? hl)
      have hvalue := (h.mem_iff l.name l.value).mp (mem_pair.mpr hlmem)
      rw [hk] at hvalue
      cases hvalue
      exact ⟨pos, rfl, hl⟩
  rcases hk : f x.name with _ | v
  · rw [displace, hnone hk, happend]
    simp only [lay, hk]
    exact h.concat hk x.value
  · obtain ⟨pos, hpos, hl⟩ := hsome hk hx
    have hlt := lt_of_findIdx? hpos
    have hall : (labels ++ appended)[pos]? = some ⟨x.name, v⟩ := by
      rw [getElem?_append_left hlt, hl]
    rcases hexp : f (exported x.name) with _ | w
    · rw [displace, hpos, hnone hexp, happend]
      simp only [lay, hk, hexp]
      have hrenamed := shows_modify h hall hexp
      rw [modify_append_left _ hlt] at hrenamed
      refine (hrenamed.concat (update_self ..) x.value).congr fun y => ?_
      rw [update_idem]
    · obtain ⟨hplaced, hfree⟩ := hroom (by simp [hk]) (by simp [hexp])
      obtain ⟨dup, hdup, hd⟩ := hsome hexp hplaced
      have hdlt := lt_of_findIdx? hdup
      rw [displace, hpos, hdup, happend]
      simp only [lay, hk, hexp]
      have halld : (labels ++ appended)[dup]? = some ⟨exported x.name, w⟩ := by
        rw [getElem?_append_left hdlt, hd]
      have hfirst := shows_modify h halld hfree
      rw [modify_append_left _ hdlt] at hfirst
      have hne : dup ≠ pos := by
        rintro rfl
        rw [hl] at hd
        exact exported_ne _ (congrArg Label.name (Option.some.inj hd)).symm
      have hltm : pos < (labels.modify dup (setName (exported (exported x.name)))).length := by
        rwa [length_modify]
      have hall' : (labels.modify dup (setName (exported (exported x.name))) ++ appended)[pos]? =
          some ⟨x.name, v⟩ := by
        rw [getElem?_append_left hltm, getElem?_modify_ne _ _ hne, hl]
      have hsecond := shows_modify hfirst hall' (update_self ..)
      rw [modify_append_left _ hltm] at hsecond
      refine (hsecond.concat (update_self ..) x.value).congr fun y => ?_
      rw [update_idem, update_idem]

/-- **A run of merges with room** shows what all the updates give. -/
theorem shows_foldl_displace {extra : List Label} (h : Shows ((labels ++ appended).map pair) f)
    (hnodup : ((appended ++ extra).map Label.name).Nodup)
    (hroom : Room f (appended.map Label.name) extra) :
    Shows ((extra.foldl (fun w x => displace x.name w) labels ++ (appended ++ extra)).map pair)
      (extra.foldl lay f) := by
  induction extra generalizing f labels appended with
  | nil =>
    rw [append_nil]
    exact h
  | cons x extra ih =>
    rw [append_cons] at hnodup
    have hx : x.name ∉ appended.map Label.name := by
      rw [map_append, map_append, append_assoc] at hnodup
      exact fun hmem => (disjoint_of_nodup_append hnodup) hmem mem_cons_self
    have hstep := shows_displace h hx hroom.1
    rw [foldl_cons, foldl_cons, append_cons appended x extra]
    refine ih hstep hnodup ?_
    rw [map_append]
    exact hroom.2

/-! ### A name that occurs twice -/

/-- How often a name is in use. -/
def occurs (d : Bytes) (labels : List Label) : ℕ := (labels.map Label.name).count d

theorem occurs_append (d : Bytes) (l l' : List Label) :
    occurs d (l ++ l') = occurs d l + occurs d l' := by
  rw [occurs, map_append, count_append]
  rfl

/-- A merge counts its new name. -/
theorem occurs_displace (d : Bytes) (labels appended : List Label) (x : Label) :
    occurs d (displace x.name labels ++ (appended ++ [x])) =
      occurs d (labels ++ appended) + if newName (labels.map Label.name) x.name = d then 1
        else 0 := by
  have hperm := (names_displace_perm x.name labels).count_eq d
  rw [count_cons, count_cons] at hperm
  have hsingle : occurs d [x] = if x.name = d then 1 else 0 := by
    rw [occurs, map_singleton, count_singleton]
    simp only [beq_iff_eq]
  simp only [beq_iff_eq] at hperm
  rw [occurs_append, occurs_append, occurs_append, hsingle]
  simp only [occurs] at *
  omega

theorem occurs_foldl_displace_le (d : Bytes) (labels appended extra : List Label) :
    occurs d (labels ++ appended) ≤
      occurs d (extra.foldl (fun w x => displace x.name w) labels ++ (appended ++ extra)) := by
  induction extra generalizing labels appended with
  | nil => rw [append_nil]; exact le_rfl
  | cons x extra ih =>
    rw [foldl_cons, append_cons appended x extra]
    refine le_trans ?_ (ih (displace x.name labels) (appended ++ [x]))
    rw [occurs_displace]
    exact Nat.le_add_right _ _

/-- Without room, an exported name is in use twice from then on. -/
theorem exists_twice_of_not_room {extra : List Label} (h : Shows ((labels ++ appended).map pair) f)
    (hnodup : ((appended ++ extra).map Label.name).Nodup)
    (hroom : ¬ Room f (appended.map Label.name) extra) :
    ∃ k, 2 ≤ occurs (exported k) (extra.foldl (fun w x => displace x.name w) labels ++
      (appended ++ extra)) := by
  induction extra generalizing f labels appended with
  | nil => exact absurd trivial hroom
  | cons x extra ih =>
    rw [foldl_cons, append_cons appended x extra]
    rw [append_cons] at hnodup
    have hx : x.name ∉ appended.map Label.name := by
      rw [map_append, map_append, append_assoc] at hnodup
      exact fun hmem => (disjoint_of_nodup_append hnodup) hmem mem_cons_self
    by_cases hfirst : HasRoom f (appended.map Label.name) x.name
    · refine ih (shows_displace h hx hfirst) hnodup fun hrest => hroom ⟨hfirst, ?_⟩
      rwa [map_append] at hrest
    · -- the new name was in use
      have hused {k : Bytes} (hk : f k ≠ none) : k ∈ labels.map Label.name ∨
          k ∈ appended.map Label.name := by
        by_contra hnot
        refine hk (h.eq_none_iff.mpr ?_)
        rwa [fst_pair, map_append, mem_append]
      simp only [HasRoom, not_forall] at hfirst
      obtain ⟨hk, hexp, hbad⟩ := hfirst
      have hmem := (hused hk).resolve_right hx
      obtain ⟨k, hk'⟩ : ∃ k, newName (labels.map Label.name) x.name = exported k ∧
          0 < occurs (exported k) (labels ++ appended) := by
        have hpos {k : Bytes} (hk : k ∈ labels.map Label.name ∨ k ∈ appended.map Label.name) :
            0 < occurs k (labels ++ appended) := by
          rw [occurs, map_append]
          exact count_pos_iff.mpr (mem_append.mpr hk)
        by_cases hexpmem : exported x.name ∈ labels.map Label.name
        · refine ⟨exported x.name, ?_, ?_⟩
          · rw [newName, if_neg (not_not.mpr hmem), if_neg (not_not.mpr hexpmem)]
          · have hdisjoint := h.nodup
            rw [fst_pair, map_append] at hdisjoint
            have hnot : exported x.name ∉ appended.map Label.name :=
              fun hmem' => (disjoint_of_nodup_append hdisjoint) hexpmem hmem'
            exact hpos (hused fun hfree => hbad ⟨hnot, hfree⟩)
        · refine ⟨x.name, ?_, hpos (hused hexp)⟩
          rw [newName, if_neg (not_not.mpr hmem), if_pos hexpmem]
      refine ⟨k, le_trans ?_ (occurs_foldl_displace_le _ _ _ _)⟩
      rw [occurs_displace, if_pos hk'.1]
      exact Nat.succ_le_succ hk'.2

end Step

/-! ### Labels that stay where they are -/

section Keeps

variable {f : Bytes → Option Bytes} {placed : List Bytes} {t u : Bytes}

theorem lay_apply {x : Label} (hroom : HasRoom f placed x.name) (ht : f t = some u)
    (hne : t ≠ x.name) :
    lay f x t = if exported x.name = t ∧ f x.name ≠ none then f x.name else some u := by
  rcases hk : f x.name with _ | v
  · simp only [lay, hk]
    rw [update_of_ne hne, ht, if_neg (by simp)]
  · rcases hexp : f (exported x.name) with _ | w
    · have hexpne : exported x.name ≠ t := by
        rintro rfl
        rw [ht] at hexp
        cases hexp
      simp only [lay, hk, hexp]
      rw [update_of_ne hne, update_of_ne hexpne.symm, ht, if_neg fun h => hexpne h.1]
    · simp only [lay, hk, hexp]
      rw [update_of_ne hne]
      by_cases hexpt : exported x.name = t
      · rw [hexpt, update_self, if_pos ⟨rfl, Option.some_ne_none v⟩]
      · have hfree : exported (exported x.name) ≠ t := by
          rintro rfl
          rw [(hroom (by simp [hk]) (by simp [hexp])).2] at ht
          cases ht
        rw [update_of_ne (Ne.symm hexpt), update_of_ne hfree.symm, ht, if_neg fun h => hexpt h.1]

/-- A label that is not merged itself is there in the end if and only if none displaces it. -/
theorem keeps_iff {extra : List Label} (hroom : Room f placed extra)
    (hnodup : (extra.map Label.name).Nodup)
    (ht : t ∉ extra.map Label.name) (hf : f t = some u) : (extra.foldl lay f) t = some u ↔
    Keeps f t extra := by
  induction extra generalizing f placed u with
  | nil => exact ⟨fun _ => trivial, fun _ => hf⟩
  | cons x extra ih =>
    obtain ⟨hx, hnodup'⟩ := nodup_cons.mp hnodup
    obtain ⟨hne, ht'⟩ := not_or.mp (mem_cons.not.mp ht)
    have hlay := lay_apply hroom.1 hf hne
    rw [foldl_cons, Keeps]
    by_cases hmoved : exported x.name = t ∧ f x.name ≠ none
    · obtain ⟨v, hv⟩ := Option.ne_none_iff_exists'.mp hmoved.2
      rw [if_pos hmoved, hv] at hlay
      -- no other label has this exported name
      have hrest : ∀ (rest : List Label) (g : Bytes → Option Bytes), x.name ∉ rest.map Label.name →
          Keeps g t rest := by
        intro rest
        induction rest with
        | nil => exact fun _ _ => trivial
        | cons y rest ihrest =>
          intro g hy
          obtain ⟨hy, hrest⟩ := not_or.mp (mem_cons.not.mp hy)
          exact ⟨fun heq _ => absurd (exported_injective (hmoved.1.trans heq.symm)) hy,
            ihrest _ hrest⟩
      have hfinal := (ih hroom.2 hnodup' ht' hlay).mpr (hrest extra _ hx)
      rw [hfinal, hv, hf]
      exact ⟨fun heq => ⟨fun _ _ => heq, hrest extra _ hx⟩,
        fun h => h.1 hmoved.1 (Option.some_ne_none v)⟩
    · rw [if_neg hmoved] at hlay
      rw [ih hroom.2 hnodup' ht' hlay]
      exact (and_iff_right fun heq hk => absurd ⟨heq, hk⟩ hmoved).symm

end Keeps

/-! ### Values that survive -/

/-- A value is there under a name or under an exported one. -/
def Survives (name value : Bytes) (labels : List Label) : Prop :=
  ∃ n, (⟨exported^[n] name, value⟩ : Label) ∈ labels

theorem mem_modify {labels : List Label} {a l : Label} (f : Label → Label)
    (ha : labels[i]? = some a)
    (hl : l ∈ labels) : l ∈ labels.modify i f ∨ l = a ∧ f a ∈ labels.modify i f := by
  rcases mem_cons.mp ((modify_perm f ha).mem_iff.mpr (mem_cons_of_mem _ hl)) with rfl | hmem
  · refine .inr ⟨rfl, mem_of_getElem? (i := i) ?_⟩
    rw [getElem?_modify_eq, ha]
    rfl
  · exact .inl hmem

/-- A label is renamed at most once. -/
theorem mem_displace {labels : List Label} {l : Label} (k : Bytes) (hl : l ∈ labels) :
    l ∈ displace k labels ∨ (⟨exported l.name, l.value⟩ : Label) ∈ displace k labels := by
  rw [displace]
  rcases hpos : labels.findIdx? (fun l : Label => l.name = k) with _ | pos
  · exact .inl hl
  · obtain ⟨a, ha, rfl⟩ := getElem?_of_findIdx? hpos
    rcases hdup : labels.findIdx? (fun l : Label => l.name = exported a.name) with _ | dup
    · obtain hmem | ⟨rfl, hmem⟩ := mem_modify (setName (exported a.name)) ha hl
      · exact .inl hmem
      · exact .inr hmem
    · obtain ⟨d, hd, hname⟩ := getElem?_of_findIdx? hdup
      have hne : dup ≠ pos := by
        rintro rfl
        rw [ha] at hd
        cases hd
        exact exported_ne _ hname.symm
      have ha' : (labels.modify dup (setName (exported (exported a.name))))[pos]? = some a :=
        (getElem?_modify_ne _ _ hne).trans ha
      obtain hmem | ⟨rfl, hmem⟩ := mem_modify (setName (exported (exported a.name))) hd hl
      · obtain hmem | ⟨rfl, hmem⟩ := mem_modify (setName (exported a.name)) ha' hmem
        · exact .inl hmem
        · exact .inr hmem
      · rw [← hname] at hmem
        obtain hmem | ⟨heq, -⟩ := mem_modify (setName (exported a.name)) (hname ▸ ha') hmem
        · exact .inr (hname ▸ hmem)
        · -- the two names differ in length
          have hlen := congrArg (fun l => l.name.length) heq
          simp only [setName, hname, length_exported] at hlen
          omega

theorem Survives.displace {labels : List Label} (h : Survives name value labels) (k : Bytes) :
    Survives name value (displace k labels) := by
  obtain ⟨n, hn⟩ := h
  obtain hmem | hmem := mem_displace k hn
  · exact ⟨n, hmem⟩
  · refine ⟨n + 1, ?_⟩
    rw [Function.iterate_succ_apply']
    exact hmem

theorem Survives.mergeExtraLabels {labels : List Label} (h : Survives name value labels)
    (extra : List Label) : Survives name value (mergeExtraLabels labels extra false) := by
  rw [mergeExtraLabels_eq]
  have hfold : Survives name value (extra.foldl (fun w x => Scrape.displace x.name w) labels) := by
    induction extra generalizing labels with
    | nil => exact h
    | cons x extra ih => exact ih (h.displace x.name)
  obtain ⟨n, hn⟩ := hfold
  exact ⟨n, mem_append_left _ hn⟩

/-- The names that `finalize_labels` retains. -/
def isFinalName (name : Bytes) : Bool := isFinal ⟨name, []⟩

theorem isFinalName_exported (k : Bytes) : isFinalName (exported k) = true := rfl

theorem isFinalName_of_not (h : ¬ ascii "__" <+: name) : isFinalName name = true := by
  have hpre : (ascii "__").isPrefixOf name = false := by
    rw [Bool.eq_false_iff, ne_eq, isPrefixOf_iff_prefix]
    exact h
  rw [isFinalName, isFinal, hpre]
  rfl

theorem Survives.finalizeLabels {labels : List Label} (h : Survives name value labels)
    (hname : ¬ ascii "__" <+: name) : Survives name value (finalizeLabels labels) := by
  obtain ⟨n, hn⟩ := h
  refine ⟨n, mem_filter.mpr ⟨hn, ?_⟩⟩
  cases n with
  | zero => exact isFinalName_of_not hname
  | succ n =>
    rw [Function.iterate_succ_apply'] at hn ⊢
    exact isFinalName_exported _

/-! ### The labels of a series -/

/-- The labels that a row gets. -/
def seriesLabels (cfg : ScrapeConfigResolved) (row : Row) : List Label :=
  mergeExtraLabels (finalizeLabels (mergeExtraLabels (rowLabels row) cfg.targetLabels
    cfg.honorLabels)) cfg.externalLabels cfg.honorLabels

theorem buildSeries_labels (lib : Library) (honorTimestamps : Bool)
    (cfg : ScrapeConfigResolved) (row : Row)
    (scrapeTimestampMs : Int64) : ∃ samples,
      buildSeries lib [] honorTimestamps cfg row scrapeTimestampMs =
      some ⟨seriesLabels cfg row, samples⟩ := by
  have hstart : HeadFinal (rowLabels row) := ⟨_, rfl, (by decide : isFinalName metricName = true)⟩
  have hmerged := (mergeExtraLabels_modify cfg.honorLabels hstart cfg.targetLabels []).1
  have hfinal := (finalizeLabels_modify hmerged []).1
  exact ⟨_, if_neg hfinal.ne_nil⟩

/-- The labels of a series are well formed and nothing is lost. -/
structure Attached (cfg : ScrapeConfigResolved) (row : Row) (labels : List Label) : Prop where
  nodup : (labels.map Label.name).Nodup
  external : cfg.honorLabels = false → ∀ l ∈ cfg.externalLabels, l ∈ labels
  target : cfg.honorLabels = false → ∀ l ∈ cfg.targetLabels, ¬ ascii "__" <+: l.name →
    l.name ∉ cfg.externalLabels.map Label.name → l ∈ labels
  scraped : cfg.honorLabels = false → ∀ t ∈ row.tags, ¬ ascii "__" <+: t.1 → Survives t.1 t.2 labels
  honored : cfg.honorLabels = true → ∀ t ∈ row.tags, ¬ ascii "__" <+: t.1 →
    (⟨t.1, t.2⟩ : Label) ∈ labels

/-- What the labels of a row show. -/
def scrapedValues (row : Row) : Bytes → Option Bytes := lookupLabel ((rowLabels row).map pair)

/-- What the labels show behind the merge of those of the target. -/
def targetValues (cfg : ScrapeConfigResolved) (row : Row) (name : Bytes) : Option Bytes :=
  if isFinalName name then (cfg.targetLabels.foldl lay (scrapedValues row)) name else none

/-- All labels have room, and no external label displaces one of the target. -/
structure Attachable (cfg : ScrapeConfigResolved) (row : Row) : Prop where
  target : Room (scrapedValues row) [] cfg.targetLabels
  external : Room (targetValues cfg row) [] cfg.externalLabels
  keeps : ∀ l ∈ cfg.targetLabels, ¬ ascii "__" <+: l.name →
    l.name ∉ cfg.externalLabels.map Label.name →
    Keeps (targetValues cfg row) l.name cfg.externalLabels

section Series

variable {cfg : ScrapeConfigResolved} {row : Row}

theorem occurs_finalizeLabels (k : Bytes) (labels : List Label) :
    occurs (exported k) (finalizeLabels labels) = occurs (exported k) labels := by
  induction labels with
  | nil => rfl
  | cons l labels ih =>
    rw [finalizeLabels] at ih ⊢
    by_cases hl : isFinal l
    · rw [filter_cons_of_pos hl]
      simp only [occurs, map_cons, count_cons] at ih ⊢
      rw [ih]
    · have hne : l.name ≠ exported k := by
        intro heq
        refine hl ?_
        have hfinal : isFinal l = isFinalName l.name := rfl
        rw [hfinal, heq, isFinalName_exported]
      rw [filter_cons_of_neg hl, ih]
      simp only [occurs, map_cons, count_cons, beq_iff_eq, if_neg hne, Nat.add_zero]

theorem nodup_rowLabels (htags : (row.tags.map Prod.fst).Nodup)
    (hname : metricName ∉ row.tags.map Prod.fst) :
    ((rowLabels row).map Label.name).Nodup := by
  rw [rowLabels, map_cons, map_map]
  exact nodup_cons.mpr ⟨hname, htags⟩

theorem shows_finalizeLabels {labels : List Label} {f : Bytes → Option Bytes}
    (h : Shows (labels.map pair) f) :
    Shows ((finalizeLabels labels).map pair) fun x => if isFinalName x then f x else none := by
  have hmap : (finalizeLabels labels).map pair = (labels.map pair).filter fun kv =>
      isFinalName kv.1 := by
    rw [finalizeLabels, filter_map]
    rfl
  rw [hmap]
  exact h.filter isFinalName

theorem shows_row (hrow : ((rowLabels row).map Label.name).Nodup) :
    Shows ((rowLabels row ++ []).map pair) (scrapedValues row) := by
  rw [append_nil]
  exact shows_lookupLabel (by rwa [fst_pair])

/-- What the first merge shows, where the labels of the target have room. -/
theorem shows_target (hrow : ((rowLabels row).map Label.name).Nodup)
    (htarget : (cfg.targetLabels.map Label.name).Nodup)
    (hroom : Room (scrapedValues row) [] cfg.targetLabels) :
    Shows ((mergeExtraLabels (rowLabels row) cfg.targetLabels false).map pair)
      (cfg.targetLabels.foldl lay (scrapedValues row)) := by
  rw [mergeExtraLabels_eq]
  exact shows_foldl_displace (shows_row hrow) htarget hroom

theorem targetValues_of_mem (hrow : ((rowLabels row).map Label.name).Nodup)
    (htarget : (cfg.targetLabels.map Label.name).Nodup)
    (hroom : Room (scrapedValues row) [] cfg.targetLabels)
    {l : Label} (hl : l ∈ cfg.targetLabels) (hname : ¬ ascii "__" <+: l.name) :
    targetValues cfg row l.name = some l.value := by
  have hmem : l ∈ mergeExtraLabels (rowLabels row) cfg.targetLabels false := by
    rw [mergeExtraLabels_eq]
    exact mem_append_right _ hl
  rw [targetValues, if_pos (isFinalName_of_not hname)]
  exact ((shows_target hrow htarget hroom).mem_iff _ _).mp (mem_pair.mpr hmem)

theorem attached_honored (hhonor : cfg.honorLabels = true)
    (hrow : ((rowLabels row).map Label.name).Nodup)
    (htarget : (cfg.targetLabels.map Label.name).Nodup)
    (hexternal : (cfg.externalLabels.map Label.name).Nodup) :
    Attached cfg row (seriesLabels cfg row) := by
  have hmerged {labels extra : List Label} (h : (labels.map Label.name).Nodup)
      (hextra : (extra.map Label.name).Nodup) :
      ((mergeExtraLabels labels extra true).map Label.name).Nodup := by
    rw [mergeExtraLabels_honored, map_append]
    refine h.append (hextra.sublist (filter_sublist.map _)) ?_
    intro name hname hmem
    obtain ⟨x, hx, rfl⟩ := mem_map.mp hmem
    exact (of_decide_eq_true (mem_filter.mp hx).2) hname
  rw [seriesLabels, hhonor]
  refine ⟨hmerged ((hmerged hrow htarget).sublist (filter_sublist.map _)) hexternal, ?_, ?_, ?_, ?_⟩
  · rw [hhonor]
    nofun
  · rw [hhonor]
    nofun
  · rw [hhonor]
    nofun
  · intro _ t ht hname
    have hrowmem : (⟨t.1, t.2⟩ : Label) ∈ rowLabels row :=
      mem_cons_of_mem _ (mem_map.mpr ⟨t, ht, rfl⟩)
    rw [mergeExtraLabels_honored]
    refine mem_append_left _ (mem_filter.mpr ⟨?_, isFinalName_of_not hname⟩)
    rw [mergeExtraLabels_honored]
    exact mem_append_left _ hrowmem

theorem attached_iff_attachable (hhonor : cfg.honorLabels = false)
    (hrow : ((rowLabels row).map Label.name).Nodup)
    (htarget : (cfg.targetLabels.map Label.name).Nodup)
    (hexternal : (cfg.externalLabels.map Label.name).Nodup) :
    Attached cfg row (seriesLabels cfg row) ↔ Attachable cfg row := by
  have hlabels : seriesLabels cfg row =
      mergeExtraLabels (finalizeLabels (mergeExtraLabels (rowLabels row) cfg.targetLabels false))
        cfg.externalLabels false := by
    rw [seriesLabels, hhonor]
  have hshows (hroom : Room (scrapedValues row) [] cfg.targetLabels) :
      Shows ((finalizeLabels (mergeExtraLabels (rowLabels row) cfg.targetLabels false) ++
        []).map pair) (targetValues cfg row) := by
    rw [append_nil]
    exact shows_finalizeLabels (shows_target hrow htarget hroom)
  have hfinal (hroom : Room (scrapedValues row) [] cfg.targetLabels)
      (hroom' : Room (targetValues cfg row) [] cfg.externalLabels) :
      Shows ((seriesLabels cfg row).map pair) (cfg.externalLabels.foldl lay
        (targetValues cfg row)) := by
    rw [hlabels, mergeExtraLabels_eq]
    exact shows_foldl_displace (hshows hroom) hexternal hroom'
  constructor
  · intro h
    have htwice (k : Bytes) (hk : 2 ≤ occurs k (seriesLabels cfg row)) : False := by
      have hone := nodup_iff_count_le_one.mp h.nodup k
      rw [occurs] at hk
      omega
    have hroom : Room (scrapedValues row) [] cfg.targetLabels := by
      by_contra hnot
      obtain ⟨k, hk⟩ := exists_twice_of_not_room (shows_row hrow) htarget hnot
      refine htwice (exported k) (hk.trans ?_)
      rw [nil_append, ← mergeExtraLabels_eq, ← occurs_finalizeLabels, hlabels,
        mergeExtraLabels_eq _ cfg.externalLabels]
      have hle := occurs_foldl_displace_le (exported k)
        (finalizeLabels (mergeExtraLabels (rowLabels row) cfg.targetLabels false))
        [] cfg.externalLabels
      rwa [append_nil, nil_append] at hle
    have hroom' : Room (targetValues cfg row) [] cfg.externalLabels := by
      by_contra hnot
      obtain ⟨k, hk⟩ := exists_twice_of_not_room (hshows hroom) hexternal hnot
      refine htwice (exported k) ?_
      rw [hlabels, mergeExtraLabels_eq _ cfg.externalLabels]
      rwa [nil_append] at hk
    refine ⟨hroom, hroom', fun l hl hname hnot => ?_⟩
    have hvalue := targetValues_of_mem hrow htarget hroom hl hname
    refine (keeps_iff hroom' hexternal hnot hvalue).mp ?_
    exact ((hfinal hroom hroom').mem_iff _ _).mp (mem_pair.mpr (h.target hhonor l hl hname hnot))
  · intro h
    refine ⟨?_, fun _ l hl => ?_, fun _ l hl hname hnot => ?_, fun _ t ht hname => ?_,
      fun hhonor' => ?_⟩
    · have hnodup := (hfinal h.target h.external).nodup
      rwa [fst_pair] at hnodup
    · rw [hlabels, mergeExtraLabels_eq]
      exact mem_append_right _ hl
    · have hvalue := targetValues_of_mem hrow htarget h.target hl hname
      have hkept := (keeps_iff h.external hexternal hnot hvalue).mpr (h.keeps l hl hname hnot)
      exact mem_pair.mp (((hfinal h.target h.external).mem_iff _ _).mpr hkept)
    · have hrowmem : Survives t.1 t.2 (rowLabels row) :=
        ⟨0, mem_cons_of_mem _ (mem_map.mpr ⟨t, ht, rfl⟩)⟩
      rw [hlabels]
      exact ((hrowmem.mergeExtraLabels cfg.targetLabels).finalizeLabels hname).mergeExtraLabels
        cfg.externalLabels
    · rw [hhonor] at hhonor'
      cases hhonor'

end Series

/-- **When attaching labels keeps a series well formed and loses nothing.** -/
theorem attached_iff (lib : Library) (honorTimestamps : Bool)
    {cfg : ScrapeConfigResolved} {row : Row}
    (scrapeTimestampMs : Int64) (htags : (row.tags.map Prod.fst).Nodup)
    (hname : metricName ∉ row.tags.map Prod.fst)
    (htarget : (cfg.targetLabels.map Label.name).Nodup)
    (hexternal : (cfg.externalLabels.map Label.name).Nodup) :
    (∃ series, buildSeries lib [] honorTimestamps cfg row scrapeTimestampMs = some series ∧
      Attached cfg row series.labels) ↔ (cfg.honorLabels = true ∨ Attachable cfg row) := by
  have hrow := nodup_rowLabels htags hname
  obtain ⟨samples, hbuild⟩ := buildSeries_labels lib honorTimestamps cfg row scrapeTimestampMs
  rw [hbuild]
  constructor
  · rintro ⟨series, heq, hattached⟩
    cases heq
    rcases hhonor : cfg.honorLabels with _ | _
    · exact .inr ((attached_iff_attachable hhonor hrow htarget hexternal).mp hattached)
    · exact .inl rfl
  · intro h
    refine ⟨_, rfl, ?_⟩
    rcases hhonor : cfg.honorLabels with _ | _
    · refine (attached_iff_attachable hhonor hrow htarget hexternal).mpr (h.resolve_left ?_)
      rw [hhonor]
      exact Bool.false_ne_true
    · exact attached_honored hhonor hrow htarget hexternal

/-- A configuration with a label of the target and an external one. -/
def scrapeConfig (targetLabels externalLabels : List Label) : ScrapeConfigResolved :=
  ⟨false, externalLabels, targetLabels, 0, 0, 0⟩

def jobRow (tags : List (Bytes × Bytes)) : Row := ⟨ascii "m", tags, 0, 0⟩

theorem attached_job :
    ∃ series, buildSeries Relabel.letterLibrary [] false
        (scrapeConfig [⟨ascii "job", ascii "t"⟩] [⟨ascii "dc", ascii "e"⟩])
        (jobRow [(ascii "job", ascii "s"), (ascii "exported_job", ascii "x")]) 0 = some series ∧
      Attached (scrapeConfig [⟨ascii "job", ascii "t"⟩] [⟨ascii "dc", ascii "e"⟩])
        (jobRow [(ascii "job", ascii "s"), (ascii "exported_job", ascii "x")]) series.labels := by
  refine (attached_iff Relabel.letterLibrary false 0 (by decide) (by decide) (by decide)
    (by decide)).mpr (.inr ⟨?_, ?_, ?_⟩)
  · exact ⟨fun _ _ => ⟨not_mem_nil, by decide⟩, trivial⟩
  · exact ⟨fun h => absurd (by decide) h, trivial⟩
  · intro l hl _ _
    obtain rfl := mem_singleton.mp hl
    exact ⟨fun h => absurd h (by decide), trivial⟩

/-- A row whose labels leave no room for one of the target. -/
def chainRow : Row :=
  jobRow [(ascii "a", ascii "1"), (ascii "exported_a", ascii "2"),
    (ascii "exported_exported_a", ascii "3")]

theorem not_attached_chain :
    ¬ ∃ series, buildSeries Relabel.letterLibrary [] false
    (scrapeConfig [⟨ascii "a", ascii "t"⟩] []) chainRow 0 =
        some series ∧ Attached (scrapeConfig [⟨ascii "a", ascii "t"⟩] []) chainRow
        series.labels := by
  rintro ⟨series, hbuild, hattached⟩
  obtain ⟨samples, heq⟩ :=
    buildSeries_labels Relabel.letterLibrary false
    (scrapeConfig [⟨ascii "a", ascii "t"⟩] []) chainRow 0
  have htwice : ¬ ((seriesLabels (scrapeConfig [⟨ascii "a", ascii "t"⟩] []) chainRow).map
      Label.name).Nodup := by
    decide
  rw [heq] at hbuild
  cases hbuild
  exact htwice hattached.nodup

end Esmetrics.Esmagent.Scrape
