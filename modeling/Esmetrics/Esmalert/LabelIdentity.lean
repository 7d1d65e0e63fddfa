import Esmetrics.Esmalert.Recording
import Esmetrics.Esmalert.StateMachine
import Esmetrics.Lib.Lines
import Esmetrics.Lib.Utf8

/-!
# Which label sets are told apart

A rule tells the label sets of its results apart by something that it makes of them: an alerting
rule by the hash of a text (`hashLabels`), a recording rule by a key (`labelsToKey`). Both write the
names and the values one behind another. In the text that is hashed only the end of a label is
marked, so that label sets agree in it when the end of some name is moved into its value
(`hashedText_eq_iff`). In the key no comma and no equals sign says whether it belongs to a name or a
value (`labelsToKey_eq_iff`): every list of two labels shares its key with one of a single label
(`labelsToKey_unambiguous_iff`).
-/

namespace Esmetrics.Esmalert

open List

/-! ### The identity of an alert -/

/-- The FNV-1a hash of a text. -/
def fnv (text : Bytes) : UInt64 := text.foldl fnvStep 0xcbf29ce484222325

/-- The labels that make up the identity of an alert. -/
def identity (labels : StringMap) : List (Bytes × Bytes) := labels.toList.filter fun kv =>
  kv.1 ≠ nameLabel

/-- The text that is hashed for a label set. -/
def hashedText (labels : StringMap) : Bytes :=
  ((identity labels).map fun kv => kv.1 ++ kv.2).flatMap (· ++ [0xff])

theorem hashLabels_eq (labels : StringMap) : hashLabels labels = fnv (hashedText labels) := by
  rw [hashLabels, fnv, hashedText, flatMap_map, foldl_flatMap, identity, foldl_filter]
  refine foldl_ext _ _ _ fun h kv _ => ?_
  by_cases hname : kv.1 = nameLabel
  · simp [hname]
  · simp [hname, foldl_append]

/-- The names and the values are strings. -/
def AreStrings (labels : List (Bytes × Bytes)) : Prop :=
  ∀ kv ∈ labels, isValidUtf8 kv.1 = true ∧ isValidUtf8 kv.2 = true

/-- The end of the name is moved into the value, or the start of the value into the name. -/
def Shifted (a b : Bytes × Bytes) : Prop :=
  ∃ w, (b.1 = a.1 ++ w ∧ a.2 = w ++ b.2) ∨ (a.1 = b.1 ++ w ∧ b.2 = w ++ a.2)

theorem shifted_iff (a b : Bytes × Bytes) : Shifted a b ↔ a.1 ++ a.2 = b.1 ++ b.2 := by
  rw [append_eq_append_iff]
  exact exists_or

/-- In the order of the names, each label is one of the other set, apart from where its name
ends. -/
def ShiftedLabels (labels labels' : StringMap) : Prop := List.Forall₂ Shifted (identity labels)
  (identity labels')

theorem shiftedLabels_iff (labels labels' : StringMap) :
    ShiftedLabels labels labels' ↔
      ((identity labels).map fun kv => kv.1 ++ kv.2) = (identity labels').map fun kv =>
      kv.1 ++ kv.2 := by
  rw [← forall₂_eq_eq_eq, forall₂_map_left_iff, forall₂_map_right_iff]
  simp only [ShiftedLabels, ← shifted_iff]

theorem ff_not_mem_of_areStrings {labels : StringMap} (h : AreStrings labels.toList) :
    ∀ text ∈ (identity labels).map fun kv => kv.1 ++ kv.2, (0xff : UInt8) ∉ text := by
  intro text htext hmem
  obtain ⟨kv, hkv, rfl⟩ := mem_map.mp htext
  obtain ⟨hk, hv⟩ := h kv (mem_filter.mp hkv).1
  obtain hmem | hmem := mem_append.mp hmem
  · exact not_mem_of_isValidUtf8 hk hmem
  · exact not_mem_of_isValidUtf8 hv hmem

/-- **When the same text is hashed.** -/
theorem hashedText_eq_iff {labels labels' : StringMap} (h : AreStrings labels.toList)
    (h' : AreStrings labels'.toList) : hashedText labels = hashedText labels' ↔
    ShiftedLabels labels labels' := by
  rw [shiftedLabels_iff]
  exact flatMap_concat_eq_iff (ff_not_mem_of_areStrings h) (ff_not_mem_of_areStrings h')

/-! ### The key of a series -/

/-- What stands between the commas of the labels, in the order of the names. -/
def pieces (labels : List (Bytes × Bytes)) : List Bytes :=
  ((sortLabels labels).map fun kv => kv.1 ++ [61] ++ kv.2).flatMap (·.splitOn 44)

theorem sortLabels_perm (labels : List (Bytes × Bytes)) : (sortLabels labels).Perm labels :=
  sortByKey_perm Prod.fst labels

theorem length_le_count_intercalate (labels : List (Bytes × Bytes)) :
    labels.length ≤ (([44] : Bytes).intercalate (labels.map fun kv => kv.1 ++ [61] ++ kv.2)).count
    61 := by
  induction labels with
  | nil => exact Nat.zero_le _
  | cons kv labels ih =>
    have hone : 1 ≤ (kv.1 ++ [61] ++ kv.2).count 61 := by
      rw [count_append, count_append, count_singleton_self]
      omega
    cases labels with
    | nil => rwa [map_cons, map_nil, intercalate_singleton]
    | cons kv' labels =>
      rw [map_cons, map_cons, intercalate_cons_cons, count_append, count_append]
      rw [map_cons] at ih
      rw [length_cons]
      omega

/-- A key has an equals sign for each label. -/
theorem length_le_count_labelsToKey (labels : List (Bytes × Bytes)) :
    labels.length ≤ (labelsToKey labels).count 61 := by
  rw [← (sortLabels_perm labels).length_eq]
  exact length_le_count_intercalate (sortLabels labels)

theorem labelsToKey_eq_nil_iff (labels : List (Bytes × Bytes)) : labelsToKey labels = [] ↔
    labels = [] := by
  constructor
  · intro h
    have hlen := length_le_count_labelsToKey labels
    rw [h] at hlen
    exact eq_nil_of_length_eq_zero (Nat.le_zero.mp hlen)
  · rintro rfl
    rfl

theorem pieces_eq_nil_iff (labels : List (Bytes × Bytes)) : pieces labels = [] ↔ labels = [] := by
  constructor
  · intro h
    by_contra hne
    obtain ⟨kv, hkv⟩ := exists_mem_of_ne_nil labels hne
    have hnil := flatMap_eq_nil_iff.mp h _ (mem_map_of_mem
      ((sortLabels_perm labels).mem_iff.mpr hkv))
    exact splitOn_ne_nil _ _ hnil
  · rintro rfl
    rfl

/-- **When label lists have the same key.** -/
theorem labelsToKey_eq_iff (labels labels' : List (Bytes × Bytes)) :
    labelsToKey labels = labelsToKey labels' ↔ pieces labels = pieces labels' := by
  by_cases hnil : labels = []
  · rw [hnil]
    constructor
    · intro h
      rw [(labelsToKey_eq_nil_iff labels').mp h.symm]
    · intro h
      rw [(pieces_eq_nil_iff labels').mp h.symm]
  by_cases hnil' : labels' = []
  · rw [hnil']
    constructor
    · exact fun h => absurd ((labelsToKey_eq_nil_iff labels).mp h) hnil
    · exact fun h => absurd ((pieces_eq_nil_iff labels).mp h) hnil
  have hmap : ∀ l : List (Bytes × Bytes), l ≠ [] →
      ((sortLabels l).map fun kv => kv.1 ++ [61] ++ kv.2) ≠ [] := by
    intro l hl hmap
    have hperm := (sortLabels_perm l).symm
    rw [map_eq_nil_iff.mp hmap] at hperm
    exact hl hperm.eq_nil
  exact intercalate_eq_iff (hmap labels hnil) (hmap labels' hnil')

/-- No other list with distinct names has the key. -/
def Unambiguous (labels : List (Bytes × Bytes)) : Prop :=
  ∀ labels', AreStrings labels' → (labels'.map Prod.fst).Nodup →
    (labelsToKey labels = labelsToKey labels' ↔ labels.Perm labels')

theorem labelsToKey_singleton (k v : Bytes) : labelsToKey [(k, v)] = k ++ 61 :: v := by
  change ([44] : Bytes).intercalate [k ++ [61] ++ v] = k ++ 61 :: v
  rw [intercalate_singleton, append_assoc, singleton_append]

/-- A single label without another equals sign has a key of its own. -/
theorem unambiguous_singleton {k v : Bytes} (hk : 61 ∉ k) (hv : 61 ∉ v) : Unambiguous [(k, v)] := by
  intro labels' _ _
  have hcount : (labelsToKey [(k, v)]).count 61 = 1 := by
    rw [labelsToKey_singleton, count_append, count_cons_self, count_eq_zero_of_not_mem hk,
      count_eq_zero_of_not_mem hv]
  constructor
  · intro h
    have hlen := length_le_count_labelsToKey labels'
    rw [← h, hcount] at hlen
    obtain hzero | hone := Nat.le_one_iff_eq_zero_or_eq_one.mp hlen
    · rw [eq_nil_of_length_eq_zero hzero, labelsToKey_singleton] at h
      exact absurd h (by simp [(labelsToKey_eq_nil_iff []).mpr rfl])
    · obtain ⟨⟨k', v'⟩, rfl⟩ := length_eq_one_iff.mp hone
      rw [labelsToKey_singleton, labelsToKey_singleton] at h
      obtain ⟨rfl, -, rfl⟩ := (append_cons_inj_of_notMem hk hv).mp h
      exact Perm.refl _
  · intro h
    rw [← perm_singleton.mp h.symm]

/-- A label whose name or value has an equals sign shares its key. -/
theorem not_unambiguous_of_mem {k v : Bytes} (hs : AreStrings [(k, v)]) (h : 61 ∈ k ∨ 61 ∈ v) :
    ¬ Unambiguous [(k, v)] := by
  obtain ⟨hk, hv⟩ := hs (k, v) (mem_singleton_self _)
  have hone (k' v' : Bytes) (hs' : isValidUtf8 k' = true ∧ isValidUtf8 v' = true) (hne : k' ≠ k)
      (hkey : k ++ 61 :: v = k' ++ 61 :: v') : ¬ Unambiguous [(k, v)] := by
    intro hunique
    have hperm := (hunique [(k', v')] (fun kv hkv => mem_singleton.mp hkv ▸ hs')
      (nodup_singleton k')).mp (by rw [labelsToKey_singleton, labelsToKey_singleton, hkey])
    exact hne (congrArg Prod.fst (singleton_inj.mp (perm_singleton.mp hperm.symm)))
  obtain hmem | hmem := h
  · obtain ⟨a, b, rfl, -⟩ := eq_append_cons_of_mem hmem
    obtain ⟨ha, hb⟩ := (isValidUtf8_append_cons (by decide)).mp hk
    refine hone a (b ++ 61 :: v) ⟨ha, (isValidUtf8_append_cons (by decide)).mpr ⟨hb, hv⟩⟩
      (fun heq => ?_) ?_
    · have hlen := congrArg List.length heq
      simp at hlen
    · rw [append_assoc, cons_append]
  · obtain ⟨a, b, rfl, -⟩ := eq_append_cons_of_mem hmem
    obtain ⟨ha, hb⟩ := (isValidUtf8_append_cons (by decide)).mp hv
    refine hone (k ++ 61 :: a) b ⟨(isValidUtf8_append_cons (by decide)).mpr ⟨hk, ha⟩,
      hb⟩ (fun heq => ?_) ?_
    · have hlen := congrArg List.length heq
      simp at hlen
    · rw [append_assoc, cons_append]

/-- The texts of the labels are valid, joined or not. -/
theorem isValidUtf8_intercalate {labels : List (Bytes × Bytes)} (h : AreStrings labels) :
    isValidUtf8 (([44] : Bytes).intercalate (labels.map fun kv => kv.1 ++ [61] ++ kv.2)) =
    true := by
  induction labels with
  | nil => rfl
  | cons kv labels ih =>
    obtain ⟨⟨hk, hv⟩, hlabels⟩ := forall_mem_cons.mp h
    have htext : isValidUtf8 (kv.1 ++ [61] ++ kv.2) = true := by
      rw [append_assoc, singleton_append]
      exact (isValidUtf8_append_cons (by decide)).mpr ⟨hk, hv⟩
    cases labels with
    | nil => rwa [map_cons, map_nil, intercalate_singleton]
    | cons kv' labels =>
      rw [map_cons, map_cons, intercalate_cons_cons, append_assoc, singleton_append]
      exact (isValidUtf8_append_cons (by decide)).mpr ⟨htext, ih hlabels⟩

/-- Two labels or more share their key with a single label. -/
theorem not_unambiguous_of_length {labels : List (Bytes × Bytes)} (hs : AreStrings labels)
    (h : 2 ≤ labels.length) : ¬ Unambiguous labels := by
  intro hunique
  have hperm := sortLabels_perm labels
  have hs' : AreStrings (sortLabels labels) := fun kv hkv => hs kv (hperm.mem_iff.mp hkv)
  have hkey : labelsToKey labels = ([44] : Bytes).intercalate
    ((sortLabels labels).map fun kv => kv.1 ++ [61] ++ kv.2) := rfl
  rw [← hperm.length_eq] at h
  generalize sortLabels labels = sorted at hperm hs' hkey h
  match sorted, h with
  | kv :: kv' :: rest, _ =>
    obtain ⟨⟨hk, hv⟩, hrest⟩ := forall_mem_cons.mp hs'
    have hsingle := hunique [(kv.1, kv.2 ++ 44 :: ([44] : Bytes).intercalate
      ((kv' :: rest).map fun kv => kv.1 ++ [61] ++ kv.2))] ?_ (nodup_singleton _)
    · have heq := hsingle.mp ?_
      · have hlen := (hperm.trans heq).length_eq
        cases hlen
      · rw [hkey, labelsToKey_singleton, map_cons, map_cons, intercalate_cons_cons]
        simp only [append_assoc, cons_append, nil_append]
    · intro single hsingle
      rw [mem_singleton.mp hsingle]
      exact ⟨hk, (isValidUtf8_append_cons (by decide)).mpr ⟨hv, isValidUtf8_intercalate hrest⟩⟩

/-- **Which label lists have a key of their own.** -/
theorem labelsToKey_unambiguous_iff {labels : List (Bytes × Bytes)} (hs : AreStrings labels) :
    Unambiguous labels ↔ labels = [] ∨ ∃ k v, labels = [(k, v)] ∧ 61 ∉ k ∧ 61 ∉ v := by
  constructor
  · intro h
    match labels with
    | [] => exact .inl rfl
    | [(k, v)] =>
      refine .inr ⟨k, v, rfl, fun hk => ?_, fun hv => ?_⟩
      · exact not_unambiguous_of_mem hs (.inl hk) h
      · exact not_unambiguous_of_mem hs (.inr hv) h
    | kv :: kv' :: labels => exact absurd h (not_unambiguous_of_length hs (Nat.le_add_left 2 _))
  · rintro (rfl | ⟨k, v, rfl, hk, hv⟩)
    · intro labels' _ _
      have hnil : labelsToKey [] = [] := (labelsToKey_eq_nil_iff []).mpr rfl
      rw [hnil, eq_comm, labelsToKey_eq_nil_iff]
      constructor
      · rintro rfl
        exact Perm.refl []
      · exact fun hperm => hperm.symm.eq_nil
    · exact unambiguous_singleton hk hv

/-! ### Recording rules -/

namespace RecordingRule

/-- The labels of the recorded series of a result. -/
def recordedLabels (rule : RecordingRule) (m : Metric) : List (Bytes × Bytes) :=
  mergeLabels m.labels rule.labels rule.name

/-- The evaluation fails as a second series has the labels of an earlier one. -/
def ReportsDuplicate (rule : RecordingRule) (q : Querier) (ts limit : ℤ) : Prop :=
  ∃ metric key, rule.exec q ts limit = .error (.duplicateSeries metric key)

/-- The series are built until a key occurs again. -/
theorem recordSeries_eq_error_iff (rule : RecordingRule) (seen : List Bytes) (out : List Series)
    (data : List Metric) :
    (∃ metric key, recordSeries rule.name rule.labels seen out data =
      .error (.duplicateSeries metric key)) ↔
      ¬ ((data.map fun m => labelsToKey (rule.recordedLabels m)).Nodup ∧
        ∀ m ∈ data, labelsToKey (rule.recordedLabels m) ∉ seen) := by
  induction data generalizing seen out with
  | nil => simp [recordSeries]
  | cons m data ih =>
    rw [recordSeries, map_cons, nodup_cons, forall_mem_cons]
    change (∃ metric key, (if labelsToKey (rule.recordedLabels m) ∈ seen then _ else _) = _) ↔ _
    by_cases hseen : labelsToKey (rule.recordedLabels m) ∈ seen
    · rw [if_pos hseen]
      exact ⟨fun _ h => h.2.1 hseen, fun _ => ⟨_, _, rfl⟩⟩
    · rw [if_neg hseen]
      refine (ih _ _).trans (not_congr ?_)
      constructor
      · rintro ⟨hnodup, hnew⟩
        refine ⟨⟨fun hmem => ?_, hnodup⟩, hseen, fun m' hm' hmem => ?_⟩
        · obtain ⟨m', hm', heq⟩ := mem_map.mp hmem
          exact hnew m' hm' (heq ▸ mem_cons_self)
        · exact hnew m' hm' (mem_cons_of_mem _ hmem)
      · rintro ⟨⟨hnot, hnodup⟩, -, hnew⟩
        refine ⟨hnodup, fun m' hm' hmem => ?_⟩
        obtain heq | hmem := mem_cons.mp hmem
        · exact hnot (heq ▸ mem_map_of_mem hm')
        · exact hnew m' hm' hmem

/-- A duplicate is reported when two results have series with the same key. -/
theorem reportsDuplicate_iff {rule : RecordingRule} {q : Querier} {ts limit : ℤ} {res : QueryResult}
    (hq : q rule.expr ts = .ok res) (hlimit : ¬ (0 < limit ∧ limit < res.data.length)) :
    rule.ReportsDuplicate q ts limit ↔
      ¬ (res.data.map rule.recordedLabels).Pairwise fun labels labels' =>
      pieces labels ≠ pieces labels' := by
  have hexec : rule.exec q ts limit = recordSeries rule.name rule.labels [] [] res.data := by
    rw [exec, hq]
    exact if_neg hlimit
  rw [ReportsDuplicate, hexec, recordSeries_eq_error_iff]
  simp only [not_mem_nil, not_false_eq_true, implies_true, and_true, List.Nodup,
    pairwise_map, ne_eq, labelsToKey_eq_iff]

end RecordingRule

/-! ### Alerting rules -/

theorem applyUpdates_eq_error {ts : ℤ} {updated : Finset UInt64} {alerts : AlertMap}
    {pending : List PendingAlert}
    {e : RuleError} (h : (applyUpdates ts updated alerts pending).2 = .error e) : ∃ labels,
    e = .duplicate labels := by
  induction pending generalizing updated alerts with
  | nil => cases h
  | cons p pending ih =>
    rw [applyUpdates] at h
    by_cases hmem : p.id ∈ updated
    · rw [if_pos hmem] at h
      exact ⟨p.labels, (Except.error.inj h).symm⟩
    · rw [if_neg hmem] at h
      exact ih h

namespace AlertingRule

/-- The evaluation fails as a second alert has the labels of an earlier one. -/
def ReportsDuplicate (rule : AlertingRule) (tpl : Templates) (order : AlertOrder) (q : Querier)
    (ts : ℤ) : Prop :=
  ∃ labels, (rule.exec tpl order q ts).2 = .error (.duplicate labels)

/-- A duplicate is reported when two results have alerts with the same identity. -/
theorem reportsDuplicate_iff (rule : AlertingRule) (tpl : Templates) (order : AlertOrder)
    (q : Querier) (ts : ℤ) :
    rule.ReportsDuplicate tpl order q ts ↔
    ¬ ((rule.resultLabels tpl q ts).map hashLabels).Nodup := by
  have hids : ∀ {pending}, rule.results tpl q ts = some pending →
      (rule.resultLabels tpl q ts).map hashLabels = pending.map PendingAlert.id := by
    intro pending hres
    obtain ⟨hlabels, hhash⟩ := map_labels_of_results hres
    rw [← hlabels, map_map]
    exact map_congr_left fun p hp => (hhash p hp).symm
  obtain ⟨e, herr, hnot, -⟩ | ⟨pending, alerts, updated, tss, hres, hok, heval⟩ :=
    rule.exec_cases tpl order q ts
  · cases hq : q rule.expr ts with
    | error e' =>
      have hlabels : rule.resultLabels tpl q ts = [] := by
        rw [resultLabels, hq]
      have hexec : (rule.exec tpl order q ts).2 = .error (.query rule.expr e') := by
        rw [exec, hq]
      rw [hlabels]
      refine ⟨?_, fun h => absurd nodup_nil h⟩
      rintro ⟨labels, h⟩
      rw [hexec] at h
      cases h
    | ok res =>
      have hres : rule.results tpl q ts =
          some (rule.expandResults tpl res.data (res.isPartial.getD false) ts) := by
        rw [results, hq]
      rw [hids hres]
      refine iff_of_true ?_ fun hnodup => hnot ⟨_, hres, hnodup⟩
      rw [exec, hq] at herr
      dsimp only at herr
      have happly : ∃ labels, e = .duplicate labels := by
        split at herr
        · rename_i alerts e' happly
          obtain rfl := Except.error.inj herr
          exact applyUpdates_eq_error (congrArg Prod.snd happly)
        · cases herr
      obtain ⟨labels, rfl⟩ := happly
      refine ⟨labels, ?_⟩
      rw [exec, hq]
      exact herr
  · rw [hids hres]
    refine iff_of_false ?_ (not_not.mpr heval.nodup)
    rintro ⟨labels, h⟩
    rw [hok] at h
    cases h

end AlertingRule

/-! ### What is told apart -/

/-- The results of a recording rule have different labels. -/
def RecordingRule.ResultsDiffer (rule : RecordingRule) (data : List Metric) : Prop :=
  (data.map rule.recordedLabels).Pairwise fun labels labels' => ¬ labels.Perm labels'

section Hash

variable {texts : Set Bytes}

theorem hashLabels_eq_iff (hfnv : texts.InjOn fnv) {labels labels' : StringMap}
    (hs : AreStrings labels.toList)
    (hs' : AreStrings labels'.toList) (ht : hashedText labels ∈ texts)
    (ht' : hashedText labels' ∈ texts) :
    hashLabels labels = hashLabels labels' ↔ ShiftedLabels labels labels' := by
  rw [hashLabels_eq, hashLabels_eq, hfnv.eq_iff ht ht', hashedText_eq_iff hs hs']

theorem shiftedLabels_of_identity_eq {labels labels' : StringMap}
    (h : identity labels = identity labels') :
    ShiftedLabels labels labels' := by
  rw [shiftedLabels_iff, h]

namespace Evaluations

variable {ev : Evaluations} {rule : AlertingRule} {n : ℕ} {start : Set StringMap}

/-- The alerts of a rule stay under the identities of their labels. -/
theorem Labelled.after (h : rule.Labelled start) (n : ℕ) :
    (ev.after rule n).Labelled (start ∪ ev.occurring rule n) := by
  induction n with
  | zero =>
    intro id a ha
    obtain ⟨hmem, hid⟩ := h id a ha
    exact ⟨.inl hmem, hid⟩
  | succ n ih =>
    have hstep := ih.exec ev.tpl (ev.order n) (ev.querier n) (ev.time n)
    rw [resultLabels_after] at hstep
    intro id a ha
    obtain ⟨hmem, hid⟩ := hstep id a ha
    refine ⟨?_, hid⟩
    obtain (hmem | ⟨k, hk, hmem⟩) | hmem := hmem
    · exact .inl hmem
    · exact .inr ⟨k, hk.trans (Nat.lt_succ_self n), hmem⟩
    · exact .inr ⟨n, Nat.lt_succ_self n, hmem⟩

/-- The results of an evaluation have different labels, apart from `__name__`. -/
def ResultsDiffer (ev : Evaluations) (rule : AlertingRule) (n : ℕ) : Prop :=
  (ev.labelsAt rule n).Pairwise fun labels labels' => identity labels ≠ identity labels'

/-- An evaluation reports a duplicate when a label of one result is one of another, apart from where
its name ends. -/
theorem reportsDuplicate_iff (hfnv : texts.InjOn fnv)
    (hlabels : ∀ labels ∈ ev.labelsAt rule n, AreStrings labels.toList ∧
      hashedText labels ∈ texts) :
    (ev.after rule n).ReportsDuplicate ev.tpl (ev.order n) (ev.querier n) (ev.time n) ↔
      ¬ (ev.labelsAt rule n).Pairwise fun labels labels' => ¬ ShiftedLabels labels labels' := by
  rw [AlertingRule.reportsDuplicate_iff, resultLabels_after, List.Nodup, pairwise_map, not_iff_not]
  refine Pairwise.iff_of_mem fun {labels labels'} hmem hmem' => ?_
  obtain ⟨hs, ht⟩ := hlabels labels hmem
  obtain ⟨hs', ht'⟩ := hlabels labels' hmem'
  exact not_congr (hashLabels_eq_iff hfnv hs hs' ht ht')

/-- The alerts that the results of an evaluation update have their labels, apart from `__name__`. -/
def UpdatesOwnAlerts (ev : Evaluations) (rule : AlertingRule) (n : ℕ) : Prop :=
  ∀ labels ∈ ev.labelsAt rule n, ∀ a,
    alertKept (ev.time n) (ev.after rule n).alerts[hashLabels labels]? = some a →
    identity a.labels = identity labels

/-- A result updates another alert when its labels are the alert's, apart from where their names
end. -/
theorem updatesOwnAlerts_iff (hfnv : texts.InjOn fnv) (hstart : rule.Labelled start)
    (hlabels : ∀ labels ∈ start ∪ ev.occurring rule (n + 1),
      AreStrings labels.toList ∧ hashedText labels ∈ texts) :
    ev.UpdatesOwnAlerts rule n ↔ ∀ labels ∈ ev.labelsAt rule n, ∀ (id : UInt64) a,
      alertKept (ev.time n) (ev.after rule n).alerts[id]? = some a → ShiftedLabels a.labels labels →
        identity a.labels = identity labels := by
  refine forall₂_congr fun labels hmem => ?_
  obtain ⟨hs, ht⟩ := hlabels labels (.inr ⟨n, Nat.lt_succ_self n, hmem⟩)
  -- a tracked alert is stored under the hash of its labels, from the start or from an earlier
  -- result
  have hstored : ∀ (id : UInt64) a, alertKept (ev.time n) (ev.after rule n).alerts[id]? = some a →
      hashLabels a.labels = id ∧ (ShiftedLabels a.labels labels ↔ id = hashLabels labels) := by
    intro id a ha
    obtain ⟨hmem', hid⟩ := Labelled.after hstart n id a (mem_alertKept ha)
    have hmem'' : a.labels ∈ start ∪ ev.occurring rule (n + 1) :=
      hmem'.imp_right fun ⟨k, hk, hlabels⟩ => ⟨k, hk.trans (Nat.lt_succ_self n), hlabels⟩
    obtain ⟨hs', ht'⟩ := hlabels a.labels hmem''
    rw [← hid, hashLabels_eq_iff hfnv hs' hs ht' ht]
    exact ⟨rfl, Iff.rfl⟩
  constructor
  · intro h id a ha hshifted
    obtain rfl := (hstored id a ha).2.mp hshifted
    exact h a ha
  · intro h a ha
    exact h _ a ha ((hstored _ a ha).2.mpr rfl)

end Evaluations

/-- **Where label sets are told apart.** Alerts with different labels are, unless the labels agree
apart from where their names end; series with different labels are, unless the same pieces stand
between the commas. -/
theorem told_apart_iff (hfnv : texts.InjOn fnv) :
    (∀ labels labels' : StringMap, AreStrings labels.toList → AreStrings labels'.toList →
      hashedText labels ∈ texts → hashedText labels' ∈ texts →
        ((hashLabels labels = hashLabels labels' ↔ identity labels = identity labels') ↔
          (ShiftedLabels labels labels' → identity labels = identity labels'))) ∧
    (∀ labels, AreStrings labels →
      (Unambiguous labels ↔ labels = [] ∨ ∃ k v, labels = [(k, v)] ∧ 61 ∉ k ∧ 61 ∉ v)) ∧
    (∀ (rule : RecordingRule) (q : Querier) (ts limit : ℤ) (res : QueryResult),
      q rule.expr ts = .ok res →
      ¬ (0 < limit ∧ limit < res.data.length) →
        ((rule.ResultsDiffer res.data → ¬ rule.ReportsDuplicate q ts limit) ↔
          (rule.ResultsDiffer res.data →
            (res.data.map rule.recordedLabels).Pairwise fun labels labels' =>
            pieces labels ≠ pieces labels'))) ∧
    ∀ (ev : Evaluations) (rule : AlertingRule) (n : ℕ) (start : Set StringMap),
      rule.Labelled start →
      (∀ labels ∈ start ∪ ev.occurring rule (n + 1), AreStrings labels.toList ∧
        hashedText labels ∈ texts) →
        ((ev.ResultsDiffer rule n →
            ¬ (ev.after rule n).ReportsDuplicate ev.tpl (ev.order n) (ev.querier n) (ev.time n)) ↔
          (ev.ResultsDiffer rule n →
            (ev.labelsAt rule n).Pairwise fun labels labels' => ¬ ShiftedLabels labels labels')) ∧
        (ev.UpdatesOwnAlerts rule n ↔ ∀ labels ∈ ev.labelsAt rule n, ∀ (id : UInt64) a,
          alertKept (ev.time n) (ev.after rule n).alerts[id]? = some a →
          ShiftedLabels a.labels labels →
            identity a.labels = identity labels) := by
  refine ⟨fun labels labels' hs hs' ht ht' => ?_, fun labels => labelsToKey_unambiguous_iff, ?_, ?_⟩
  · rw [hashLabels_eq_iff hfnv hs hs' ht ht']
    exact ⟨fun h => h.mp, fun h => ⟨h, shiftedLabels_of_identity_eq⟩⟩
  · intro rule q ts limit res hq hlimit
    rw [RecordingRule.reportsDuplicate_iff hq hlimit, not_not]
  · intro ev rule n start hstart hlabels
    have hresults : ∀ labels ∈ ev.labelsAt rule n, AreStrings labels.toList ∧
        hashedText labels ∈ texts :=
      fun labels hmem => hlabels labels (.inr ⟨n, Nat.lt_succ_self n, hmem⟩)
    refine ⟨?_, Evaluations.updatesOwnAlerts_iff hfnv hstart hlabels⟩
    rw [Evaluations.reportsDuplicate_iff hfnv hresults, not_not]

end Hash

/-- The label sets of `up{job="api"}` and `up{job="db"}`. -/
def jobLabels (job : Bytes) : StringMap := (∅ : StringMap).insert (ascii "job") job

/-- The two series as a recording rule gets them. -/
def jobResults : List Metric :=
  [⟨[(ascii "job", ascii "api")], [0], [.num 1]⟩, ⟨[(ascii "job", ascii "db")], [0], [.num 1]⟩]

theorem told_apart_jobs :
    (hashLabels (jobLabels (ascii "api")) = hashLabels (jobLabels (ascii "db")) ↔
      identity (jobLabels (ascii "api")) = identity (jobLabels (ascii "db"))) ∧
    Unambiguous [(ascii "job", ascii "api")] ∧
    ¬ (RecordingRule.mk 0 (ascii "r") (ascii "up") ∅).ReportsDuplicate
      (fun _ _ => .ok ⟨jobResults, none⟩) 0 0 := by
  have hfnv : Set.InjOn fnv {hashedText (jobLabels (ascii "api")),
      hashedText (jobLabels (ascii "db"))} := by
    have hne : fnv (hashedText (jobLabels (ascii "api"))) ≠
        fnv (hashedText (jobLabels (ascii "db"))) := by
      decide
    rintro a (rfl | rfl) b (rfl | rfl) heq
    · rfl
    · exact absurd heq hne
    · exact absurd heq hne.symm
    · rfl
  have hstrings : ∀ kv ∈ (jobLabels (ascii "api")).toList ++ (jobLabels (ascii "db")).toList,
      isValidUtf8 kv.1 = true ∧ isValidUtf8 kv.2 = true := by decide
  obtain ⟨halerts, hunambiguous, hseries, -⟩ := told_apart_iff hfnv
  refine ⟨(halerts _ _ (fun kv hkv => hstrings kv (mem_append_left _ hkv))
    (fun kv hkv => hstrings kv (mem_append_right _ hkv)) (.inl rfl) (.inr rfl)).mpr
    fun hshifted => ?_,
    (hunambiguous _ fun kv hkv => ?_).mpr (.inr ⟨_, _, rfl, by decide, by decide⟩),
    (hseries (RecordingRule.mk 0 (ascii "r") (ascii "up") ∅) _ 0 0 ⟨jobResults,
      none⟩ rfl (by decide)).mpr (fun _ => by decide) ?_⟩
  · rw [shiftedLabels_iff] at hshifted
    exact absurd hshifted (by decide)
  · obtain rfl := mem_singleton.mp hkv
    exact ⟨by decide, by decide⟩
  · rw [RecordingRule.ResultsDiffer]
    decide

/-- Two alerts with one hash, and two series with one key. -/
theorem not_told_apart :
    (hashLabels ((∅ : StringMap).insert (ascii "env") (ascii "prod")) =
        hashLabels ((∅ : StringMap).insert (ascii "envp") (ascii "rod")) ∧
      (∅ : StringMap).insert (ascii "env") (ascii "prod") ≠
        (∅ : StringMap).insert (ascii "envp") (ascii "rod")) ∧
    (labelsToKey [(ascii "env", ascii "prod,job=db")] =
        labelsToKey [(ascii "env", ascii "prod"), (ascii "job", ascii "db")] ∧
      ¬ [(ascii "env", ascii "prod,job=db")].Perm [(ascii "env", ascii "prod"),
        (ascii "job", ascii "db")]) ∧
    (RecordingRule.mk 0 (ascii "r") (ascii "up") ∅).ReportsDuplicate
      (fun _ _ => .ok ⟨[⟨[(ascii "env", ascii "prod,job=db")], [0], [.num 1]⟩,
        ⟨[(ascii "env", ascii "prod"), (ascii "job", ascii "db")], [0], [.num 1]⟩], none⟩) 0 0 := by
  refine ⟨⟨by decide, fun heq => ?_⟩, ⟨by decide, fun hperm => ?_⟩, ?_⟩
  · have hlist := congrArg Std.ExtTreeMap.toList heq
    exact absurd hlist (by decide)
  · cases hperm.length_eq
  · refine (RecordingRule.reportsDuplicate_iff rfl (by decide)).mpr ?_
    decide

end Esmetrics.Esmalert
