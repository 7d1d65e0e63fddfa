import Mathlib.Data.List.Basic
import Std.Data.ExtTreeMap

/-!
# Maps of lists

A list of pairs gives every key its values in order (`valuesOf`). Read into a sorted map of lists
(`Multimap.ofArgs`) and written out key by key (`Multimap.toArgs`), every key keeps its values
(`valuesOf_toArgs`, `getD_foldl_push`), though the pairs of different keys change places.
-/

namespace Esmetrics

open List

variable {α β : Type} [DecidableEq α]

/-- The values of a key, in order. -/
def valuesOf (key : α) (args : List (α × β)) : List β := (args.filter (·.1 = key)).map (·.2)

@[simp] theorem valuesOf_nil (key : α) : valuesOf key ([] : List (α × β)) = [] := rfl

theorem valuesOf_append (key : α) (args args' : List (α × β)) :
    valuesOf key (args ++ args') = valuesOf key args ++ valuesOf key args' := by
  simp [valuesOf]

theorem valuesOf_cons (key : α) (arg : α × β) (args : List (α × β)) :
    valuesOf key (arg :: args) = (if arg.1 = key then [arg.2] else []) ++ valuesOf key args := by
  by_cases h : arg.1 = key <;> simp [valuesOf, h]

theorem mem_valuesOf {key : α} {value : β} {args : List (α × β)} :
    value ∈ valuesOf key args ↔ (key, value) ∈ args := by
  simp only [valuesOf, mem_map, mem_filter, decide_eq_true_eq]
  refine ⟨?_, fun h => ⟨(key, value), ⟨h, rfl⟩, rfl⟩⟩
  rintro ⟨arg, ⟨harg, rfl⟩, rfl⟩
  exact harg

theorem valuesOf_eq_nil {key : α} {args : List (α × β)} (h : key ∉ args.map (·.1)) :
    valuesOf key args = [] := by
  rw [valuesOf, map_eq_nil_iff, filter_eq_nil_iff]
  intro arg harg
  rw [decide_eq_true_eq]
  rintro rfl
  exact h (mem_map_of_mem harg)

/-- A filter that looks at the keys keeps all values of a key or none. -/
theorem valuesOf_filter (p : α → Bool) (key : α) (args : List (α × β)) :
    valuesOf key (args.filter fun arg => p arg.1) = if p key then valuesOf key args else [] := by
  induction args with
  | nil => simp
  | cons arg args ih =>
    by_cases hkey : arg.1 = key
    · cases hp : p key <;> simp_all [valuesOf_cons]
    · cases hp : p arg.1 <;> simp_all [valuesOf_cons]

/-- Pairs of one key all have their value under it. -/
theorem valuesOf_map_mk (key key' : α) (values : List β) :
    valuesOf key (values.map (key', ·)) = if key' = key then values else [] := by
  induction values with
  | nil => simp
  | cons value values ih =>
    rw [map_cons, valuesOf_cons, ih]
    split_ifs <;> rfl

/-- In a list with one entry for each key, a key has the values of its entry. -/
theorem valuesOf_flatMap_of_mem {key : α} {values : List β} {entries : List (α × List β)}
    (hnodup : (entries.map (·.1)).Nodup) (h : (key, values) ∈ entries) :
    valuesOf key (entries.flatMap fun kv => kv.2.map (kv.1, ·)) = values := by
  have hnone : ∀ entries : List (α × List β), key ∉ entries.map (·.1) →
      valuesOf key (entries.flatMap fun kv => kv.2.map (kv.1, ·)) = [] := by
    refine fun entries hkey => valuesOf_eq_nil fun hmem => hkey ?_
    obtain ⟨arg, harg, rfl⟩ := mem_map.mp hmem
    obtain ⟨kv, hkv, hin⟩ := mem_flatMap.mp harg
    obtain ⟨v, -, rfl⟩ := mem_map.mp hin
    exact mem_map_of_mem hkv
  obtain ⟨before, after, rfl⟩ := append_of_mem h
  rw [map_append, map_cons, nodup_append] at hnodup
  obtain ⟨-, hafter, hbefore⟩ := hnodup
  rw [flatMap_append, flatMap_cons, valuesOf_append, valuesOf_append, valuesOf_map_mk,
    if_pos rfl, hnone before fun hmem => hbefore key hmem key (mem_cons_self ..) rfl,
    hnone after (nodup_cons.mp hafter).1, nil_append, append_nil]

/-! ### Sorted maps -/

variable [Ord α] [Std.TransOrd α] [Std.LawfulEqOrd α]

/-- A sorted map from keys to lists of values. -/
abbrev Multimap (α β : Type) [Ord α] : Type := Std.ExtTreeMap α (List β)

namespace Multimap

/-- One more value of a key. -/
def push (m : Multimap α β) (key : α) (value : β) : Multimap α β :=
  m.insert key (m.getD key [] ++ [value])

/-- The values of each key of a list of pairs. -/
def ofArgs (args : List (α × β)) : Multimap α β := args.foldl (fun m arg => m.push arg.1 arg.2) ∅

/-- The pairs of a map, key by key. -/
def toArgs (m : Multimap α β) : List (α × β) := m.toList.flatMap fun kv => kv.2.map (kv.1, ·)

theorem getD_push (m : Multimap α β) (key key' : α) (value : β) :
    (m.push key' value).getD key [] = m.getD key [] ++ if key' = key then [value] else [] := by
  rw [push, Std.ExtTreeMap.getD_insert]
  by_cases h : key' = key
  · rw [if_pos (Std.LawfulEqCmp.compare_eq_iff_eq.mpr h), if_pos h, h]
  · rw [if_neg fun heq => h (Std.LawfulEqCmp.compare_eq_iff_eq.mp heq), if_neg h, append_nil]

theorem getD_foldl_push (m : Multimap α β) (key : α) (args : List (α × β)) :
    (args.foldl (fun m arg => m.push arg.1 arg.2) m).getD key [] =
      m.getD key [] ++ valuesOf key args := by
  induction args generalizing m with
  | nil => simp
  | cons arg args ih => rw [foldl_cons, ih, getD_push, valuesOf_cons, append_assoc]

theorem getD_ofArgs (key : α) (args : List (α × β)) :
    (ofArgs args).getD key [] = valuesOf key args := by
  rw [ofArgs, getD_foldl_push, Std.ExtTreeMap.getD_empty, nil_append]

omit [DecidableEq α] in
theorem mem_foldl_push {m : Multimap α β} {key : α} {args : List (α × β)} :
    key ∈ args.foldl (fun m arg => m.push arg.1 arg.2) m ↔ key ∈ m ∨ key ∈ args.map (·.1) := by
  induction args generalizing m with
  | nil => simp
  | cons arg args ih =>
    rw [foldl_cons, ih, push, Std.ExtTreeMap.mem_insert, Std.LawfulEqCmp.compare_eq_iff_eq,
      map_cons, mem_cons]
    tauto

omit [DecidableEq α] in
theorem mem_ofArgs {key : α} {args : List (α × β)} :
    key ∈ (ofArgs args : Multimap α β) ↔ key ∈ args.map (·.1) := by
  rw [ofArgs, mem_foldl_push]
  simp

/-- Written out key by key, every key has its values. -/
theorem valuesOf_toArgs (m : Multimap α β) (key : α) : valuesOf key m.toArgs = m.getD key [] := by
  have hnodup : (m.toList.map (·.1)).Nodup := by
    rw [nodup_iff_pairwise_ne, pairwise_map]
    exact m.distinct_keys_toList.imp fun hne heq =>
      hne (Std.LawfulEqCmp.compare_eq_iff_eq.mpr heq)
  rw [toArgs, Std.ExtTreeMap.getD_eq_getD_getElem?]
  cases hget : m[key]? with
  | some values =>
    exact valuesOf_flatMap_of_mem hnodup (Std.ExtTreeMap.mem_toList_iff_getElem?_eq_some.mpr hget)
  | none =>
    refine valuesOf_eq_nil fun hmem => ?_
    obtain ⟨arg, harg, rfl⟩ := mem_map.mp hmem
    obtain ⟨kv, hkv, hin⟩ := mem_flatMap.mp harg
    obtain ⟨v, -, rfl⟩ := mem_map.mp hin
    rw [Std.ExtTreeMap.mem_toList_iff_getElem?_eq_some.mp hkv] at hget
    cases hget

omit [DecidableEq α] in
/-- The least key comes first. -/
theorem exists_toArgs_eq_cons {m : Multimap α β} {key : α} {value : β}
    (hleast : ∀ k, compare k key ≠ .lt) (hvalue : m.getD key [] = [value]) :
    ∃ others, m.toArgs = (key, value) :: others ∧ ∀ arg ∈ others, arg.1 ≠ key := by
  have hget : m[key]? = some [value] := by
    rw [Std.ExtTreeMap.getD_eq_getD_getElem?] at hvalue
    cases hget : m[key]? with
    | none =>
      rw [hget] at hvalue
      cases hvalue
    | some values =>
      rw [hget] at hvalue
      exact congrArg some hvalue
  have hsorted := m.ordered_keys_toList
  obtain ⟨before, after, hlist⟩ :=
    append_of_mem (Std.ExtTreeMap.mem_toList_iff_getElem?_eq_some.mpr hget)
  rw [hlist, pairwise_append, pairwise_cons] at hsorted
  obtain ⟨-, ⟨hafter, -⟩, hbefore⟩ := hsorted
  have hnil : before = [] := eq_nil_iff_forall_not_mem.mpr fun kv hkv =>
    hleast kv.1 (hbefore kv hkv (key, [value]) (mem_cons_self ..))
  refine ⟨after.flatMap fun kv => kv.2.map (kv.1, ·), ?_, ?_⟩
  · rw [toArgs, hlist, hnil, nil_append, flatMap_cons]
    rfl
  · intro arg harg heq
    obtain ⟨kv, hkv, hin⟩ := mem_flatMap.mp harg
    obtain ⟨v, -, rfl⟩ := mem_map.mp hin
    have hlt : compare key kv.1 = .lt := hafter kv hkv
    have hself : compare key kv.1 = .eq := Std.LawfulEqCmp.compare_eq_iff_eq.mpr heq.symm
    cases hself.symm.trans hlt

end Multimap

end Esmetrics
