import Mathlib.Data.List.Nodup

/-!
# Lists with distinct keys

A list whose elements have pairwise distinct keys is a finite map that remembers an order. Setting
an element (`setByKey`) replaces the one with its key where it stands, or appends it; dropping a key
filters the list. Both keep the keys distinct, and what they do to a lookup is what an update does
to a map.
-/

namespace Esmetrics

open List

variable {α κ : Type} [DecidableEq κ] {key : α → κ}

/-- Puts an element in the place of the first one with its key, or at the end. -/
def setByKey (key : α → κ) (x : α) : List α → List α
  | [] => [x]
  | y :: l => if key y = key x then x :: l else y :: setByKey key x l

/-- The first element with a key. -/
def findByKey (key : α → κ) (k : κ) (l : List α) : Option α := l.find? fun x => key x = k

/-- The list without the elements with a key. -/
def dropByKey (key : α → κ) (k : κ) (l : List α) : List α := l.filter fun x => key x ≠ k

/-! ### The keys -/

theorem map_setByKey (x : α) (l : List α) :
    (setByKey key x l).map key = if key x ∈ l.map key then l.map key else l.map key ++ [key x] := by
  induction l with
  | nil => rfl
  | cons y l ih =>
    rw [setByKey]
    by_cases hy : key y = key x
    · rw [if_pos hy, if_pos (by simp [hy]), map_cons, map_cons, hy]
    · rw [if_neg hy, map_cons, ih]
      by_cases hmem : key x ∈ l.map key
      · have hmem' : key x ∈ (y :: l).map key := mem_cons_of_mem _ hmem
        rw [if_pos hmem, if_pos hmem', map_cons]
      · have hnot : key x ∉ (y :: l).map key := by
          rw [map_cons, mem_cons, not_or]
          exact ⟨Ne.symm hy, hmem⟩
        rw [if_neg hmem, if_neg hnot, map_cons, cons_append]

variable {l : List α}

theorem nodup_setByKey (h : (l.map key).Nodup) (x : α) :
    ((setByKey key x l).map key).Nodup := by
  rw [map_setByKey]
  split_ifs with hmem
  · exact h
  · exact h.append (nodup_singleton _) (disjoint_singleton.mpr hmem)

omit [DecidableEq κ] in
theorem nodup_filter (h : (l.map key).Nodup) (p : α → Bool) :
    ((l.filter p).map key).Nodup :=
  h.sublist (filter_sublist.map key)

/-! ### The elements -/

theorem mem_setByKey {x y : α} (h : y ∈ setByKey key x l) : y = x ∨ y ∈ l := by
  induction l with
  | nil => exact .inl (mem_singleton.mp h)
  | cons z l ih =>
    rw [setByKey] at h
    split_ifs at h with hz
    · exact (mem_cons.mp h).imp_right (mem_cons_of_mem _)
    · obtain rfl | h := mem_cons.mp h
      · exact .inr (mem_cons_self ..)
      · exact (ih h).imp_right (mem_cons_of_mem _)

/-- Setting an element is an update of the map. -/
theorem findByKey_setByKey (x : α) (k : κ) (l : List α) :
    findByKey key k (setByKey key x l) = if k = key x then some x else findByKey key k l := by
  induction l with
  | nil =>
    rw [setByKey, findByKey, findByKey, find?_singleton]
    split_ifs <;> simp_all
  | cons y l ih =>
    rw [findByKey] at ih
    rw [setByKey, findByKey, findByKey]
    by_cases hy : key y = key x
    · rw [if_pos hy, find?_cons, find?_cons, hy]
      by_cases hk : key x = k
      · rw [if_pos hk.symm, decide_eq_true hk]
      · rw [if_neg (Ne.symm hk), decide_eq_false hk]
    · rw [if_neg hy, find?_cons, find?_cons]
      by_cases hk : key y = k
      · rw [decide_eq_true hk, if_neg fun heq => hy (hk.trans heq)]
      · rw [decide_eq_false hk]
        exact ih

/-- Dropping a key is a removal from the map. -/
theorem findByKey_dropByKey (k' k : κ) (l : List α) :
    findByKey key k (dropByKey key k' l) = if k = k' then none else findByKey key k l := by
  rw [findByKey, dropByKey, findByKey, find?_filter]
  by_cases hk : k = k'
  · rw [if_pos hk, find?_eq_none]
    rintro x - hx
    simp [hk] at hx
  · rw [if_neg hk]
    refine congrArg (fun p => List.find? p l) ?_
    funext x
    by_cases hx : key x = k
    · simp [hx, hk]
    · simp [hx]

theorem mem_of_findByKey {k : κ} {x : α} (h : findByKey key k l = some x) :
    x ∈ l ∧ key x = k :=
  ⟨mem_of_find?_eq_some h, by simpa using find?_some h⟩

/-- Setting one element after the other: the new elements hide the old ones. -/
theorem findByKey_foldl_setByKey {xs : List α} (h : (xs.map key).Nodup) (k : κ) (l : List α) :
    findByKey key k (xs.foldl (fun m x => setByKey key x m) l) =
      (findByKey key k xs).or (findByKey key k l) := by
  induction xs generalizing l with
  | nil => rfl
  | cons x xs ih =>
    obtain ⟨hx, hxs⟩ := nodup_cons.mp h
    rw [foldl_cons, ih hxs, findByKey_setByKey]
    by_cases hk : k = key x
    · have hnone : findByKey key k xs = none := by
        rw [findByKey, find?_eq_none]
        intro y hy heq
        refine hx ?_
        rw [← hk, ← of_decide_eq_true heq]
        exact mem_map_of_mem hy
      rw [if_pos hk, hnone, findByKey, find?_cons, decide_eq_true hk.symm]
      rfl
    · rw [if_neg hk, findByKey, findByKey, findByKey, find?_cons, decide_eq_false (Ne.symm hk)]

theorem setByKey_of_not_mem {x : α} (h : key x ∉ l.map key) : setByKey key x l = l ++ [x] := by
  induction l with
  | nil => rfl
  | cons y l ih =>
    rw [map_cons, mem_cons, not_or] at h
    rw [setByKey, if_neg (Ne.symm h.1), ih h.2, cons_append]

/-- Elements with new keys are appended. -/
theorem foldl_setByKey_of_nodup {xs : List α} (h : ((l ++ xs).map key).Nodup) :
    xs.foldl (fun m x => setByKey key x m) l = l ++ xs := by
  induction xs generalizing l with
  | nil => rw [foldl_nil, append_nil]
  | cons x xs ih =>
    rw [← singleton_append, ← append_assoc] at h
    have hx : key x ∉ l.map key := by
      rw [map_append, map_append, map_singleton] at h
      exact fun hmem => disjoint_of_nodup_append h.of_append_left hmem mem_cons_self
    rw [foldl_cons, setByKey_of_not_mem hx, ih h, append_assoc, singleton_append]

theorem nodup_foldl_setByKey (h : (l.map key).Nodup) (xs : List α) :
    ((xs.foldl (fun m x => setByKey key x m) l).map key).Nodup := by
  induction xs generalizing l with
  | nil => exact h
  | cons x xs ih => exact ih (nodup_setByKey h x)

/-- An element with a key is found unless there is none. -/
theorem findByKey_eq_none_iff {k : κ} : findByKey key k l = none ↔ k ∉ l.map key := by
  rw [findByKey, find?_eq_none, mem_map]
  simp

/-- A list with distinct keys is a map: its elements are what is found. -/
theorem findByKey_eq_some_iff (h : (l.map key).Nodup) {k : κ} {x : α} :
    findByKey key k l = some x ↔ x ∈ l ∧ key x = k := by
  refine ⟨mem_of_findByKey, ?_⟩
  rintro ⟨hx, rfl⟩
  cases hfind : findByKey key (key x) l with
  | none => exact absurd (mem_map_of_mem hx) (findByKey_eq_none_iff.mp hfind)
  | some y =>
    obtain ⟨hy, hkey⟩ := mem_of_findByKey hfind
    rw [inj_on_of_nodup_map h hy hx hkey]

/-- The order of a list with distinct keys makes no difference to the map. -/
theorem findByKey_perm {l' : List α} (h : l.Perm l') (hl : (l.map key).Nodup) (k : κ) :
    findByKey key k l = findByKey key k l' := by
  refine Option.ext fun x => ?_
  rw [findByKey_eq_some_iff hl, findByKey_eq_some_iff ((h.map key).nodup_iff.mp hl), h.mem_iff]

/-- Two lists with distinct keys that are the same map have the same elements. -/
theorem mem_iff_of_findByKey {l' : List α} (hl : (l.map key).Nodup) (hl' : (l'.map key).Nodup)
    (h : ∀ k, findByKey key k l = findByKey key k l') (x : α) : x ∈ l ↔ x ∈ l' := by
  have hfind := h (key x)
  constructor
  · intro hx
    rw [(findByKey_eq_some_iff hl).mpr ⟨hx, rfl⟩] at hfind
    exact ((findByKey_eq_some_iff hl').mp hfind.symm).1
  · intro hx
    rw [(findByKey_eq_some_iff hl').mpr ⟨hx, rfl⟩] at hfind
    exact ((findByKey_eq_some_iff hl).mp hfind).1

end Esmetrics
