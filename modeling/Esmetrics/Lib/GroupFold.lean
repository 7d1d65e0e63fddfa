import Mathlib.Data.List.Perm.Basic
import Mathlib.Data.List.Nodup

/-!
# Folding into groups

Items with keys are folded into a map that holds one accumulated value per key. The map is a list of
pairs with distinct keys. What is accumulated for a key depends only on the items of that key, in
their order (`mapLookup_groupFold`); and an entry of the map is what is looked up for its key
(`mem_iff_mapLookup_eq`). A map with room for so many keys keeps the first ones, and is the map of
their items (`groupFoldMax_eq`).
-/

namespace Esmetrics

open List
open Prod (fst)

variable {κ α β : Type*} [DecidableEq κ]

/-- The keys of the map. -/
def mapKeys (m : List (κ × α)) : List κ := m.map fst

/-- The value of a key. -/
def mapLookup (k : κ) : List (κ × α) → Option α
  | [] => none
  | (k', a) :: m => if k' = k then some a else mapLookup k m

/-- Adds an item to the value of its key: `f none x` is the first value of a key. -/
def groupInsert (f : Option α → β → α) (k : κ) (x : β) : List (κ × α) → List (κ × α)
  | [] => [(k, f none x)]
  | (k', a) :: m => if k' = k then (k', f (some a) x) :: m else (k', a) :: groupInsert f k x m

/-- Adds items to the values of their keys. -/
def groupFold (f : Option α → β → α) (m : List (κ × α)) (xs : List (κ × β)) : List (κ × α) :=
  xs.foldl (fun m x => groupInsert f x.1 x.2 m) m

/-- An order in which the entries of a map are visited, each of them once. -/
structure IterOrder (ε : Type*) where
  visit : List ε → List ε
  perm : ∀ m, (visit m).Perm m

/-- The entries in the order of the list. -/
def IterOrder.refl {ε : Type*} : IterOrder ε := ⟨id, Perm.refl⟩

/-! ### Lookups -/

@[simp]
theorem mapLookup_nil (k : κ) : mapLookup k ([] : List (κ × α)) = none := rfl

theorem mapLookup_cons (k k' : κ) (a : α) (m : List (κ × α)) :
    mapLookup k ((k', a) :: m) = if k' = k then some a else mapLookup k m := rfl

theorem mapLookup_groupInsert (f : Option α → β → α) (k k' : κ) (x : β) (m : List (κ × α)) :
    mapLookup k' (groupInsert f k x m) =
      if k' = k then some (f (mapLookup k m) x) else mapLookup k' m := by
  induction m with
  | nil =>
    rw [groupInsert, mapLookup_cons]
    simp [eq_comm]
  | cons e m ih =>
    obtain ⟨k₀, a⟩ := e
    rw [groupInsert]
    by_cases hk : k₀ = k
    · subst hk
      rw [if_pos rfl, mapLookup_cons, mapLookup_cons, mapLookup_cons, if_pos rfl]
      simp only [eq_comm]
      split_ifs <;> rfl
    · rw [if_neg hk, mapLookup_cons, ih, mapLookup_cons, mapLookup_cons, if_neg hk]
      by_cases hk' : k₀ = k'
      · subst hk'
        simp [hk]
      · simp [hk']

/-- What is accumulated for a key. -/
theorem mapLookup_groupFold (f : Option α → β → α) (k : κ) (xs : List (κ × β)) (m : List (κ × α)) :
    mapLookup k (groupFold f m xs) =
      (xs.filter fun x => x.1 = k).foldl (fun o x => some (f o x.2)) (mapLookup k m) := by
  induction xs generalizing m with
  | nil => rfl
  | cons x xs ih =>
    change mapLookup k (groupFold f (groupInsert f x.1 x.2 m) xs) = _
    rw [ih, mapLookup_groupInsert]
    by_cases hk : x.1 = k
    · rw [filter_cons_of_pos (by simpa using hk), if_pos hk.symm, hk]
      rfl
    · rw [filter_cons_of_neg (by simpa using hk), if_neg (Ne.symm hk)]

/-! ### Keys -/

theorem mapKeys_groupInsert (f : Option α → β → α) (k : κ) (x : β) (m : List (κ × α)) :
    mapKeys (groupInsert f k x m) = if k ∈ mapKeys m then mapKeys m else mapKeys m ++ [k] := by
  induction m with
  | nil => rfl
  | cons e m ih =>
    obtain ⟨k₀, a⟩ := e
    rw [groupInsert]
    by_cases hk : k₀ = k
    · subst hk
      simp [mapKeys]
    · rw [if_neg hk]
      change k₀ :: mapKeys (groupInsert f k x m) =
        if k ∈ k₀ :: mapKeys m then k₀ :: mapKeys m else k₀ :: mapKeys m ++ [k]
      rw [ih]
      by_cases hm : k ∈ mapKeys m
      · rw [if_pos hm, if_pos (mem_cons_of_mem _ hm)]
      · rw [if_neg hm, if_neg (by simpa [mapKeys, Ne.symm hk] using hm)]
        rfl

variable {m : List (κ × α)}

theorem nodup_mapKeys_groupInsert (f : Option α → β → α) (k : κ) (x : β) (h : (mapKeys m).Nodup) :
    (mapKeys (groupInsert f k x m)).Nodup := by
  rw [mapKeys_groupInsert]
  split_ifs with hk
  · exact h
  · exact nodup_append.mpr ⟨h, nodup_singleton k, fun a ha b hb heq => by
      rw [mem_singleton.mp hb] at heq
      exact hk (heq ▸ ha)⟩

theorem nodup_mapKeys_groupFold (f : Option α → β → α) (xs : List (κ × β)) (h : (mapKeys m).Nodup) :
    (mapKeys (groupFold f m xs)).Nodup := by
  induction xs generalizing m with
  | nil => exact h
  | cons x xs ih => exact ih (nodup_mapKeys_groupInsert f x.1 x.2 h)

/-! ### Maps as sets of entries -/

theorem mem_iff_mapLookup_eq (h : (mapKeys m).Nodup) {k : κ} {a : α} :
    (k, a) ∈ m ↔ mapLookup k m = some a := by
  induction m with
  | nil => simp
  | cons e m ih =>
    obtain ⟨k₀, b⟩ := e
    obtain ⟨hk₀, hm⟩ := nodup_cons.mp h
    rw [mapLookup_cons, mem_cons, Prod.mk.injEq, ih hm]
    by_cases hk : k₀ = k
    · subst hk
      rw [if_pos rfl, Option.some.injEq]
      refine ⟨?_, fun heq => .inl ⟨rfl, heq.symm⟩⟩
      rintro (⟨-, rfl⟩ | hmem)
      · rfl
      · exact absurd (mem_map_of_mem (f := fst) ((ih hm).mpr hmem)) hk₀
    · rw [if_neg hk]
      exact ⟨fun hmem => hmem.resolve_left fun heq => hk heq.1.symm, .inr⟩

/-- The entries of a key, in any order of the entries of the map. -/
theorem filter_eq_toList_mapLookup {m' : List (κ × α)} (hm : (mapKeys m).Nodup)
    (hperm : m'.Perm m) (k : κ) :
    (m'.filter fun x => x.1 = k) = (mapLookup k m).toList.map (Prod.mk k) := by
  have hfilter : (m.filter fun x => x.1 = k) = (mapLookup k m).toList.map (Prod.mk k) := by
    induction m generalizing m' with
    | nil => rfl
    | cons e m ih =>
      obtain ⟨k₀, b⟩ := e
      obtain ⟨hk₀, hm⟩ := nodup_cons.mp hm
      rw [mapLookup_cons]
      by_cases hk : k₀ = k
      · subst hk
        have hnil : (m.filter fun x => x.1 = k₀) = [] := by
          rw [filter_eq_nil_iff]
          intro x hx hkx
          exact hk₀ (mem_map.mpr ⟨x, hx, by simpa using hkx⟩)
        rw [filter_cons_of_pos (by simp), hnil, if_pos rfl]
        rfl
      · rw [filter_cons_of_neg (by simpa using hk), if_neg hk]
        exact ih hm (Perm.refl m)
  have hp := hperm.filter fun x => decide (x.1 = k)
  rw [hfilter] at hp
  match mapLookup k m, hp with
  | none, hp => exact perm_nil.mp hp
  | some a, hp => exact perm_singleton.mp hp

/-- The entries after an item. -/
theorem mem_groupInsert {f : Option α → β → α} {k : κ} {x : β} {e : κ × α}
    (h : e ∈ groupInsert f k x m) :
    e ∈ m ∨ e = (k, f none x) ∨ ∃ a, (k, a) ∈ m ∧ e = (k, f (some a) x) := by
  induction m with
  | nil => exact .inr (.inl (mem_singleton.mp h))
  | cons e' m ih =>
    obtain ⟨k', a⟩ := e'
    rw [groupInsert] at h
    split_ifs at h with hk
    · subst hk
      obtain rfl | h := mem_cons.mp h
      · exact .inr (.inr ⟨a, mem_cons_self, rfl⟩)
      · exact .inl (mem_cons_of_mem _ h)
    · obtain rfl | h := mem_cons.mp h
      · exact .inl mem_cons_self
      · obtain h | h | ⟨b, hb, h⟩ := ih h
        · exact .inl (mem_cons_of_mem _ h)
        · exact .inr (.inl h)
        · exact .inr (.inr ⟨b, mem_cons_of_mem _ hb, h⟩)

/-! ### Maps with a limit -/

/-- The first keys, at most so many, after those that are kept already. -/
def firstKeys (limit : ℕ) (kept ks : List κ) : List κ :=
  ks.foldl (fun kept k => if k ∈ kept then kept else if limit ≤ kept.length then kept
    else kept ++ [k]) kept

/-- Adds items to the values of their keys; a new key is skipped when there are so many. -/
def groupFoldMax (limit : ℕ) (f : Option α → β → α) (m : List (κ × α)) (xs : List (κ × β)) :
    List (κ × α) :=
  xs.foldl (fun m x => if x.1 ∉ mapKeys m ∧ limit ≤ m.length then m else groupInsert f x.1 x.2 m) m

section FirstKeys

variable {limit : ℕ}

theorem firstKeys_cons (kept : List κ) (k : κ) (ks : List κ) :
    firstKeys limit kept (k :: ks) =
      firstKeys limit (if k ∈ kept then kept else if limit ≤ kept.length then kept else kept ++ [k])
      ks := rfl

theorem firstKeys_of_full {kept : List κ} (h : limit ≤ kept.length) (ks : List κ) :
    firstKeys limit kept ks = kept := by
  induction ks with
  | nil => rfl
  | cons k ks ih => rw [firstKeys_cons, if_pos h, ite_self, ih]

theorem subset_firstKeys (kept ks : List κ) : kept ⊆ firstKeys limit kept ks := by
  induction ks generalizing kept with
  | nil => exact Subset.refl kept
  | cons k ks ih =>
    rw [firstKeys_cons]
    refine Subset.trans ?_ (ih _)
    split_ifs
    · exact Subset.refl kept
    · exact Subset.refl kept
    · exact subset_append_left kept [k]

theorem length_firstKeys_le {kept : List κ} (h : kept.length ≤ limit) (ks : List κ) :
    (firstKeys limit kept ks).length ≤ limit := by
  induction ks generalizing kept with
  | nil => exact h
  | cons k ks ih =>
    rw [firstKeys_cons]
    refine ih ?_
    split_ifs with _ hfull
    · exact h
    · exact h
    · rw [length_append, length_singleton]
      omega

end FirstKeys

theorem mapKeys_groupFoldMax (limit : ℕ) (f : Option α → β → α) (m : List (κ × α))
    (xs : List (κ × β)) :
    mapKeys (groupFoldMax limit f m xs) = firstKeys limit (mapKeys m) (xs.map fst) := by
  induction xs generalizing m with
  | nil => rfl
  | cons x xs ih =>
    have hlength : (mapKeys m).length = m.length := length_map fst
    change mapKeys (groupFoldMax limit f (if x.1 ∉ mapKeys m ∧ limit ≤ m.length then m
      else groupInsert f x.1 x.2 m) xs) =
      _
    rw [ih, map_cons, firstKeys_cons, hlength]
    refine congrArg (firstKeys limit · (xs.map fst)) ?_
    by_cases hmem : x.1 ∈ mapKeys m
    · rw [if_neg fun h => h.1 hmem, if_pos hmem, mapKeys_groupInsert, if_pos hmem]
    · by_cases hfull : limit ≤ m.length
      · rw [if_pos ⟨hmem, hfull⟩, if_neg hmem, if_pos hfull]
      · rw [if_neg fun h => hfull h.2, if_neg hmem, if_neg hfull, mapKeys_groupInsert, if_neg hmem]

/-- **A map with a limit** is that of the items of the keys it keeps. -/
theorem groupFoldMax_eq (limit : ℕ) (f : Option α → β → α) (m : List (κ × α)) (xs : List (κ × β)) :
    groupFoldMax limit f m xs =
      groupFold f m (xs.filter fun x => x.1 ∈ firstKeys limit (mapKeys m) (xs.map fst)) := by
  induction xs generalizing m with
  | nil => rfl
  | cons x xs ih =>
    have hlength : (mapKeys m).length = m.length := length_map fst
    change groupFoldMax limit f (if x.1 ∉ mapKeys m ∧ limit ≤ m.length then m
      else groupInsert f x.1 x.2 m) xs = _
    rw [map_cons]
    by_cases hskip : x.1 ∉ mapKeys m ∧ limit ≤ m.length
    · -- A full map keeps its keys.
      have hkeys : ∀ ks, firstKeys limit (mapKeys m) ks = mapKeys m :=
        firstKeys_of_full (hlength ▸ hskip.2)
      rw [if_pos hskip, ih, hkeys, hkeys, filter_cons_of_neg (by simpa using hskip.1)]
    · have hnext : firstKeys limit (mapKeys m) (x.1 :: xs.map fst) =
          firstKeys limit (mapKeys (groupInsert f x.1 x.2 m)) (xs.map fst) := by
        rw [firstKeys_cons, mapKeys_groupInsert, hlength]
        by_cases hmem : x.1 ∈ mapKeys m
        · rw [if_pos hmem, if_pos hmem]
        · rw [if_neg hmem, if_neg hmem, if_neg fun hfull => hskip ⟨hmem, hfull⟩]
      have hkept : x.1 ∈ firstKeys limit (mapKeys (groupInsert f x.1 x.2 m)) (xs.map fst) := by
        refine subset_firstKeys _ _ ?_
        rw [mapKeys_groupInsert]
        split_ifs with hmem
        · exact hmem
        · exact mem_append_right _ mem_cons_self
      rw [if_neg hskip, ih, hnext, filter_cons_of_pos (by simpa using hkept)]
      rfl

end Esmetrics
