import Esmetrics.Lib.KeyedList
import Mathlib.Data.Nat.Notation
import Mathlib.Logic.Function.Basic

/-!
# Lists of named values

A list of pairs whose names are distinct shows a partial function (`Shows`). Appending a pair with a
new name and giving a pair a name that is not in use are updates of this function; dropping pairs by
their names restricts it.
-/

namespace Esmetrics

open List
open Prod (fst snd)
open Function (update update_of_ne update_self)

variable {κ β : Type}

/-- The list has distinct names, and the values that a function gives them. -/
structure Shows (labels : List (κ × β)) (f : κ → Option β) : Prop where
  nodup : (labels.map fst).Nodup
  mem_iff : ∀ k v, (k, v) ∈ labels ↔ f k = some v

theorem mem_names {labels : List (κ × β)} {k : κ} : k ∈ labels.map fst ↔ ∃ v, (k, v) ∈ labels := by
  rw [mem_map]
  constructor
  · rintro ⟨⟨k', v⟩, hmem, rfl⟩
    exact ⟨v, hmem⟩
  · rintro ⟨v, hmem⟩
    exact ⟨(k, v), hmem, rfl⟩

namespace Shows

variable {labels : List (κ × β)} {f : κ → Option β} {k : κ} {v : β}

theorem eq_none_iff (h : Shows labels f) : f k = none ↔ k ∉ labels.map fst := by
  rw [mem_names, not_exists, Option.eq_none_iff_forall_ne_some]
  exact forall_congr' fun v => not_congr (h.mem_iff k v).symm

theorem not_mem (h : Shows labels f) (hk : f k = none) : k ∉ labels.map fst := h.eq_none_iff.mp hk

theorem congr (h : Shows labels f) {g : κ → Option β} (heq : ∀ x, f x = g x) : Shows labels g :=
  ⟨h.nodup, fun x w => heq x ▸ h.mem_iff x w⟩

/-- Labels are dropped by their names. -/
theorem filter (h : Shows labels f) (p : κ → Bool) :
    Shows (labels.filter fun kv => p kv.1) fun x => if p x then f x else none := by
  refine ⟨h.nodup.sublist (filter_sublist.map _), fun x w => ?_⟩
  rw [mem_filter, h.mem_iff]
  by_cases hx : p x
  · simp [hx]
  · simp [hx]

variable [DecidableEq κ]

/-- A label with a new name is added. -/
theorem concat (h : Shows labels f) (hk : f k = none) (v : β) :
    Shows (labels ++ [(k, v)]) (update f k (some v)) := by
  refine ⟨?_, fun x w => ?_⟩
  · rw [map_append, map_singleton]
    exact h.nodup.append (nodup_singleton k) (disjoint_singleton.mpr (h.not_mem hk))
  · rw [mem_append, mem_singleton, h.mem_iff, Prod.mk.injEq]
    by_cases hx : x = k
    · rw [hx, hk, update_self, Option.some.injEq]
      simp [eq_comm]
    · rw [update_of_ne hx]
      simp [hx]

/-- A label gets a name that is not in use. -/
theorem rename (h : Shows labels f) {k k' : κ} {w : β} (hk : f k = some w) (hk' : f k' = none) :
    Shows (labels.map fun kv => (if kv.1 = k then k' else kv.1, kv.2))
      (update (update f k' (some w)) k none) := by
  have hne : k ≠ k' := fun heq => by
    rw [heq, hk'] at hk
    cases hk
  refine ⟨?_, fun x v => ?_⟩
  · have hnames : (labels.map fun kv => (if kv.1 = k then k' else kv.1, kv.2)).map fst =
        (labels.map fst).map fun x => if x = k then k' else x := by
      rw [map_map, map_map]
      rfl
    rw [hnames]
    refine h.nodup.map_on fun x hx y hy heq => ?_
    have hfree : ∀ z ∈ labels.map fst, z ≠ k' := fun z hz hzk => h.not_mem hk' (hzk ▸ hz)
    by_cases hxk : x = k
    · by_cases hyk : y = k
      · rw [hxk, hyk]
      · rw [if_pos hxk, if_neg hyk] at heq
        exact absurd heq.symm (hfree y hy)
    · by_cases hyk : y = k
      · rw [if_neg hxk, if_pos hyk] at heq
        exact absurd heq (hfree x hx)
      · rwa [if_neg hxk, if_neg hyk] at heq
  · rw [mem_map]
    by_cases hxk : x = k
    · rw [hxk, update_self]
      refine iff_of_false ?_ (Option.some_ne_none v ∘ Eq.symm)
      rintro ⟨⟨y, v'⟩, -, heq⟩
      obtain ⟨hy, -⟩ := Prod.mk.inj heq
      dsimp only at hy
      by_cases hyk : y = k
      · rw [if_pos hyk] at hy
        exact hne hy.symm
      · rw [if_neg hyk] at hy
        exact hyk hy
    rw [update_of_ne hxk]
    by_cases hxk' : x = k'
    · rw [hxk', update_self, Option.some.injEq]
      constructor
      · rintro ⟨⟨y, v'⟩, hmem, heq⟩
        obtain ⟨hy, rfl⟩ := Prod.mk.inj heq
        dsimp only at hy
        by_cases hyk : y = k
        · rw [hyk, h.mem_iff, hk] at hmem
          exact Option.some.inj hmem
        · rw [if_neg hyk] at hy
          exact absurd (mem_map_of_mem hmem) (hy ▸ h.not_mem hk')
      · rintro rfl
        exact ⟨(k, w), (h.mem_iff k w).mpr hk, by rw [if_pos rfl]⟩
    · rw [update_of_ne hxk', ← h.mem_iff]
      constructor
      · rintro ⟨⟨y, v'⟩, hmem, heq⟩
        obtain ⟨hy, rfl⟩ := Prod.mk.inj heq
        dsimp only at hy
        by_cases hyk : y = k
        · rw [if_pos hyk] at hy
          exact absurd hy.symm hxk'
        · rw [if_neg hyk] at hy
          exact hy ▸ hmem
      · intro hmem
        exact ⟨(x, v), hmem, by rw [if_neg hxk]⟩

end Shows

/-! ### Looking up a name -/

section Lookup

variable [DecidableEq κ]

/-- The value of the first label with a name. -/
def lookupLabel (labels : List (κ × β)) (k : κ) : Option β := (findByKey fst k labels).map snd

theorem lookupLabel_eq_some_iff {labels : List (κ × β)} {k : κ} {v : β} :
    lookupLabel labels k = some v ↔ findByKey fst k labels = some (k, v) := by
  rw [lookupLabel, Option.map_eq_some_iff]
  constructor
  · rintro ⟨⟨k', v'⟩, hfind, rfl⟩
    have hk : k' = k := (mem_of_findByKey hfind).2
    rw [hfind, hk]
  · exact fun hfind => ⟨(k, v), hfind, rfl⟩

theorem shows_lookupLabel {labels : List (κ × β)} (h : (labels.map fst).Nodup) :
    Shows labels (lookupLabel labels) := by
  refine ⟨h, fun k v => ?_⟩
  rw [lookupLabel_eq_some_iff, findByKey_eq_some_iff h]
  exact (and_iff_left rfl).symm

namespace Shows

variable {labels : List (κ × β)} {f : κ → Option β} {k : κ} {v : β}

end Shows

end Lookup

end Esmetrics
