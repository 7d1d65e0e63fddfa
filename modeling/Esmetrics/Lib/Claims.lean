import Mathlib.Logic.Function.Basic
import Mathlib.Data.List.Basic
import Mathlib.Data.List.Nodup

/-!
# Exclusive claims through flags

Workers take items by setting a flag of each item, and give them back by clearing the flags.
`ClaimsOk` relates what the workers hold to the flags: nothing is held twice, and what is held has
its flag set. A worker that takes only items whose flag is clear keeps it.
Taking items out of a list of items with distinct keys leaves the others (`perm_filter_append`).
-/

namespace Esmetrics

variable {ι : Type*}

/-- No item is held twice, and the flags of the held items are set. -/
structure ClaimsOk (holds : ℕ → List ι) (flag : ι → Bool) : Prop where
  nodup : ∀ w, (holds w).Nodup
  disjoint : ∀ w w' i, i ∈ holds w → i ∈ holds w' → w = w'
  flag : ∀ w, ∀ i ∈ holds w, flag i = true

namespace ClaimsOk

variable {holds : ℕ → List ι} {flag flag' : ι → Bool} {w : ℕ} {l : List ι}

theorem nil (flag : ι → Bool) : ClaimsOk (fun _ => []) flag :=
  ⟨fun _ => List.nodup_nil, by simp, by simp⟩

/-- A worker takes items that no other worker holds. -/
theorem update (h : ClaimsOk holds flag) (hl : l.Nodup)
    (hfree : ∀ w', w' ≠ w → ∀ i ∈ holds w', i ∉ l) (hset : ∀ i ∈ l, flag' i = true)
    (hmono : ∀ w', w' ≠ w → ∀ i ∈ holds w', flag' i = true) :
    ClaimsOk (Function.update holds w l) flag' where
  nodup w' := by
    rw [Function.update_apply]
    split_ifs
    · exact hl
    · exact h.nodup w'
  disjoint w₁ w₂ i h₁ h₂ := by
    rw [Function.update_apply] at h₁ h₂
    split_ifs at h₁ h₂ with e₁ e₂ e₂
    · exact e₁.trans e₂.symm
    · exact absurd h₁ (hfree w₂ e₂ i h₂)
    · exact absurd h₂ (hfree w₁ e₁ i h₁)
    · exact h.disjoint w₁ w₂ i h₁ h₂
  flag w' i hi := by
    rw [Function.update_apply] at hi
    split_ifs at hi with heq
    · exact hset i hi
    · exact hmono w' heq i hi

/-- A worker takes items whose flags are clear, and sets them. -/
theorem take (h : ClaimsOk holds flag) (hl : l.Nodup) (hclear : ∀ i ∈ l, flag i = false)
    (hset : ∀ i ∈ l, flag' i = true) (hmono : ∀ i, flag i = true → flag' i = true) :
    ClaimsOk (Function.update holds w l) flag' := by
  refine h.update hl ?_ hset fun w' _ i hi => hmono i (h.flag w' i hi)
  intro w' _ i hi hil
  exact absurd (h.flag w' i hi) (by simp [hclear i hil])

/-- A worker gives back what it holds, and clears the flags. -/
theorem release (h : ClaimsOk holds flag)
    (hkeep : ∀ i, flag i = true → i ∉ holds w → flag' i = true) :
    ClaimsOk (Function.update holds w []) flag' := by
  refine h.update List.nodup_nil (by simp) (by simp) fun w' hne i hi => ?_
  exact hkeep i (h.flag w' i hi) fun hw => hne (h.disjoint w' w i hi hw)

end ClaimsOk

/-- A list whose keys are distinct is made of some of its elements and of those whose keys are
not among theirs. -/
theorem perm_filter_append {α κ : Type*} [DecidableEq κ] {f : α → κ} {l l' : List α}
    (hnd : (l.map f).Nodup) (hnd' : (l'.map f).Nodup) (hsub : ∀ x ∈ l', x ∈ l) :
    l.Perm ((l.filter fun x => !(l'.map f).contains (f x)) ++ l') := by
  have hmem : ∀ x, x ∈ l.filter (fun x => !(l'.map f).contains (f x)) ↔
      x ∈ l ∧ f x ∉ l'.map f := by
    intro x
    simp [List.mem_filter]
  have hdisj : List.Disjoint (l.filter fun x => !(l'.map f).contains (f x)) l' := fun x h h' =>
    ((hmem x).mp h).2 (List.mem_map_of_mem h')
  refine (List.perm_ext_iff_of_nodup hnd.of_map
    (List.nodup_append'.mpr ⟨hnd.of_map.filter _, hnd'.of_map, hdisj⟩)).mpr fun x => ?_
  rw [List.mem_append, hmem]
  constructor
  · intro h
    by_cases hx : f x ∈ l'.map f
    · obtain ⟨y, hy, heq⟩ := List.mem_map.mp hx
      exact .inr (List.inj_on_of_nodup_map hnd (hsub y hy) h heq ▸ hy)
    · exact .inl ⟨h, hx⟩
  · rintro (⟨h, -⟩ | h)
    · exact h
    · exact hsub x h

end Esmetrics
