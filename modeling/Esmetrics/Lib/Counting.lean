import Mathlib.Data.List.Basic
import Mathlib.Tactic.Common

/-!
# Counting what parties hold

The state of a system of parties is a list, and what they hold is the list of what each one holds.
When one party takes a step, only what it holds changes.
-/

namespace Esmetrics

variable {α β : Type} [BEq β]

theorem count_flatMap_append (b : β) (f : α → List β) (l l' : List α) :
    ((l ++ l').flatMap f).count b = (l.flatMap f).count b + (l'.flatMap f).count b := by
  rw [List.flatMap_append, List.count_append]

/-- Replacing one element. -/
theorem count_flatMap_set (b : β) (f : α → List β) {l : List α} {k : ℕ} {y : α} (x : α)
    (h : l[k]? = some y) :
    ((l.set k x).flatMap f).count b + (f y).count b = (l.flatMap f).count b + (f x).count b := by
  induction l generalizing k with
  | nil => exact nomatch h
  | cons z l ih =>
    cases k with
    | zero =>
      obtain rfl : z = y := by simpa using h
      simp only [List.set_cons_zero, List.flatMap_cons, List.count_append]
      omega
    | succ k =>
      have hrest := ih (k := k) (by simpa using h)
      simp only [List.set_cons_succ, List.flatMap_cons, List.count_append]
      omega

end Esmetrics
