import Mathlib.Algebra.Group.Nat.Defs
import Mathlib.Tactic.Common

/-!
# Computations that return, fail or panic

`Outcome α` is the result of a computation of the source that may return a value, return an
error, or abort through an `assert!`, an index out of range or an arithmetic or capacity
overflow. `bind` is `?`: it stops at the first error and at the first panic.

`Outcome.Panics` is the event of the third kind, and the `panics_…` lemmas compute it through
`bind`, error mapping and the conversions, so that a statement about the reachability of a panic
in a long function follows the structure of the function.
-/

namespace Esmetrics

/-- The constant `isize::MAX`: a `Vec` grows up to this many bytes, and aborts beyond. -/
def isizeMax : ℕ := 2 ^ 63 - 1

/-- A returned value, a returned error, or a panic. -/
inductive Outcome (α : Type) : Type where
  | ok (a : α)
  | err (msg : String)
  | panic (msg : String)
  deriving DecidableEq, Repr

namespace Outcome

variable {α β : Type}

/-- Continues with the returned value. -/
def bind (x : Outcome α) (f : α → Outcome β) : Outcome β :=
  match x with
  | ok a => f a
  | err msg => err msg
  | panic msg => panic msg

instance : Monad Outcome where
  pure := ok
  bind := bind

@[simp]
theorem pure_eq_ok (a : α) : (pure a : Outcome α) = ok a := rfl

@[simp]
theorem ok_bind (a : α) (f : α → Outcome β) : (ok a >>= f) = f a := rfl

@[simp]
theorem err_bind (msg : String) (f : α → Outcome β) : ((err msg : Outcome α) >>= f) = err msg := rfl

@[simp]
theorem panic_bind (msg : String) (f : α → Outcome β) :
    ((panic msg : Outcome α) >>= f) = panic msg := rfl

variable {x : Outcome α}

theorem bind_eq_ok_iff {f : α → Outcome β} {b : β} :
    (x >>= f) = ok b ↔ ∃ a, x = ok a ∧ f a = ok b := by
  cases x with
  | ok a => simp
  | err msg => simp
  | panic msg => simp

/-- An optional value, with the error for its absence. -/
def ofOption (o : Option α) (msg : String) : Outcome α :=
  match o with
  | some a => ok a
  | none => err msg

/-- An element at an index, or the panic of an index out of range. -/
def index (o : Option α) : Outcome α :=
  match o with
  | some a => ok a
  | none => panic "index out of bounds"

/-- A fallible value of code that cannot panic. -/
def ofExcept (x : Except String α) : Outcome α :=
  match x with
  | .ok a => ok a
  | .error msg => err msg

/-- Rewrites the error, as `map_err` does. -/
def mapErr (f : String → String) (x : Outcome α) : Outcome α :=
  match x with
  | ok a => ok a
  | err msg => err (f msg)
  | panic msg => panic msg

/-- The macro `assert!`. -/
def assert (c : Prop) [Decidable c] (msg : String) : Outcome Unit :=
  if c then ok () else panic msg

@[simp]
theorem ofOption_some (a : α) (msg : String) : ofOption (some a) msg = ok a := rfl

@[simp]
theorem ofOption_none (msg : String) : ofOption (none : Option α) msg = err msg := rfl

@[simp]
theorem index_some (a : α) : index (some a) = ok a := rfl

@[simp]
theorem ofExcept_ok (a : α) : ofExcept (.ok a) = ok a := rfl

@[simp]
theorem ofExcept_error (msg : String) : ofExcept (.error msg : Except String α) = err msg := rfl

@[simp]
theorem mapErr_ok (f : String → String) (a : α) : mapErr f (ok a) = ok a := rfl

@[simp]
theorem mapErr_eq_ok_iff {f : String → String} {a : α} :
    mapErr f x = ok a ↔ x = ok a := by
  cases x <;> simp [mapErr]

theorem assert_of {c : Prop} [Decidable c] (h : c) (msg : String) : assert c msg = ok () :=
  if_pos h

theorem of_assert {c : Prop} [Decidable c] {msg : String} {u : Unit} (h : assert c msg = ok u) :
    c := by
  by_contra hc
  rw [assert, if_neg hc] at h
  cases h

/-! ### Reachability of a panic -/

/-- The computation panics. -/
def Panics (x : Outcome α) : Prop := ∃ msg, x = panic msg

instance (x : Outcome α) : Decidable x.Panics :=
  match x with
  | ok _ => .isFalse fun h => nomatch h.choose_spec
  | err _ => .isFalse fun h => nomatch h.choose_spec
  | panic msg => .isTrue ⟨msg, rfl⟩

@[simp]
theorem not_panics_ok (a : α) : ¬ (ok a).Panics := fun h => nomatch h.choose_spec

@[simp]
theorem not_panics_err (msg : String) : ¬ (err msg : Outcome α).Panics :=
  fun h => nomatch h.choose_spec

@[simp]
theorem panics_panic (msg : String) : (panic msg : Outcome α).Panics := ⟨msg, rfl⟩

/-- A sequence panics in its first part, or in the continuation of a returned value. -/
theorem panics_bind_iff {f : α → Outcome β} :
    (x >>= f).Panics ↔ x.Panics ∨ ∃ a, x = ok a ∧ (f a).Panics := by
  cases x with
  | ok a => simp
  | err msg => simp
  | panic msg => simp

@[simp]
theorem panics_mapErr {f : String → String} : (mapErr f x).Panics ↔ x.Panics := by
  cases x <;> simp [mapErr]

theorem not_panics_ofOption_bind {o : Option α} {msg : String} {f : α → Outcome β}
    (h : ∀ a, o = some a → ¬ (f a).Panics) : ¬ (ofOption o msg >>= f).Panics := by
  cases o with
  | none => simp
  | some a => exact h a rfl

@[simp]
theorem panics_assert {c : Prop} [Decidable c] (msg : String) : (assert c msg).Panics ↔ ¬ c := by
  by_cases h : c <;> simp [assert, h]

end Outcome

end Esmetrics
