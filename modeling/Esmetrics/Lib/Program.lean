import Mathlib.Logic.Function.Basic
import Mathlib.Tactic.Common

/-!
# Programs over an interface

A program returns a value, fails, or calls an operation of an interface and goes on with what that
gives. A machine runs it by taking each operation as a step that may fail (`Program.run`). `Meets`
says what a program asks of the operations it calls and what it returns, whatever they give within
bounds, and composes (`Meets.bind`).

Two machines whose steps agree run a program alike. Where one of them has steps that go wrong, this
holds of the programs that do not take them on that machine (`Program.Avoids`, `run_eq_of_avoids`).
-/

namespace Esmetrics

/-- A program over operations `Op`, each of which gives a value of its type. -/
inductive Program (Op : Type) (Ret : Op → Type) (α : Type)
  | pure (a : α)
  | fail
  | call (op : Op) (k : Ret op → Program Op Ret α)

namespace Program

variable {Op : Type} {Ret : Op → Type} {α β σ τ : Type}

/-- One program, and then another. -/
def bind : Program Op Ret α → (α → Program Op Ret β) → Program Op Ret β
  | .pure a, f => f a
  | .fail, _ => .fail
  | .call op k, f => .call op fun v => (k v).bind f

instance : Monad (Program Op Ret) where
  pure := .pure
  bind := .bind

/-- The call of an operation. -/
def perform (op : Op) : Program Op Ret (Ret op) := .call op .pure

/-- Runs a program on a machine. -/
def run (step : (op : Op) → σ → Option (Ret op × σ)) : Program Op Ret α → σ → Option (α × σ)
  | .pure a, s => some (a, s)
  | .fail, _ => none
  | .call op k, s => (step op s).bind fun p => (k p.1).run step p.2

section Run

variable (step : (op : Op) → σ → Option (Ret op × σ))

@[simp]
theorem run_pure (a : α) (s : σ) : (Pure.pure a : Program Op Ret α).run step s = some (a, s) := rfl

@[simp]
theorem run_fail (s : σ) : (Program.fail : Program Op Ret α).run step s = none := rfl

@[simp]
theorem run_bind (p : Program Op Ret α) (f : α → Program Op Ret β) (s : σ) :
    (p >>= f).run step s = (p.run step s).bind fun r => (f r.1).run step r.2 := by
  change (p.bind f).run step s = _
  induction p generalizing s with
  | pure a => rfl
  | fail => rfl
  | call op k ih =>
    rw [bind, run, run, Option.bind_assoc]
    exact congrArg _ (funext fun r => ih r.1 r.2)

@[simp]
theorem run_perform (op : Op) (s : σ) : (perform op : Program Op Ret (Ret op)).run step s =
    step op s := by
  rw [perform, run]
  cases step op s <;> rfl

end Run

/-! ### What a program asks for and returns -/

/-- The operations that the program calls are `P`, and when each of them gives a value in `Q`, it
returns one in `R`. -/
def Meets (P : Op → Prop) (Q : (op : Op) → Ret op → Prop) (R : α → Prop) : Program Op Ret α → Prop
  | .pure a => R a
  | .fail => True
  | .call op k => P op ∧ ∀ v, Q op v → (k v).Meets P Q R

section Meets

variable {P : Op → Prop} {Q : (op : Op) → Ret op → Prop} {R : α → Prop} {S : β → Prop}

theorem meets_perform {op : Op} (h : P op) :
    (perform op : Program Op Ret (Ret op)).Meets P Q (Q op) :=
  ⟨h, fun _ hv => hv⟩

/-- The rule of composition. -/
theorem Meets.bind {p : Program Op Ret α} (hp : p.Meets P Q R) {f : α → Program Op Ret β}
    (hf : ∀ a, R a → (f a).Meets P Q S) : (p >>= f).Meets P Q S := by
  change (p.bind f).Meets P Q S
  induction p with
  | pure a => exact hf a hp
  | fail => trivial
  | call op k ih => exact ⟨hp.1, fun v hv => ih v (hp.2 v hv)⟩

end Meets

/-! ### Two machines -/

/-- The program takes no step that is bad in the state it is taken in. -/
def Avoids (step : (op : Op) → σ → Option (Ret op × σ)) (bad : σ → Op → Prop) :
    Program Op Ret α → σ → Prop
  | .pure _, _ => True
  | .fail, _ => True
  | .call op k, s => ¬ bad s op ∧ ∀ p, step op s = some p → (k p.1).Avoids step bad p.2

/-- The steps of two machines agree: both fail, or they give the same value and go on in related
states. -/
def StepsAgree (rel : σ → τ → Prop) {ρ : Type} (Q : ρ → Prop) : Option (ρ × σ) →
    Option (ρ × τ) → Prop
  | some (v, s), some (w, t) => v = w ∧ Q v ∧ rel s t
  | none, none => True
  | _, _ => False

/-- **Two machines run a program alike** when their steps agree, apart from bad ones, which the
program avoids. -/
theorem run_eq_of_avoids {step : (op : Op) → σ → Option (Ret op × σ)}
    {step' : (op : Op) → τ → Option (Ret op × τ)}
    {rel : σ → τ → Prop} {bad : σ → Op → Prop} {P : Op → Prop} {Q : (op : Op) → Ret op → Prop}
    {R : α → Prop}
    (hsteps : ∀ op s t, P op → rel s t → ¬ bad s op →
      StepsAgree rel (Q op) (step op s) (step' op t))
    {p : Program Op Ret α} (hp : p.Meets P Q R) {s : σ} {t : τ} (hrel : rel s t)
      (havoids : p.Avoids step bad s) :
    (p.run step s).map Prod.fst = (p.run step' t).map Prod.fst := by
  induction p generalizing s t with
  | pure a => rfl
  | fail => rfl
  | call op k ih =>
    have hagree := hsteps op s t hp.1 hrel havoids.1
    rw [run, run]
    cases hstep : step op s with
    | none =>
      rw [hstep] at hagree
      cases hstep' : step' op t with
      | none => rfl
      | some _ =>
        rw [hstep'] at hagree
        exact hagree.elim
    | some r =>
      rw [hstep] at hagree
      cases hstep' : step' op t with
      | none =>
        rw [hstep'] at hagree
        exact hagree.elim
      | some r' =>
        rw [hstep'] at hagree
        obtain ⟨v, s'⟩ := r
        obtain ⟨w, t'⟩ := r'
        obtain ⟨rfl, hv, hrel'⟩ := hagree
        exact ih v (hp.2 v hv) hrel' (havoids.2 _ hstep)

end Program

end Esmetrics
