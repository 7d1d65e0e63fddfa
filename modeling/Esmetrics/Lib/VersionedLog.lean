import Mathlib.Data.List.Basic
import Mathlib.Tactic.Common

/-!
# Logs of versioned changes

A log is a list of changes with strictly increasing versions, and the state at a version is made of
the changes up to it. A replica at the state of one version gets to that of the next entry by its
change (`stateAt_next`), moves on where there are no entries (`stateAt_of_quiet`), and does not see
what is appended (`stateAt_append`).
-/

namespace Esmetrics

open List

variable {δ σ : Type}

/-- The versions increase. -/
def Versioned (log : List (ℕ × δ)) : Prop := log.Pairwise fun e e' => e.1 < e'.1

/-- The entries up to a version. -/
def upTo (log : List (ℕ × δ)) (v : ℕ) : List (ℕ × δ) := log.filter fun e => e.1 ≤ v

/-- The state at a version. -/
def stateAt (apply : σ → δ → σ) (s₀ : σ) (log : List (ℕ × δ)) (v : ℕ) : σ :=
  (upTo log v).foldl (fun s e => apply s e.2) s₀

/-- The first entry after a version. -/
def nextEntry (log : List (ℕ × δ)) (v : ℕ) : Option (ℕ × δ) := log.find? fun e => v < e.1

/-- There are no entries after one version and up to another. -/
def Quiet (log : List (ℕ × δ)) (a b : ℕ) : Prop := ∀ e ∈ log, e.1 ≤ a ∨ b < e.1

instance (log : List (ℕ × δ)) (a b : ℕ) : Decidable (Quiet log a b) :=
  inferInstanceAs (Decidable (∀ e ∈ log, _))

variable {apply : σ → δ → σ} {s₀ : σ} {log : List (ℕ × δ)} {a b v : ℕ}

variable {e : ℕ × δ}

/-- The next entry is in the log, and the other ones are on both sides of it. -/
theorem nextEntry_spec (hlog : Versioned log) (h : nextEntry log v = some e) :
    e ∈ log ∧ v < e.1 ∧ ∀ e' ∈ log, e'.1 ≤ v ∨ e' = e ∨ e.1 < e'.1 := by
  induction log with
  | nil => exact nomatch h
  | cons x log ih =>
    obtain ⟨hx, hlog⟩ := pairwise_cons.mp hlog
    rw [nextEntry, find?_cons] at h
    by_cases hv : v < x.1
    · rw [decide_eq_true hv] at h
      obtain rfl := Option.some.inj h
      refine ⟨mem_cons_self .., hv, ?_⟩
      rintro e' (_ | ⟨_, he'⟩)
      · exact .inr (.inl rfl)
      · exact .inr (.inr (hx e' he'))
    · rw [decide_eq_false hv] at h
      obtain ⟨hmem, hlt, hall⟩ := ih hlog h
      refine ⟨mem_cons_of_mem _ hmem, hlt, ?_⟩
      rintro e' (_ | ⟨_, he'⟩)
      · exact .inl (Nat.le_of_not_lt hv)
      · exact hall e' he'

/-- The entries up to the next one. -/
theorem upTo_next (hlog : Versioned log) (h : nextEntry log v = some e) :
    upTo log e.1 = upTo log v ++ [e] := by
  induction log with
  | nil => exact nomatch h
  | cons x log ih =>
    obtain ⟨hx, hlog'⟩ := pairwise_cons.mp hlog
    rw [nextEntry, find?_cons] at h
    by_cases hv : v < x.1
    · rw [decide_eq_true hv] at h
      obtain rfl := Option.some.inj h
      have habove : ∀ w, w ≤ x.1 → upTo log w = [] := fun w hw => by
        refine filter_eq_nil_iff.mpr fun e he => ?_
        have := hx e he
        simp
        omega
      rw [upTo, upTo, filter_cons_of_pos (by simp), filter_cons_of_neg (by simpa using hv)]
      have hxnil := habove x.1 (Nat.le_refl _)
      have hvnil := habove v (Nat.le_of_lt hv)
      rw [upTo] at hxnil hvnil
      rw [hxnil, hvnil, nil_append]
    · rw [decide_eq_false hv] at h
      have hxe : x.1 ≤ e.1 := Nat.le_trans (Nat.le_of_not_lt hv)
        (Nat.le_of_lt (nextEntry_spec hlog' h).2.1)
      rw [upTo, upTo, filter_cons_of_pos (by simpa using hxe),
        filter_cons_of_pos (by simpa using hv), cons_append]
      exact congrArg (x :: ·) (ih hlog' h)

/-- **The next change.** -/
theorem stateAt_next (hlog : Versioned log) (h : nextEntry log v = some e) :
    stateAt apply s₀ log e.1 = apply (stateAt apply s₀ log v) e.2 := by
  rw [stateAt, upTo_next hlog h, foldl_append]
  rfl

/-- **A version without a change.** -/
theorem stateAt_of_quiet (hab : a ≤ b) (h : Quiet log a b) :
    stateAt apply s₀ log b = stateAt apply s₀ log a := by
  have hupTo : upTo log b = upTo log a := by
    refine filter_congr fun e he => ?_
    rw [decide_eq_decide]
    have := h e he
    omega
  rw [stateAt, hupTo, stateAt]

/-- **A later change.** -/
theorem stateAt_append (h : v < e.1) :
    stateAt apply s₀ (log ++ [e]) v = stateAt apply s₀ log v := by
  have hupTo : upTo (log ++ [e]) v = upTo log v := by
    rw [upTo, filter_append, filter_cons_of_neg (by simpa using h), filter_nil, append_nil]
    rfl
  rw [stateAt, hupTo, stateAt]

/-- One version more: nothing, or the entry with that version. -/
theorem quiet_or_nextEntry (hlog : Versioned log) (v : ℕ) :
    Quiet log v (v + 1) ∨ ∃ e ∈ log, e.1 = v + 1 ∧ nextEntry log v = some e := by
  by_cases hmem : ∃ e ∈ log, e.1 = v + 1
  · obtain ⟨e, he, hv⟩ := hmem
    cases hnext : nextEntry log v with
    | none =>
      have := find?_eq_none.mp hnext e he
      simp [hv] at this
    | some e' =>
      obtain ⟨he', hlt, hall⟩ := nextEntry_spec hlog hnext
      obtain hle | rfl | hgt := hall e he
      · omega
      · exact .inr ⟨e, he, hv, rfl⟩
      · omega
  · refine .inl fun e he => ?_
    have : e.1 ≠ v + 1 := fun heq => hmem ⟨e, he, heq⟩
    omega

/-- What the changes keep holds of every state. -/
theorem stateAt_invariant {P : σ → Prop} (h0 : P s₀) (happly : ∀ s d, P s → P (apply s d)) (v : ℕ) :
    P (stateAt apply s₀ log v) := by
  rw [stateAt]
  exact List.foldlRecOn _ _ h0 fun s hs e _ => happly s e.2 hs

theorem Versioned.append (hlog : Versioned log) (h : ∀ e' ∈ log, e'.1 < e.1) :
    Versioned (log ++ [e]) := by
  refine pairwise_append.mpr ⟨hlog, pairwise_singleton _ _, fun e' he' x hx => ?_⟩
  rw [mem_singleton.mp hx]
  exact h e' he'

theorem nextEntry_append {e' : ℕ × δ} (h : nextEntry log v = some e) :
    nextEntry (log ++ [e']) v = some e := by
  rw [nextEntry, find?_append]
  rw [nextEntry] at h
  rw [h]
  rfl

theorem Quiet.append (h : Quiet log a b) (he : b < e.1) : Quiet (log ++ [e]) a b := by
  intro e' he'
  obtain he' | he' := mem_append.mp he'
  · exact h e' he'
  · rw [mem_singleton.mp he']
    exact .inr he

end Esmetrics
