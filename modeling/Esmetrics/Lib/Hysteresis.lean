import Mathlib.Order.Basic
import Mathlib.Tactic.Linarith

/-!
# Signals with a hold and a keep time

A signal is observed at increasing times and is present or absent at each of them. An activation
starts when the signal is present and no earlier activation lasts; it is pending while the signal is
held, fires once it was held for the time `hold`, and lasts until the signal was absent, without a
break, for the time `keep`.

The statuses are defined from the whole history (`Firing`, `Pending`, `Resolved`). The lemmas below
say how each of them goes on with the next observation, which is what a machine that keeps only a
few times can follow.
-/

namespace Esmetrics

/-- A signal that is observed at the times `time 0`, `time 1`, … -/
structure Signal where
  present : ℕ → Prop
  time : ℕ → ℤ
  hold : ℤ
  keep : ℤ

namespace Signal

variable (s : Signal)

/-- The signal is present at every observation from `i` to `n`. -/
def Held (i n : ℕ) : Prop := i ≤ n ∧ ∀ k, i ≤ k → k ≤ n → s.present k

/-- The signal is absent at every observation from `a` to `n`. -/
def Absent (a n : ℕ) : Prop := a ≤ n ∧ ∀ k, a ≤ k → k ≤ n → ¬ s.present k

/-- At `p` the signal is held since `i` for the time `hold`. -/
def Promoted (i p : ℕ) : Prop := s.Held i p ∧ s.hold ≤ s.time p - s.time i

/-- Since `p` and up to `n`, a run of absent observations that starts at `a` has reached an
observation `b` after the time `keep`. -/
def Expired (p n : ℕ) : Prop :=
  ∃ a b, p < a ∧ b ≤ n ∧ s.present (a - 1) ∧ s.Absent a b ∧ s.keep ≤ s.time b - s.time a

/-- The activation that starts at `i` fires after the observation `n`. -/
def FiringFrom (i n : ℕ) : Prop := ∃ p ≤ n, s.Promoted i p ∧ ¬ s.Expired p n

/-- The activation that starts at `i` lasts after the observation `n`. -/
def ActiveFrom (i n : ℕ) : Prop := s.Held i n ∨ s.FiringFrom i n

open Classical in
/-- Where the latest activation starts, among the first `m` observations. -/
noncomputable def start : ℕ → Option ℕ
  | 0 => none
  | n + 1 =>
    if s.present n ∧ ∀ i, start n = some i → ¬ s.ActiveFrom i (n - 1) then some n else start n

/-- After the observation `n` the signal fires. -/
def Firing (n : ℕ) : Prop := ∃ i, s.start (n + 1) = some i ∧ s.FiringFrom i n

/-- After the observation `n` the signal is held since the start of its activation, and never for
the time `hold`. -/
def Pending (n : ℕ) : Prop :=
  ∃ i, s.start (n + 1) = some i ∧ s.Held i n ∧ ∀ p ≤ n, ¬ s.Promoted i p

/-- The signal stops firing at the observation `b`. -/
def LeftFiring (b : ℕ) : Prop := 0 < b ∧ s.Firing (b - 1) ∧ ¬ s.Firing b

/-- The signal stopped firing, at most the time `retention` ago, and was absent since. -/
def Resolved (retention : ℤ) (n : ℕ) : Prop :=
  ∃ b, s.LeftFiring b ∧ s.Absent b n ∧ s.time n - s.time b ≤ retention

variable {s}

/-! ### Held and absent signals -/

variable {n i a m p c : ℕ} {retention : ℤ}

theorem held_self (h : s.present n) : s.Held n n :=
  ⟨le_rfl, fun _ hk hk' => le_antisymm hk' hk ▸ h⟩

theorem absent_self (h : ¬ s.present n) : s.Absent n n :=
  ⟨le_rfl, fun _ hk hk' => le_antisymm hk' hk ▸ h⟩

theorem Held.succ (h : s.Held i n) (hn : s.present (n + 1)) : s.Held i (n + 1) := by
  refine ⟨Nat.le_succ_of_le h.1, fun k hk hk' => ?_⟩
  obtain hlt | rfl := Nat.lt_succ_iff_lt_or_eq.mp (Nat.lt_succ_of_le hk')
  · exact h.2 k hk (Nat.lt_succ_iff.mp hlt)
  · exact hn

theorem Absent.succ (h : s.Absent a n) (hn : ¬ s.present (n + 1)) :
    s.Absent a (n + 1) := by
  refine ⟨Nat.le_succ_of_le h.1, fun k hk hk' => ?_⟩
  obtain hlt | rfl := Nat.lt_succ_iff_lt_or_eq.mp (Nat.lt_succ_of_le hk')
  · exact h.2 k hk (Nat.lt_succ_iff.mp hlt)
  · exact hn

theorem Held.last (h : s.Held i n) : s.present n := h.2 n h.1 le_rfl

theorem Absent.last (h : s.Absent a n) : ¬ s.present n := h.2 n h.1 le_rfl

theorem Absent.of_le (h : s.Absent a n) (ham : a ≤ m) (hmn : m ≤ n) : s.Absent a m :=
  ⟨ham, fun k hk hk' => h.2 k hk (hk'.trans hmn)⟩

/-! ### Expiry -/

theorem not_expired_self (p : ℕ) : ¬ s.Expired p p := by
  rintro ⟨a, b, hpa, hb, -, habs, -⟩
  exact absurd (habs.1.trans hb) (by omega)

theorem Expired.mono (h : s.Expired p n) (hnm : n ≤ m) : s.Expired p m := by
  obtain ⟨a, b, hpa, hb, hpre, habs, hkeep⟩ := h
  exact ⟨a, b, hpa, hb.trans hnm, hpre, habs, hkeep⟩

theorem Expired.of_present (h : s.Expired p (n + 1)) (hn : s.present (n + 1)) :
    s.Expired p n := by
  obtain ⟨a, b, hpa, hb, hpre, habs, hkeep⟩ := h
  obtain hlt | rfl := Nat.lt_or_eq_of_le hb
  · exact ⟨a, b, hpa, Nat.lt_succ_iff.mp hlt, hpre, habs, hkeep⟩
  · exact absurd hn habs.last

/-- While the signal is absent since `c`, only this run can expire. -/
theorem expired_succ_iff (hpc : p < c) (hpre : s.present (c - 1)) (habs : s.Absent c (n + 1))
    (hnot : ¬ s.Expired p n) :
    s.Expired p (n + 1) ↔ s.keep ≤ s.time (n + 1) - s.time c := by
  refine ⟨?_, fun hkeep => ⟨c, n + 1, hpc, le_rfl, hpre, habs, hkeep⟩⟩
  rintro ⟨a, b, hpa, hb, hpre', habs', hkeep⟩
  obtain hlt | rfl := Nat.lt_or_eq_of_le hb
  · exact absurd ⟨a, b, hpa, Nat.lt_succ_iff.mp hlt, hpre', habs', hkeep⟩ hnot
  · -- both runs reach the last observation, so they start at the same one
    have hca := habs.1
    have hab := habs'.1
    obtain hac | rfl | hca' := lt_trichotomy a c
    · exact absurd hpre (habs'.2 (c - 1) (by omega) (by omega))
    · exact hkeep
    · exact absurd hpre' (habs.2 (a - 1) (by omega) (by omega))

/-- All the observations that promote one activation lie before the same absent runs. -/
theorem Promoted.lt_of_absent (h : s.Promoted i p) (habs : s.Absent c n) (hp : p ≤ n) : p < c := by
  by_contra hcp
  exact habs.2 p (not_lt.mp hcp) hp h.1.last

/-! ### Activations -/

theorem start_succ_of_absent (h : ¬ s.present n) : s.start (n + 1) = s.start n := by
  rw [start, if_neg fun hnew => h hnew.1]

theorem start_succ_of_active (h : s.start (n + 1) = some i) (hact : s.ActiveFrom i n) :
    s.start (n + 2) = some i := by
  rw [start, if_neg fun hnew => hnew.2 i h hact, h]

theorem firing_or_pending_iff :
    (s.Firing n ∨ s.Pending n) ↔ ∃ i, s.start (n + 1) = some i ∧ s.ActiveFrom i n := by
  constructor
  · rintro (⟨i, hi, hfire⟩ | ⟨i, hi, hheld, -⟩)
    · exact ⟨i, hi, .inr hfire⟩
    · exact ⟨i, hi, .inl hheld⟩
  · rintro ⟨i, hi, hheld | hfire⟩
    · by_cases hprom : ∃ p ≤ n, s.Promoted i p
      · obtain ⟨p, hp, hprom⟩ := hprom
        refine .inl ⟨i, hi, p, hp, hprom, ?_⟩
        -- a held signal is not absent after `p`
        rintro ⟨a, b, hpa, hb, -, habs, -⟩
        have hip := hprom.1.1
        exact habs.last (hheld.2 b (by have := habs.1; omega) hb)
      · push Not at hprom
        exact .inr ⟨i, hi, hheld, hprom⟩
    · exact .inl ⟨i, hi, hfire⟩

/-- A present signal that is not active starts an activation. -/
theorem start_of_not_active (h : s.present m)
    (hact : ∀ n, m = n + 1 → ¬ (s.Firing n ∨ s.Pending n)) :
    s.start (m + 1) = some m := by
  rw [start, if_pos]
  refine ⟨h, fun i hi => ?_⟩
  cases m with
  | zero => cases hi
  | succ n => exact fun hactive => hact n rfl (firing_or_pending_iff.mpr ⟨i, hi, hactive⟩)

/-! ### The statuses exclude one another -/

theorem Pending.not_firing (h : s.Pending n) : ¬ s.Firing n := by
  obtain ⟨i, hi, -, hnone⟩ := h
  rintro ⟨i', hi', p, hp, hprom, -⟩
  obtain rfl : i' = i := Option.some.inj (hi'.symm.trans hi)
  exact hnone p hp hprom

theorem Pending.present (h : s.Pending n) : s.present n := by
  obtain ⟨i, -, hheld, -⟩ := h
  exact hheld.last

/-- A signal that does not fire does not start to fire while it is absent. -/
theorem not_firing_succ_of_absent (h : ¬ s.Firing n) (hn : ¬ s.present (n + 1)) :
    ¬ s.Firing (n + 1) := by
  rintro ⟨i, hi, p, hp, hprom, hnot⟩
  rw [start_succ_of_absent hn] at hi
  obtain hlt | rfl := Nat.lt_or_eq_of_le hp
  · exact h ⟨i, hi, p, Nat.lt_succ_iff.mp hlt, hprom, fun hexp => hnot (hexp.mono (by omega))⟩
  · exact hn hprom.1.last

theorem not_firing_of_absent {b : ℕ} (h : ¬ s.Firing b) (habs : s.Absent b n) : ¬ s.Firing n := by
  obtain ⟨hbn, habs⟩ := habs
  induction n, hbn using Nat.le_induction with
  | base => exact h
  | succ n hbn ih =>
    exact not_firing_succ_of_absent (ih fun k hk hk' => habs k hk (by omega))
      (habs (n + 1) (by omega) le_rfl)

theorem Resolved.not_firing (h : s.Resolved retention n) : ¬ s.Firing n := by
  obtain ⟨b, hleft, habs, -⟩ := h
  exact not_firing_of_absent hleft.2.2 habs

theorem Resolved.not_pending (h : s.Resolved retention n) :
    ¬ s.Pending n := by
  obtain ⟨b, -, habs, -⟩ := h
  exact fun hpend => habs.last hpend.present

/-- Within one run of absent observations the signal stops firing once. -/
theorem LeftFiring.unique {b b' : ℕ} (h : s.LeftFiring b) (h' : s.LeftFiring b')
    (habs : s.Absent b n)
    (habs' : s.Absent b' n) : b = b' := by
  have hle : ∀ {b b'}, s.LeftFiring b → s.LeftFiring b' → s.Absent b n → s.Absent b' n →
      b' ≤ b := by
    rintro b b' h h' habs habs'
    by_contra hlt
    refine not_firing_of_absent h.2.2 (habs.of_le (m := b' - 1) ?_ ?_) h'.2.1
    · omega
    · exact (Nat.sub_le b' 1).trans habs'.1
  exact le_antisymm (hle h' h habs' habs) (hle h h' habs habs')

/-! ### The next observation -/

/-- A pending signal that is present fires once it was held long enough, and stays pending else. -/
theorem Pending.succ (hi : s.start (n + 1) = some i) (hheld : s.Held i n)
    (hnone : ∀ p ≤ n, ¬ s.Promoted i p)
    (hn : s.present (n + 1)) :
    s.start (n + 2) = some i ∧ s.Held i (n + 1) ∧
      (s.hold ≤ s.time (n + 1) - s.time i → s.Promoted i (n + 1)) ∧
      (s.time (n + 1) - s.time i < s.hold → ∀ p ≤ n + 1, ¬ s.Promoted i p) := by
  refine ⟨start_succ_of_active hi (.inl hheld), hheld.succ hn, fun h => ⟨hheld.succ hn, h⟩, ?_⟩
  rintro hlt p hp hprom
  obtain hp | rfl := Nat.lt_or_eq_of_le hp
  · exact hnone p (Nat.lt_succ_iff.mp hp) hprom
  · exact absurd hprom.2 (not_le.mpr hlt)

/-- A pending signal that is absent is forgotten. -/
theorem Pending.succ_absent (h : s.Pending n) (hn : ¬ s.present (n + 1)) :
    ¬ s.Firing (n + 1) ∧ ¬ s.Pending (n + 1) ∧ ¬ s.Resolved retention (n + 1) := by
  refine ⟨not_firing_succ_of_absent h.not_firing hn, fun hpend => hn hpend.present, ?_⟩
  rintro ⟨b, hleft, habs, -⟩
  obtain hlt | rfl := Nat.lt_or_eq_of_le habs.1
  · exact habs.2 n (Nat.lt_succ_iff.mp hlt) (Nat.le_succ n) h.present
  · exact h.not_firing hleft.2.1

/-- A firing signal goes on to fire when it is present. -/
theorem firing_succ_of_present (hi : s.start (n + 1) = some i) (hp : p ≤ n) (hprom : s.Promoted i p)
    (hnot : ¬ s.Expired p n) (hn : s.present (n + 1)) :
    s.start (n + 2) = some i ∧ ¬ s.Expired p (n + 1) :=
  ⟨start_succ_of_active hi (.inr ⟨p, hp, hprom, hnot⟩), fun hexp => hnot (hexp.of_present hn)⟩

/-- A firing signal that is absent since `c` goes on to fire until the time `keep` is over. -/
theorem firing_succ_of_absent (hi : s.start (n + 1) = some i) (hp : p ≤ n) (hprom : s.Promoted i p)
    (hnot : ¬ s.Expired p n) (hpc : p < c) (hpre : s.present (c - 1)) (habs : s.Absent c (n + 1)) :
    s.start (n + 2) = some i ∧
      (s.time (n + 1) - s.time c < s.keep → ¬ s.Expired p (n + 1)) ∧
      (s.keep ≤ s.time (n + 1) - s.time c → s.LeftFiring (n + 1)) := by
  have hstart := start_succ_of_active hi (.inr ⟨p, hp, hprom, hnot⟩)
  have hiff := expired_succ_iff hpc hpre habs hnot
  refine ⟨hstart, fun hlt hexp => absurd (hiff.mp hexp) (not_le.mpr hlt), fun hkeep => ?_⟩
  refine ⟨Nat.succ_pos n, ⟨i, hi, p, hp, hprom, hnot⟩, ?_⟩
  rintro ⟨i', hi', p', hp', hprom', hnot'⟩
  obtain rfl : i' = i := Option.some.inj (hi'.symm.trans hstart)
  exact hnot' ⟨c, n + 1, hprom'.lt_of_absent habs hp', le_rfl, hpre, habs, hkeep⟩

/-- A resolved signal that is absent is kept for the time `retention`. -/
theorem resolved_succ_iff {n b : ℕ} {retention : ℤ} (hleft : s.LeftFiring b) (habs : s.Absent b n)
    (hn : ¬ s.present (n + 1)) :
    s.Resolved retention (n + 1) ↔ s.time (n + 1) - s.time b ≤ retention := by
  refine ⟨?_, fun h => ⟨b, hleft, habs.succ hn, h⟩⟩
  rintro ⟨b', hleft', habs', h⟩
  exact hleft.unique hleft' (habs.succ hn) habs' ▸ h

/-- A signal without a status gets none while it is absent. -/
theorem no_status_succ_of_absent (hmono : s.time n ≤ s.time (n + 1)) (hfire : ¬ s.Firing n)
    (hres : ¬ s.Resolved retention n) (hn : ¬ s.present (n + 1)) :
    ¬ s.Firing (n + 1) ∧ ¬ s.Pending (n + 1) ∧ ¬ s.Resolved retention (n + 1) := by
  refine ⟨not_firing_succ_of_absent hfire hn, fun hpend => hn hpend.present, ?_⟩
  rintro ⟨b, hleft, habs, hret⟩
  obtain hlt | rfl := Nat.lt_or_eq_of_le habs.1
  · exact hres ⟨b, hleft, habs.of_le (Nat.lt_succ_iff.mp hlt) (Nat.le_succ n), by linarith⟩
  · exact hfire hleft.2.1

/-- Before its first presence a signal has no status. -/
theorem no_status_zero (h : ¬ s.present 0) :
    ¬ s.Firing 0 ∧ ¬ s.Pending 0 ∧ ¬ s.Resolved retention 0 := by
  have hstart : s.start 1 = none := by
    rw [start, if_neg fun hnew => h hnew.1]
    rfl
  refine ⟨?_, fun hpend => h hpend.present, ?_⟩
  · rintro ⟨i, hi, -⟩
    cases hstart.symm.trans hi
  · rintro ⟨b, hleft, habs, -⟩
    exact absurd hleft.1 (by have := habs.1; omega)

end Signal

end Esmetrics
