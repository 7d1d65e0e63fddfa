import Mathlib.Data.Nat.Notation
import Mathlib.Tactic.Common

/-!
# Scans that start at a wrapping counter

A ring of `k` places is scanned from the place that a counter points to: step `i` visits `(n + i) %
k`, where the sum is taken in a machine word of `w` values. The scan visits every place if and only
if the sum does not wrap, or the wrap does not shift the places (`forall_mem_visits_iff`). Otherwise
`missed` is a place that it leaves out.
-/

namespace Esmetrics.RotatedScan

/-- The places in the order in which they are visited. -/
def visits (w n k : ℕ) : List ℕ := (List.range k).map fun i => (n + i) % w % k

variable {w n k x : ℕ}

theorem mem_visits : x ∈ visits w n k ↔ ∃ i < k, (n + i) % w % k = x := by
  simp [visits]

theorem lt_of_mem_visits (h : x ∈ visits w n k) : x < k := by
  obtain ⟨i, hi, rfl⟩ := mem_visits.mp h
  exact Nat.mod_lt _ (Nat.zero_lt_of_lt hi)

/-- The step that a scan without a wrap visits a place in. -/
theorem exists_mod_eq (n : ℕ) (hx : x < k) : ∃ i < k, (n + i) % k = x := by
  have hk : 0 < k := Nat.zero_lt_of_lt hx
  have hn : n % k < k := Nat.mod_lt n hk
  rcases Nat.lt_or_ge x (n % k) with hlt | hge
  · refine ⟨k + x - n % k, by omega, ?_⟩
    rw [← Nat.mod_add_mod, show n % k + (k + x - n % k) = x + k by omega, Nat.add_mod_right,
      Nat.mod_eq_of_lt hx]
  · refine ⟨x - n % k, by omega, ?_⟩
    rw [← Nat.mod_add_mod, show n % k + (x - n % k) = x by omega, Nat.mod_eq_of_lt hx]

theorem mem_visits_of_add_le (h : n + k ≤ w) (hx : x < k) : x ∈ visits w n k := by
  obtain ⟨i, hi, rfl⟩ := exists_mod_eq n hx
  exact mem_visits.mpr ⟨i, hi, by rw [Nat.mod_eq_of_lt (show n + i < w by omega)]⟩

theorem mem_visits_of_dvd (h : k ∣ w) (hx : x < k) : x ∈ visits w n k := by
  obtain ⟨i, hi, rfl⟩ := exists_mod_eq n hx
  exact mem_visits.mpr ⟨i, hi, Nat.mod_mod_of_dvd _ h⟩

/-- A place that the scan leaves out, where it does. -/
def missed (w n k : ℕ) : ℕ := if w % k + n < w then k + w % k + n - w - 1 else k - 1

theorem mul_add_ne_mul {d : ℕ} (a b : ℕ) (hd : 0 < d) (hdk : d < k) : k * a + d ≠ k * b := by
  intro h
  have hmod := congrArg (· % k) h
  rw [Nat.mul_add_mod, Nat.mod_eq_of_lt hdk, Nat.mul_mod_right] at hmod
  exact Nat.ne_of_gt hd hmod

theorem missed_bounds (hn : n < w) (hw : w < n + k) (hdvd : ¬ k ∣ w) :
    0 < missed w n k ∧ missed w n k < k ∧ k + n ≤ missed w n k + w := by
  have hr : 0 < w % k := Nat.pos_of_ne_zero fun h => hdvd (Nat.dvd_of_mod_eq_zero h)
  have hrk : w % k < k := Nat.mod_lt w (by omega)
  rw [missed]
  split <;> omega

/-- Steps before the wrap and steps behind it visit two arcs of the ring. -/
theorem missed_not_mem (hk : k ≤ w) (hn : n < w) (hw : w < n + k) (hdvd : ¬ k ∣ w) :
    missed w n k ∉ visits w n k := by
  have hrk : w % k < k := Nat.mod_lt w (by omega)
  obtain ⟨-, -, hbound⟩ := missed_bounds hn hw hdvd
  have hdiv := Nat.div_add_mod w k
  intro hmem
  obtain ⟨i, hi, heq⟩ := mem_visits.mp hmem
  rcases Nat.lt_or_ge (n + i) w with hlt | hge
  · rw [Nat.mod_eq_of_lt hlt] at heq
    have hquot := Nat.div_add_mod (n + i) k
    rw [heq, missed] at hquot
    -- two multiples of `k` would differ by less than `k`
    split at hquot
    · have hd : 0 < k - 1 - i ∧ k - 1 - i < k := by omega
      exact mul_add_ne_mul ((n + i) / k) (w / k) hd.1 hd.2 (by omega)
    · have hd : 0 < k - 1 + (w - n - i) - w % k ∧ k - 1 + (w - n - i) - w % k < k := by omega
      exact mul_add_ne_mul ((n + i) / k) (w / k) hd.1 hd.2 (by omega)
  · -- behind the wrap the places are numbered from zero
    have hsub : (n + i) % w = n + i - w := by
      rw [Nat.mod_eq_sub_mod hge, Nat.mod_eq_of_lt (by omega)]
    rw [hsub, Nat.mod_eq_of_lt (by omega)] at heq
    omega

/-- The places that a scan visits. -/
theorem forall_mem_visits_iff (hk : k ≤ w) (hn : n < w) :
    (∀ x < k, x ∈ visits w n k) ↔ n + k ≤ w ∨ k ∣ w := by
  constructor
  · intro hall
    by_contra h
    obtain ⟨hle, hdvd⟩ := not_or.mp h
    have hw : w < n + k := Nat.lt_of_not_le hle
    exact missed_not_mem hk hn hw hdvd (hall _ (missed_bounds hn hw hdvd).2.1)
  · rintro (h | h) x hx
    · exact mem_visits_of_add_le h hx
    · exact mem_visits_of_dvd h hx

/-- With one place fewer than the word has values, a wrap leaves out the place before the first one
only. -/
theorem mem_visits_of_succ (hw : k + 1 = w) (hn : n ≤ k) (hx : x < k) (hne : x + 1 ≠ n) :
    x ∈ visits w n k := by
  rcases Nat.lt_or_ge x n with hlt | hge
  · refine mem_visits.mpr ⟨w + x - n, by omega, ?_⟩
    rw [show n + (w + x - n) = x + w by omega, Nat.add_mod_right,
      Nat.mod_eq_of_lt (show x < w by omega), Nat.mod_eq_of_lt hx]
  · refine mem_visits.mpr ⟨x - n, by omega, ?_⟩
    rw [show n + (x - n) = x by omega, Nat.mod_eq_of_lt (show x < w by omega), Nat.mod_eq_of_lt hx]

/-- With fewer places, a wrap behind the last place leaves out the last place but one too. -/
theorem not_mem_visits_of_last (hw : w + 1 < 2 * k) (hk : k + 1 < w) : k - 2 ∉ visits w k k := by
  intro hmem
  obtain ⟨i, hi, heq⟩ := mem_visits.mp hmem
  rcases Nat.lt_or_ge (k + i) w with hlt | hge
  · rw [Nat.mod_eq_of_lt hlt, Nat.add_mod_left, Nat.mod_eq_of_lt hi] at heq
    omega
  · have hsub : (k + i) % w = k + i - w := by
      rw [Nat.mod_eq_sub_mod hge, Nat.mod_eq_of_lt (by omega)]
    rw [hsub, Nat.mod_eq_of_lt (by omega)] at heq
    omega

end Esmetrics.RotatedScan
