import Mathlib.Data.Int.Notation
import Mathlib.Tactic.Common

/-!
# Time ranges and months

Model of `esm-storage/src/time_range.rs` and of the calendar of `esm-storage/src/util.rs`: the
conversion between days since the epoch and civil dates, and the time range of a month. The
values that the source keeps in unsigned integers are never negative, so that all arithmetic is
that of the integers.

The month of a timestamp contains it (`contains_fromPartitionTimestamp`).
-/

namespace Esmetrics.Calendar

/-- The constant `MSEC_PER_DAY`. -/
def msecPerDay : ℤ := 24 * 3600 * 1000

/-- The constant `MAX_UNIX_MILLI`. -/
def maxUnixMilli : ℤ := 9222422399999

/-- Days since the epoch of a civil date. -/
def daysFromCivil (y m d : ℤ) : ℤ :=
  let y := if m ≤ 2 then y - 1 else y
  let era := Int.tdiv (if 0 ≤ y then y else y - 399) 400
  let yoe := y - era * 400
  let mp := if 2 < m then m - 3 else m + 9
  let doy := (153 * mp + 2) / 5 + (d - 1)
  let doe := yoe * 365 + yoe / 4 - yoe / 100 + doy
  era * 146097 + doe - 719468

/-- The civil date of a day: year, month and day. -/
def civilFromDays (z : ℤ) : ℤ × ℤ × ℤ :=
  let z := z + 719468
  let era := Int.tdiv (if 0 ≤ z then z else z - 146096) 146097
  let doe := z - era * 146097
  let yoe := (doe - doe / 1460 + doe / 36524 - doe / 146096) / 365
  let y := yoe + era * 400
  let doy := doe - (365 * yoe + yoe / 4 - yoe / 100)
  let mp := (5 * doy + 2) / 153
  let d := doy - (153 * mp + 2) / 5 + 1
  let m := if mp < 10 then mp + 3 else mp - 9
  (if m ≤ 2 then y + 1 else y, m, d)

/-- A time range; both bounds are included. -/
structure TimeRange where
  minTimestamp : ℤ
  maxTimestamp : ℤ
  deriving DecidableEq

/-- A month, which names the directories of its partition. -/
structure Month where
  year : ℤ
  month : ℤ
  deriving DecidableEq

/-- The month of a timestamp. -/
def timestampToMonth (timestamp : ℤ) : Month :=
  let days := timestamp / msecPerDay
  ⟨(civilFromDays days).1, (civilFromDays days).2.1⟩

namespace TimeRange

/-- The range of a month. -/
def fromMonth (m : Month) : TimeRange :=
  let minDays := daysFromCivil m.year m.month 1
  let next : Month := if m.month = 12 then ⟨m.year + 1, 1⟩ else ⟨m.year, m.month + 1⟩
  let maxDays := daysFromCivil next.year next.month 1
  ⟨minDays * msecPerDay, maxDays * msecPerDay - 1⟩

/-- The range of the month of a timestamp. -/
def fromPartitionTimestamp (timestamp : ℤ) : TimeRange := fromMonth (timestampToMonth timestamp)

def overlapsWith (a v : TimeRange) : Bool :=
  decide (a.minTimestamp ≤ v.maxTimestamp ∧ v.minTimestamp ≤ a.maxTimestamp)

def contains (a : TimeRange) (timestamp : ℤ) : Bool :=
  decide (a.minTimestamp ≤ timestamp ∧ timestamp ≤ a.maxTimestamp)

end TimeRange

example : civilFromDays 19782 = (2024, 2, 29) := by decide

example : TimeRange.fromMonth ⟨2024, 2⟩ = ⟨1706745600000, 1709251199999⟩ := by decide

/-! ### The calendar -/

/-- The truncated division of the source is the floor. -/
theorem tdiv_era (y : ℤ) {n : ℤ} (hn : 0 < n) :
    Int.tdiv (if 0 ≤ y then y else y - (n - 1)) n = y / n := by
  split_ifs with hy
  · exact Int.tdiv_eq_ediv_of_nonneg hy
  · have hneg : y - (n - 1) = -(-y + (n - 1)) := by omega
    rw [hneg, Int.neg_tdiv, Int.tdiv_eq_ediv_of_nonneg (by omega), eq_comm,
      Int.ediv_eq_iff_of_pos hn]
    obtain ⟨hle, hlt⟩ := (Int.ediv_eq_iff_of_pos (x := -y + (n - 1)) hn).mp rfl
    rw [Int.neg_mul]
    omega

/-- The days before the year `n` of an era; years begin in March. -/
def daysBefore (n : ℤ) : ℤ := 365 * n + n / 4 - n / 100

variable {doe q a b k t : ℤ}

/-- The century of a day of an era. The last century has a day more. -/
private theorem exists_century (h0 : 0 ≤ doe) (h1 : doe < 146097) :
    ∃ a r : ℤ, 0 ≤ a ∧ a ≤ 3 ∧ 0 ≤ r ∧ r ≤ 36524 ∧ (r = 36524 → a = 3) ∧
      doe = 36524 * a + r := by
  by_cases hlast : doe = 146096
  · exact ⟨3, 36524, by omega⟩
  · exact ⟨doe / 36524, doe % 36524, by omega⟩

/-- The group of four years of a day of a century. -/
private theorem exists_group {r : ℤ} (h0 : 0 ≤ r) (h1 : r ≤ 36524) :
    ∃ b q : ℤ, 0 ≤ b ∧ b ≤ 24 ∧ 0 ≤ q ∧ q ≤ 1460 ∧ (r < 36524 → q = 1460 → b < 24) ∧
      r = 1461 * b + q := by
  by_cases hlast : r = 36524
  · exact ⟨24, 1460, by omega⟩
  · exact ⟨r / 1461, r % 1461, by omega⟩

/-- The year of a day of such a group. The last year is a leap year. -/
private theorem exists_year (h0 : 0 ≤ q) (h1 : q ≤ 1460) :
    ∃ k t : ℤ, 0 ≤ k ∧ k ≤ 3 ∧ 0 ≤ t ∧ t ≤ 365 ∧ (t = 365 → k = 3 ∧ q = 1460) ∧
      q = 365 * k + t := by
  by_cases hlast : q = 1460
  · exact ⟨3, 365, by omega⟩
  · exact ⟨q / 365, q % 365, by omega⟩

/-- What the division by 1460 counts besides the groups: the leap day of the last one. -/
private theorem leap_day (ha : 0 ≤ a) (ha' : a ≤ 3) (hb : 0 ≤ b) (hb' : b ≤ 24) (hk : 0 ≤ k)
    (hk' : k ≤ 3)
    (ht : 0 ≤ t) (ht' : t ≤ 365) (hleap : t = 365 → k = 3 ∧ q = 1460) (hq : q = 365 * k + t) :
    ∃ e, (24 * a + b + q) / 1460 = e ∧ 0 ≤ t - e ∧ t - e < 365 := by
  by_cases hlt : 24 * a + b + q < 1460
  · refine ⟨0, ?_, by omega, ?_⟩
    · rw [Int.ediv_eq_iff_of_pos (by decide)]
      omega
    · by_contra hge
      have := hleap (by omega)
      omega
  · have hlast : k = 3 := by omega
    refine ⟨1, ?_, by omega, by omega⟩
    rw [Int.ediv_eq_iff_of_pos (by decide)]
    omega

/-- The days before a year, from its century, group and number in the group. -/
private theorem daysBefore_eq (hb : 0 ≤ b) (hb' : b ≤ 24) (hk : 0 ≤ k) (hk' : k ≤ 3) :
    daysBefore (100 * a + 4 * b + k) = 36524 * a + 1461 * b + 365 * k := by
  have hfour : (100 * a + 4 * b + k) / 4 = 25 * a + b := by
    rw [Int.ediv_eq_iff_of_pos (by decide)]
    omega
  have hhundred : (100 * a + 4 * b + k) / 100 = a := by
    rw [Int.ediv_eq_iff_of_pos (by decide)]
    omega
  rw [daysBefore, hfour, hhundred]
  omega

/-- The days of a year. -/
private theorem daysBefore_succ {r : ℤ} (hb : 0 ≤ b) (hb' : b ≤ 24) (hk : 0 ≤ k) (hk' : k ≤ 3)
    (ht : t ≤ 365)
    (hleap : t = 365 → k = 3 ∧ q = 1460) (hlast : r < 36524 → q = 1460 → b < 24)
    (hlast' : r = 36524 → a = 3)
    (hr : r ≤ 36524) (hyear : 100 * a + 4 * b + k < 399) :
    36524 * a + 1461 * b + 365 * k + t < daysBefore (100 * a + 4 * b + k + 1) := by
  by_cases hk3 : k = 3
  · by_cases hb24 : b = 24
    · have hnext : 100 * a + 4 * b + k + 1 = 100 * (a + 1) + 4 * 0 + 0 := by omega
      rw [hnext, daysBefore_eq (by decide) (by decide) (by decide) (by decide)]
      have hne : t ≠ 365 := fun h => by
        have := hleap h
        omega
      omega
    · have hnext : 100 * a + 4 * b + k + 1 = 100 * a + 4 * (b + 1) + 0 := by omega
      rw [hnext, daysBefore_eq (by omega) (by omega) (by decide) (by decide)]
      omega
  · have hne : t ≠ 365 := fun h => hk3 (hleap h).1
    have hnext : 100 * a + 4 * b + k + 1 = 100 * a + 4 * b + (k + 1) := by omega
    rw [hnext, daysBefore_eq hb hb' (by omega) (by omega)]
    omega

/-- The formula for the year of an era. -/
private theorem year_formula {e c d : ℤ} (hdoe : doe = 36524 * a + 1461 * b + 365 * k + t)
    (hc : c = 25 * a + b + e) (hd : d = a) (h0 : 0 ≤ t - e) (h1 : t - e < 365) :
    (doe - c + d) / 365 = 100 * a + 4 * b + k := by
  rw [Int.ediv_eq_iff_of_pos (by decide)]
  omega

/-- The year of an era of a day. -/
theorem yoe_spec (h0 : 0 ≤ doe) (h1 : doe < 146097) {yoe : ℤ}
    (hyoe : yoe = (doe - doe / 1460 + doe / 36524 - doe / 146096) / 365) :
    0 ≤ yoe ∧ yoe < 400 ∧ daysBefore yoe ≤ doe ∧ doe ≤ daysBefore yoe + 365 ∧
      (yoe < 399 → doe < daysBefore (yoe + 1)) := by
  obtain ⟨a, r, ha, ha', hr, hr', hlast, hdoe⟩ := exists_century h0 h1
  obtain ⟨b, q, hb, hb', hq, hq', hlast', hgroup⟩ := exists_group hr hr'
  obtain ⟨k, t, hk, hk', ht, ht', hleap, hyear⟩ := exists_year hq hq'
  obtain ⟨e, he, hday, hday'⟩ := leap_day ha ha' hb hb' hk hk' ht ht' hleap hyear
  have hsum : doe = 36524 * a + 1461 * b + 365 * k + t := by omega
  have hc : doe / 1460 = 25 * a + b + e := by
    have hsplit : doe = (24 * a + b + q) + (25 * a + b) * 1460 := by omega
    rw [hsplit, Int.add_mul_ediv_right _ _ (by decide), he, Int.add_comm]
  have hd : doe / 36524 - doe / 146096 = a := by
    clear hyoe hc he
    by_cases hend : doe = 146096
    · subst hend
      omega
    · have hzero : doe / 146096 = 0 := Int.ediv_eq_zero_of_lt h0 (by omega)
      have hcentury : doe / 36524 = a := by
        rw [Int.ediv_eq_iff_of_pos (by decide)]
        omega
      omega
  have hn : yoe = 100 * a + 4 * b + k := by
    rw [hyoe, Int.add_sub_assoc]
    exact year_formula hsum hc hd hday hday'
  have hbefore : daysBefore yoe = 36524 * a + 1461 * b + 365 * k := by
    rw [hn, daysBefore_eq hb hb' hk hk']
  clear hyoe hc hd he
  refine ⟨by omega, by omega, by omega, by omega, fun hlt => ?_⟩
  rw [hn] at hlt ⊢
  rw [hsum]
  exact daysBefore_succ hb hb' hk hk' ht' hleap hlast' hlast hr' hlt

/-- The first day of a month, by the year of an era that began in March and the number of the
month in it. -/
theorem daysFromCivil_first {y m : ℤ} (era yoe mp : ℤ)
    (hy : (if m ≤ 2 then y - 1 else y) = yoe + era * 400) (h0 : 0 ≤ yoe) (h1 : yoe < 400)
    (hmp : (if 2 < m then m - 3 else m + 9) = mp) :
    daysFromCivil y m 1 = era * 146097 + daysBefore yoe + (153 * mp + 2) / 5 - 719468 := by
  have hera : Int.tdiv (if 0 ≤ yoe + era * 400 then yoe + era * 400
      else yoe + era * 400 - 399) 400 = era := by
    rw [show (399 : ℤ) = 400 - 1 from rfl, tdiv_era _ (by decide),
      Int.add_mul_ediv_right _ _ (by decide), Int.ediv_eq_zero_of_lt h0 h1, Int.zero_add]
  simp only [daysFromCivil, hy, hera, hmp, daysBefore]
  rw [show yoe + era * 400 - era * 400 = yoe by omega]
  omega

/-- The day of the year is in its month. -/
private theorem month_spec {doy mp : ℤ} (h0 : 0 ≤ doy) (h1 : doy ≤ 365)
    (hmp : mp = (5 * doy + 2) / 153) :
    0 ≤ mp ∧ mp ≤ 11 ∧ (153 * mp + 2) / 5 ≤ doy ∧ doy < (153 * (mp + 1) + 2) / 5 := by
  omega

/-- What a civil date is made of: the era of the day, the year of the era, and the month in it. -/
private theorem exists_civilFromDays (z : ℤ) :
    ∃ era doe yoe mp : ℤ, z = era * 146097 + doe - 719468 ∧ doe < 146097 ∧ 0 ≤ yoe ∧ yoe < 400 ∧
      daysBefore yoe ≤ doe ∧ (yoe < 399 → doe < daysBefore (yoe + 1)) ∧
      (0 ≤ mp ∧ mp ≤ 11 ∧ (153 * mp + 2) / 5 ≤ doe - daysBefore yoe ∧
        doe - daysBefore yoe < (153 * (mp + 1) + 2) / 5) ∧
      civilFromDays z = (if (if mp < 10 then mp + 3 else mp - 9) ≤ 2 then
        yoe + era * 400 + 1 else yoe + era * 400, if mp < 10 then mp + 3 else mp - 9,
        doe - daysBefore yoe - (153 * mp + 2) / 5 + 1) := by
  obtain ⟨era, hera⟩ : ∃ era, era = (z + 719468) / 146097 := ⟨_, rfl⟩
  obtain ⟨doe, hdoe⟩ : ∃ doe, doe = z + 719468 - era * 146097 := ⟨_, rfl⟩
  obtain ⟨yoe, hyoe⟩ : ∃ yoe, yoe = (doe - doe / 1460 + doe / 36524 - doe / 146096) / 365 :=
    ⟨_, rfl⟩
  obtain ⟨mp, hmp⟩ : ∃ mp, mp = (5 * (doe - daysBefore yoe) + 2) / 153 := ⟨_, rfl⟩
  obtain ⟨hdoe0, hdoe1⟩ : 0 ≤ doe ∧ doe < 146097 := by
    have := (Int.ediv_eq_iff_of_pos (x := z + 719468) (by decide)).mp hera.symm
    omega
  obtain ⟨hy0, hy1, hbefore, hbefore', hnext⟩ := yoe_spec hdoe0 hdoe1 hyoe
  refine ⟨era, doe, yoe, mp, by omega, hdoe1, hy0, hy1, hbefore, hnext,
    month_spec (by omega) (by omega) hmp, ?_⟩
  simp only [civilFromDays]
  rw [show (146096 : ℤ) = 146097 - 1 from rfl, tdiv_era _ (by decide), ← hera, ← hdoe,
    show (146097 : ℤ) - 1 = 146096 from rfl, ← hyoe, ← daysBefore, ← hmp]

/-- A day is in its month. -/
theorem civilFromDays_spec (z : ℤ) :
    daysFromCivil (civilFromDays z).1 (civilFromDays z).2.1 1 ≤ z ∧
      z < if (civilFromDays z).2.1 = 12 then daysFromCivil ((civilFromDays z).1 + 1) 1 1
        else daysFromCivil (civilFromDays z).1 ((civilFromDays z).2.1 + 1) 1 := by
  obtain ⟨era, doe, yoe, mp, hz, hdoe1, hy0, hy1, hbefore, hnext, ⟨hmp0, hmp1, hlo, hhi⟩, hciv⟩ :=
    exists_civilFromDays z
  rw [hciv]
  dsimp only
  by_cases h10 : mp < 10
  · -- March to December
    rw [if_pos h10, if_neg (by omega), daysFromCivil_first era yoe mp (if_neg (by omega)) hy0 hy1
      (by rw [if_pos (by omega)]; omega)]
    refine ⟨by omega, ?_⟩
    split_ifs with h12
    · obtain rfl : mp = 9 := by omega
      rw [daysFromCivil_first era yoe 10 (by rw [if_pos (by decide)]; omega) hy0 hy1 rfl]
      omega
    · rw [daysFromCivil_first era yoe (mp + 1) (if_neg (by omega)) hy0 hy1
        (by rw [if_pos (by omega)]; omega)]
      omega
  · -- January and February
    rw [if_neg h10, if_pos (by omega), daysFromCivil_first era yoe mp
      (by rw [if_pos (by omega)]; omega) hy0 hy1 (by rw [if_neg (by omega)]; omega)]
    refine ⟨by omega, ?_⟩
    rw [if_neg (by omega)]
    by_cases h11 : mp = 11
    · subst h11
      by_cases hend : yoe < 399
      · rw [daysFromCivil_first era (yoe + 1) 0 (by rw [if_neg (by omega)]; omega)
          (by omega) (by omega) rfl]
        have := hnext hend
        omega
      · obtain rfl : yoe = 399 := by omega
        rw [daysFromCivil_first (era + 1) 0 0 (by rw [if_neg (by omega)]; omega)
          (by decide) (by decide) rfl]
        simp only [daysBefore]
        omega
    · rw [daysFromCivil_first era yoe (mp + 1) (by rw [if_pos (by omega)]; omega) hy0 hy1
        (by rw [if_neg (by omega)]; omega)]
      omega

/-- The date of a day is in a month of the year, and its day number is the day. -/
theorem daysFromCivil_civilFromDays (z : ℤ) :
    1 ≤ (civilFromDays z).2.1 ∧ (civilFromDays z).2.1 ≤ 12 ∧
      daysFromCivil (civilFromDays z).1 (civilFromDays z).2.1 (civilFromDays z).2.2 = z := by
  obtain ⟨era, doe, yoe, mp, hz, -, hy0, hy1, -, -, ⟨hmp0, hmp1, -, -⟩, hciv⟩ :=
    exists_civilFromDays z
  have hfirst : daysFromCivil (civilFromDays z).1 (civilFromDays z).2.1 1 =
      era * 146097 + daysBefore yoe + (153 * mp + 2) / 5 - 719468 := by
    rw [hciv]
    refine daysFromCivil_first era yoe mp ?_ hy0 hy1 ?_
    · dsimp only
      split_ifs <;> omega
    · dsimp only
      split_ifs <;> omega
  have hday : ∀ y m d, daysFromCivil y m d = daysFromCivil y m 1 + (d - 1) := fun y m d => by
    simp only [daysFromCivil]
    omega
  rw [hday, hfirst, hciv]
  dsimp only
  split_ifs <;> omega

/-- The range of a month, in days. -/
theorem TimeRange.contains_fromMonth_iff (m : Month) (timestamp : ℤ) :
    (fromMonth m).contains timestamp = true ↔
      daysFromCivil m.year m.month 1 ≤ timestamp / msecPerDay ∧
        timestamp / msecPerDay < if m.month = 12 then daysFromCivil (m.year + 1) 1 1
          else daysFromCivil m.year (m.month + 1) 1 := by
  have hpos : (0 : ℤ) < msecPerDay := by decide
  have hlast : (if m.month = 12 then (⟨m.year + 1, 1⟩ : Month) else ⟨m.year, m.month + 1⟩) =
      ⟨if m.month = 12 then m.year + 1 else m.year, if m.month = 12 then 1 else m.month + 1⟩ := by
    split_ifs <;> rfl
  rw [contains, decide_eq_true_eq, fromMonth, hlast, Int.le_ediv_iff_mul_le hpos,
    Int.ediv_lt_iff_lt_mul hpos]
  dsimp only
  split_ifs <;> omega

/-- A timestamp is in the range of its month. -/
theorem TimeRange.contains_fromPartitionTimestamp (timestamp : ℤ) :
    (fromPartitionTimestamp timestamp).contains timestamp = true :=
  (contains_fromMonth_iff _ _).mpr (civilFromDays_spec (timestamp / msecPerDay))

end Esmetrics.Calendar
