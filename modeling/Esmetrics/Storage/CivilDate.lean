import Esmetrics.Select.QtFloat
import Esmetrics.Storage.TimeRange

/-!
# Civil dates and partition names

The rest of the calendar of `esm-storage/src/util.rs` and `time_range.rs`: the names of partitions,
and `civil_to_unix_ns` of `esm-select/src/searchutil.rs`, which counts the days of a date of a query
argument.

The months are numbered in their order (`monthIndex`), and the day on which each begins grows with
its number (`firstDay_strictMono`). Hence a day is in one month only, so that dates and day numbers
are inverse to each other (`civilFromDays_daysFromCivil`) and the ranges of the months tile the time
line (`TimeRange.minTimestamp_next`).
-/

namespace Esmetrics.Calendar

open List

/-- The days of a month, `days_in_month` of the query arguments. -/
def daysInMonth (year : ℤ) (month : ℤ) : ℤ :=
  if month ∈ [1, 3, 5, 7, 8, 10, 12] then 31
  else if month ∈ [4, 6, 9, 11] then 30
  else if month = 2 then
    if year.tmod 4 = 0 ∧ (year.tmod 100 ≠ 0 ∨ year.tmod 400 = 0) then 29 else 28
  else 0

/-- A date of the Gregorian calendar. -/
def IsDate (y m d : ℤ) : Prop := (1 ≤ m ∧ m ≤ 12) ∧ 1 ≤ d ∧ d ≤ daysInMonth y m

instance (y m d : ℤ) : Decidable (IsDate y m d) := inferInstanceAs (Decidable (_ ∧ _))

/-- The date behind a date. -/
def nextDate (y m d : ℤ) : ℤ × ℤ × ℤ :=
  if d < daysInMonth y m then (y, m, d + 1) else if m = 12 then (y + 1, 1, 1) else (y, m + 1, 1)

/-! ### Months in their order -/

/-- The number of days of a date, by floor divisions of the year that began in March. -/
theorem daysFromCivil_eq (y m d : ℤ) :
    daysFromCivil y m d = 365 * (if m ≤ 2 then y - 1 else y) + (if m ≤ 2 then y - 1 else y) / 4 -
      (if m ≤ 2 then y - 1 else y) / 100 + (if m ≤ 2 then y - 1 else y) / 400 +
      (153 * (if 2 < m then m - 3 else m + 9) + 2) / 5 + (d - 1) - 719468 := by
  simp only [daysFromCivil]
  rw [show (399 : ℤ) = 400 - 1 from rfl, tdiv_era _ (by decide)]
  generalize (if m ≤ 2 then y - 1 else y) = y'
  omega

/-- A leap year, by the remainders of the floor. -/
theorem daysInMonth_two (y : ℤ) :
    daysInMonth y 2 = if y % 4 = 0 ∧ (y % 100 ≠ 0 ∨ y % 400 = 0) then 29 else 28 := by
  have htmod (n : ℤ) : y.tmod n = 0 ↔ y % n = 0 := by
    rw [← Int.dvd_iff_tmod_eq_zero, Int.dvd_iff_emod_eq_zero]
  simp [daysInMonth, htmod]

/-- A month ends where the next one begins. -/
theorem daysFromCivil_nextMonth {y m : ℤ} (h : 1 ≤ m ∧ m ≤ 12) :
    (if m = 12 then daysFromCivil (y + 1) 1 1 else daysFromCivil y (m + 1) 1) =
      daysFromCivil y m 1 + daysInMonth y m := by
  by_cases hm : m = 2
  · subst hm
    rw [daysInMonth_two, if_neg (by decide), daysFromCivil_eq, daysFromCivil_eq]
    norm_num
    split_ifs <;> omega
  · obtain ⟨h1, h12⟩ := h
    simp only [daysFromCivil_eq]
    interval_cases m
    case «2» => exact absurd rfl hm
    all_goals norm_num [daysInMonth]
    all_goals omega

theorem daysInMonth_pos {y m : ℤ} (h : 1 ≤ m ∧ m ≤ 12) : 0 < daysInMonth y m := by
  obtain ⟨h1, h12⟩ := h
  rw [daysInMonth]
  split_ifs with h31 h30 h2 <;> norm_num at *
  omega

/-- The number of a month. -/
def monthIndex (m : Month) : ℤ := 12 * m.year + (m.month - 1)

/-- The month with a number. -/
def monthAt (k : ℤ) : Month := ⟨k / 12, k % 12 + 1⟩

theorem monthAt_monthIndex {m : Month} (h : 1 ≤ m.month ∧ m.month ≤ 12) :
    monthAt (monthIndex m) = m := by
  obtain ⟨y, m⟩ := m
  dsimp only at h
  rw [monthAt, monthIndex]
  dsimp only
  congr 1 <;> omega

/-- The first day of the month with a number. -/
def firstDay (k : ℤ) : ℤ := daysFromCivil (monthAt k).year (monthAt k).month 1

theorem firstDay_monthIndex {y m : ℤ} (h : 1 ≤ m ∧ m ≤ 12) :
    firstDay (monthIndex ⟨y, m⟩) = daysFromCivil y m 1 := by
  rw [firstDay, monthAt_monthIndex h]

theorem firstDay_monthIndex_succ {y m : ℤ} (h : 1 ≤ m ∧ m ≤ 12) :
    firstDay (monthIndex ⟨y, m⟩ + 1) = daysFromCivil y m 1 + daysInMonth y m := by
  rw [← daysFromCivil_nextMonth h]
  split_ifs with h12
  · subst h12
    rw [← firstDay_monthIndex (by decide)]
    exact congrArg firstDay (by simp only [monthIndex]; omega)
  · rw [← firstDay_monthIndex (by omega)]
    exact congrArg firstDay (by simp only [monthIndex]; omega)

theorem firstDay_strictMono : StrictMono firstDay := by
  refine strictMono_int_of_lt_succ fun k => ?_
  have hm : 1 ≤ k % 12 + 1 ∧ k % 12 + 1 ≤ 12 := by omega
  have hk : monthIndex ⟨k / 12, k % 12 + 1⟩ = k := by
    simp only [monthIndex]
    omega
  have hsucc := @firstDay_monthIndex_succ (k / 12) _ hm
  rw [hk] at hsucc
  have hpos := @daysInMonth_pos (k / 12) _ hm
  have hfirst : firstDay k = daysFromCivil (k / 12) (k % 12 + 1) 1 := rfl
  omega

/-- A day is in one month only. -/
theorem eq_of_firstDay {k k' z : ℤ} (h : firstDay k ≤ z) (h' : z < firstDay (k + 1))
    (hk : firstDay k' ≤ z)
    (hk' : z < firstDay (k' + 1)) : k = k' := by
  have h1 := firstDay_strictMono.lt_iff_lt.mp (h.trans_lt hk')
  have h2 := firstDay_strictMono.lt_iff_lt.mp (hk.trans_lt h')
  omega

/-! ### Dates and day numbers -/

theorem daysFromCivil_day (y m d : ℤ) : daysFromCivil y m d = daysFromCivil y m 1 + (d - 1) := by
  simp only [daysFromCivil]
  omega

/-- The date of a day is one of the calendar. -/
theorem isDate_civilFromDays (z : ℤ) :
    IsDate (civilFromDays z).1 (civilFromDays z).2.1 (civilFromDays z).2.2 := by
  obtain ⟨h1, h12, hz⟩ := daysFromCivil_civilFromDays z
  obtain ⟨hle, hlt⟩ := civilFromDays_spec z
  rw [daysFromCivil_nextMonth ⟨h1, h12⟩] at hlt
  rw [daysFromCivil_day] at hz
  exact ⟨⟨h1, h12⟩, by omega, by omega⟩

/-- The month of a day of a month. -/
theorem civilFromDays_month {y m z : ℤ} (h : 1 ≤ m ∧ m ≤ 12) (hle : daysFromCivil y m 1 ≤ z)
    (hlt : z < daysFromCivil y m 1 + daysInMonth y m) : (civilFromDays z).1 = y ∧
    (civilFromDays z).2.1 = m := by
  obtain ⟨h1, h12, -⟩ := daysFromCivil_civilFromDays z
  obtain ⟨hle', hlt'⟩ := civilFromDays_spec z
  rw [daysFromCivil_nextMonth ⟨h1, h12⟩, ← firstDay_monthIndex_succ ⟨h1, h12⟩] at hlt'
  rw [← firstDay_monthIndex ⟨h1, h12⟩] at hle'
  rw [← firstDay_monthIndex h] at hle
  rw [← firstDay_monthIndex_succ h] at hlt
  have hindex := eq_of_firstDay hle' hlt' hle hlt
  simp only [monthIndex] at hindex
  omega

/-- The date of the day number of a date. -/
theorem civilFromDays_daysFromCivil {y m d : ℤ} (h : IsDate y m d) :
    civilFromDays (daysFromCivil y m d) = (y, m, d) := by
  obtain ⟨hm, hd, hd'⟩ := h
  have hday := daysFromCivil_day y m d
  obtain ⟨hy, hmonth⟩ := @civilFromDays_month y m (daysFromCivil y m d) hm (by omega) (by omega)
  obtain ⟨-, -, hz⟩ := daysFromCivil_civilFromDays (daysFromCivil y m d)
  rw [hy, hmonth, daysFromCivil_day] at hz
  rw [← Prod.mk.eta (p := civilFromDays _), ← Prod.mk.eta (p := (civilFromDays _).2), hy, hmonth]
  congr
  omega

/-- Day numbers of consecutive dates differ by one. -/
theorem daysFromCivil_nextDate {y m d : ℤ} (h : IsDate y m d) :
    IsDate (nextDate y m d).1 (nextDate y m d).2.1 (nextDate y m d).2.2 ∧
      daysFromCivil (nextDate y m d).1 (nextDate y m d).2.1 (nextDate y m d).2.2 =
      daysFromCivil y m d + 1 := by
  obtain ⟨hm, hd, hd'⟩ := h
  have hnext := @daysFromCivil_nextMonth y m hm
  have hday := daysFromCivil_day y m d
  rw [nextDate]
  split_ifs with hlast h12 <;> dsimp only
  · rw [daysFromCivil_day]
    exact ⟨⟨hm, by omega, by omega⟩, by omega⟩
  · rw [if_pos h12] at hnext
    exact ⟨⟨by omega, le_rfl, daysInMonth_pos (by omega)⟩, by omega⟩
  · rw [if_neg h12] at hnext
    exact ⟨⟨by omega, le_rfl, daysInMonth_pos (by omega)⟩, by omega⟩

/-! ### Months of timestamps -/

namespace TimeRange

/-- The range of a month is that of its days. -/
theorem fromMonth_eq {m : Month} (h : 1 ≤ m.month ∧ m.month ≤ 12) :
    fromMonth m = ⟨firstDay (monthIndex m) * msecPerDay,
      firstDay (monthIndex m + 1) * msecPerDay - 1⟩ := by
  obtain ⟨y, m⟩ := m
  rw [firstDay_monthIndex h, firstDay_monthIndex_succ h, ← daysFromCivil_nextMonth h, fromMonth]
  dsimp only
  split_ifs <;> rfl

theorem timestampToMonth_month (timestamp : ℤ) :
    1 ≤ (timestampToMonth timestamp).month ∧ (timestampToMonth timestamp).month ≤ 12 :=
  (isDate_civilFromDays (timestamp / msecPerDay)).1

/-- A timestamp is in the range of a month only if it is of the month. -/
theorem contains_fromMonth {m : Month} {timestamp : ℤ} (h : 1 ≤ m.month ∧ m.month ≤ 12)
    (hcontains : (fromMonth m).contains timestamp = true) : timestampToMonth timestamp = m := by
  obtain ⟨hle, hlt⟩ := (contains_fromMonth_iff m timestamp).mp hcontains
  rw [daysFromCivil_nextMonth h] at hlt
  obtain ⟨hy, hmonth⟩ := civilFromDays_month h hle hlt
  rw [timestampToMonth, hy, hmonth]

/-- Ranges of months that share a timestamp are the same. -/
theorem fromPartitionTimestamp_eq {timestamp t : ℤ}
    (h : (fromPartitionTimestamp timestamp).contains t = true) :
    fromPartitionTimestamp timestamp = fromPartitionTimestamp t :=
  congrArg fromMonth (contains_fromMonth (timestampToMonth_month timestamp) h).symm

/-- The next range begins where the range of a month ends. -/
theorem minTimestamp_next (timestamp : ℤ) :
    (fromPartitionTimestamp ((fromPartitionTimestamp timestamp).maxTimestamp + 1)).minTimestamp =
      (fromPartitionTimestamp timestamp).maxTimestamp + 1 := by
  obtain ⟨k, hk⟩ : ∃ k, k = monthIndex (timestampToMonth timestamp) + 1 := ⟨_, rfl⟩
  have hend : (fromPartitionTimestamp timestamp).maxTimestamp + 1 = firstDay k * msecPerDay := by
    rw [fromPartitionTimestamp, fromMonth_eq (timestampToMonth_month timestamp), hk]
    exact Int.sub_add_cancel ..
  have hmonth : 1 ≤ (monthAt k).month ∧ (monthAt k).month ≤ 12 := by
    simp only [monthAt]
    omega
  have hindex : monthIndex (monthAt k) = k := by
    simp only [monthIndex, monthAt]
    omega
  have hpos : (0 : ℤ) < msecPerDay := by decide
  have hlt := Int.mul_lt_mul_of_pos_right (firstDay_strictMono
    (Int.lt_add_one_of_le (le_refl k))) hpos
  have hmem : (fromMonth (monthAt k)).contains (firstDay k * msecPerDay) = true := by
    rw [fromMonth_eq hmonth, hindex, contains]
    exact decide_eq_true ⟨le_rfl, Int.le_sub_one_of_lt hlt⟩
  rw [hend, fromPartitionTimestamp, contains_fromMonth hmonth hmem, fromMonth_eq hmonth, hindex]

end TimeRange

/-! ### Names of partitions -/

open Protoparser (digitValue printInteger)

/-- What `{:0width}` writes: zeros fill the width between the sign and the digits. -/
def formatPadded (width : ℕ) (n : ℤ) : Bytes :=
  let sign := if n < 0 then ascii "-" else []
  sign ++ List.leftpad (width - sign.length) '0'.toUInt8 (printInteger n.natAbs)

/-- The name of the partition of a timestamp. -/
def timestampToPartitionName (timestamp : ℤ) : Bytes :=
  formatPadded 4 (timestampToMonth timestamp).year ++
    '_'.toUInt8 :: formatPadded 2 (timestampToMonth timestamp).month

/-- The number that digits stand for. -/
def parseDigits (s : Bytes) : ℕ := s.foldl (fun d b => d * 10 + digitValue b) 0

/-- The error quotes the name. -/
inductive PartitionNameError
  | cannotParse (name : Bytes)

namespace TimeRange

def fromPartitionName (name : Bytes) : Except PartitionNameError TimeRange :=
  if name.length ≠ 7 ∨ name[4]? ≠ some '_'.toUInt8 ∨ ¬ (name.eraseIdx 4).all isAsciiDigit then
    .error (.cannotParse name)
  else
    let y := parseDigits (name.take 4)
    let m := parseDigits (name.drop 5)
    if 1 ≤ m ∧ m ≤ 12 then .ok (fromMonth ⟨y, m⟩) else .error (.cannotParse name)

end TimeRange

theorem formatPadded_spec {width n : ℕ} (hwidth : 0 < width) (hn : n < 10 ^ width) :
    (formatPadded width n).length = width ∧ (formatPadded width n).all isAsciiDigit = true ∧
      parseDigits (formatPadded width n) = n := by
  obtain ⟨hdigits, hvalue⟩ := Select.toDigits_digits n
  have hlength : ((Nat.toDigits 10 n).map fun c => c.toUInt8).length ≤ width := by
    rw [length_map]
    exact (Nat.length_toDigits_le_iff (by decide) hwidth).mpr hn
  have hformat : formatPadded width n =
      List.replicate (width - ((Nat.toDigits 10 n).map fun c => c.toUInt8).length) '0'.toUInt8 ++
        (Nat.toDigits 10 n).map fun c => c.toUInt8 := by
    rw [formatPadded, if_neg (by omega), Int.natAbs_natCast, Select.printInteger_natCast]
    rfl
  have hzeros (k : ℕ) : parseDigits (List.replicate k '0'.toUInt8) = 0 := by
    induction k with
    | zero => rfl
    | succ k ih =>
      have hzero : 0 * 10 + digitValue '0'.toUInt8 = 0 := by decide
      rw [parseDigits, replicate_succ, foldl_cons, hzero]
      exact ih
  rw [hformat]
  refine ⟨?_, ?_, ?_⟩
  · rw [length_append, length_replicate]
    omega
  · rw [all_append, Bool.and_eq_true, all_eq_true, all_eq_true]
    refine ⟨fun b hb => ?_, hdigits⟩
    rw [eq_of_mem_replicate hb]
    decide
  · rw [parseDigits, foldl_append]
    exact (congrArg (fun d => List.foldl _ d _) (hzeros _)).trans hvalue

/-- The name of a partition is read back. -/
theorem fromPartitionName_timestampToPartitionName {timestamp : ℤ}
    (h0 : 0 ≤ (timestampToMonth timestamp).year) (h1 : (timestampToMonth timestamp).year < 10000) :
    TimeRange.fromPartitionName (timestampToPartitionName timestamp) =
      .ok (TimeRange.fromPartitionTimestamp timestamp) := by
  obtain ⟨hm1, hm12⟩ := TimeRange.timestampToMonth_month timestamp
  rw [timestampToPartitionName, TimeRange.fromPartitionTimestamp]
  generalize timestampToMonth timestamp = month at *
  obtain ⟨y, m⟩ := month
  obtain ⟨y, rfl⟩ := Int.eq_ofNat_of_zero_le h0
  obtain ⟨m, rfl⟩ := Int.eq_ofNat_of_zero_le (show 0 ≤ m by dsimp only at hm1; omega)
  dsimp only at *
  obtain ⟨hylen, hydigits, hyvalue⟩ := @formatPadded_spec 4 y (by decide) (by omega)
  obtain ⟨hmlen, hmdigits, hmvalue⟩ := @formatPadded_spec 2 m (by decide) (by omega)
  generalize formatPadded 4 y = year at *
  generalize formatPadded 2 m = month at *
  have hmid : (year ++ '_'.toUInt8 :: month)[4]? = some '_'.toUInt8 := by
    rw [← hylen]
    simp
  have herase : (year ++ '_'.toUInt8 :: month).eraseIdx 4 = year ++ month := by
    rw [← hylen, eraseIdx_append_of_length_le le_rfl, Nat.sub_self, eraseIdx_cons_zero]
  have htake : (year ++ '_'.toUInt8 :: month).take 4 = year := by
    rw [← hylen, take_left]
  have hdrop : (year ++ '_'.toUInt8 :: month).drop 5 = month := by
    rw [drop_append, hylen, drop_eq_nil_of_le (by omega)]
    rfl
  rw [TimeRange.fromPartitionName, herase, htake, hdrop, hmid, hyvalue, hmvalue, if_neg ?_,
    if_pos (by omega)]
  simp [hylen, hmlen, hydigits, hmdigits]

/-- The years of the timestamps of samples have four digits. -/
theorem timestampToMonth_year {timestamp : ℤ} (h0 : 0 ≤ timestamp) (h1 : timestamp ≤ maxUnixMilli) :
    0 ≤ (timestampToMonth timestamp).year ∧ (timestampToMonth timestamp).year < 10000 := by
  obtain ⟨hm, hd⟩ := isDate_civilFromDays (timestamp / msecPerDay)
  obtain ⟨-, -, hz⟩ := daysFromCivil_civilFromDays (timestamp / msecPerDay)
  have hday : 0 ≤ timestamp / msecPerDay ∧ timestamp / msecPerDay ≤ 106751 := by
    simp only [msecPerDay, maxUnixMilli] at *
    omega
  have hlength : daysInMonth (civilFromDays (timestamp / msecPerDay)).1
      (civilFromDays (timestamp / msecPerDay)).2.1 ≤ 31 := by
    rw [daysInMonth]
    split_ifs <;> decide
  rw [timestampToMonth]
  rw [daysFromCivil_eq] at hz
  dsimp only
  generalize (civilFromDays (timestamp / msecPerDay)).1 = y at *
  generalize (civilFromDays (timestamp / msecPerDay)).2.1 = m at *
  split_ifs at hz <;> omega

/-! ### Dates of query arguments -/

/-- The nearest `i64`. -/
def clampI128 (v : ℤ) : ℤ :=
  if v > 2 ^ 63 - 1 then 2 ^ 63 - 1 else if v < -2 ^ 63 then -2 ^ 63 else v

def civilToUnixNs (year : ℤ) (month day hour minute sec fracNs : ℕ) : Option ℤ :=
  if ¬ (1 ≤ month ∧ month ≤ 12) ∨ day < 1 ∨ (day : ℤ) > daysInMonth year month then none
  else if hour > 23 ∨ minute > 59 ∨ sec > 59 then none
  else
    let y := if month ≤ 2 then year - 1 else year
    let era := Int.tdiv (if 0 ≤ y then y else y - 399) 400
    let yoe := y - era * 400
    let mp := if 2 < month then month - 3 else month + 9
    let doy := Int.tdiv (153 * mp + 2) 5 + day - 1
    let doe := yoe * 365 + yoe.tdiv 4 - yoe.tdiv 100 + doy
    let days := era * 146097 + doe - 719468
    let secs := days * 86400 + hour * 3600 + minute * 60 + sec
    some (clampI128 (secs * 1000000000 + fracNs))

/-- A valid time of day. -/
def IsTime (hour minute sec : ℕ) : Prop := hour ≤ 23 ∧ minute ≤ 59 ∧ sec ≤ 59

instance (hour minute sec : ℕ) : Decidable (IsTime hour minute sec) :=
  inferInstanceAs (Decidable (_ ∧ _))

/-- The nanoseconds of a date and a time are those of its day number. -/
theorem civilToUnixNs_eq {year : ℤ} {month day hour minute sec : ℕ} (fracNs : ℕ)
    (hdate : IsDate year month day) (htime : IsTime hour minute sec) :
    civilToUnixNs year month day hour minute sec fracNs =
      some (clampI128 ((daysFromCivil year month day * 86400 + hour * 3600 + minute * 60 + sec) *
        1000000000 + fracNs)) := by
  obtain ⟨⟨hm1, hm12⟩, hd1, hd⟩ := hdate
  obtain ⟨hhour, hminute, hsec⟩ := htime
  have hmp : ((if 2 < month then month - 3 else month + 9 : ℕ) : ℤ) =
      if 2 < (month : ℤ) then (month : ℤ) - 3 else month + 9 := by
    split_ifs <;> omega
  have hy : (if month ≤ 2 then year - 1 else year) = if (month : ℤ) ≤ 2 then year - 1
      else year := by
    split_ifs <;> first | rfl | omega
  have hnonneg : 0 ≤ if 2 < (month : ℤ) then (month : ℤ) - 3 else month + 9 := by
    split_ifs <;> omega
  rw [civilToUnixNs, if_neg (by omega), if_neg (by omega)]
  simp only [daysFromCivil, hmp, hy]
  generalize (if (month : ℤ) ≤ 2 then year - 1 else year) = y
  generalize (if 2 < (month : ℤ) then (month : ℤ) - 3 else month + 9) = mp at hnonneg
  have hyoe : 0 ≤ y - Int.tdiv (if 0 ≤ y then y else y - 399) 400 * 400 := by
    rw [show (399 : ℤ) = 400 - 1 from rfl, tdiv_era _ (by decide)]
    omega
  rw [Int.tdiv_eq_ediv_of_nonneg hyoe, Int.tdiv_eq_ediv_of_nonneg hyoe,
    Int.tdiv_eq_ediv_of_nonneg (show 0 ≤ 153 * mp + 2 by omega), Int.add_sub_assoc (_ / 5)]

theorem civilToUnixNs_eq_none {year : ℤ} {month day hour minute sec : ℕ} (fracNs : ℕ)
    (h : ¬ (IsDate year month day ∧ IsTime hour minute sec)) :
    civilToUnixNs year month day hour minute sec fracNs = none := by
  rw [civilToUnixNs]
  split_ifs with hdate htime
  · rfl
  · rfl
  · refine absurd ⟨⟨?_, ?_, ?_⟩, ?_, ?_, ?_⟩ h <;> omega

/-! ### The calendar -/

/-- **The calendar is exact.** Dates and day numbers are inverse to each other, the day numbers of
consecutive dates differ by one, the ranges of the months tile the time line, names of partitions
are read back, and the dates of query arguments are counted alike. -/
theorem calendar_exact :
    (∀ z, IsDate (civilFromDays z).1 (civilFromDays z).2.1 (civilFromDays z).2.2 ∧
        daysFromCivil (civilFromDays z).1 (civilFromDays z).2.1 (civilFromDays z).2.2 = z) ∧
      (∀ y m d, IsDate y m d → civilFromDays (daysFromCivil y m d) = (y, m, d) ∧
        IsDate (nextDate y m d).1 (nextDate y m d).2.1 (nextDate y m d).2.2 ∧
        daysFromCivil (nextDate y m d).1 (nextDate y m d).2.1 (nextDate y m d).2.2 =
        daysFromCivil y m d + 1) ∧
      (∀ ts, 0 ≤ ts → ts ≤ maxUnixMilli →
        (TimeRange.fromPartitionTimestamp ts).contains ts = true ∧
        (∀ ts', 0 ≤ ts' → ts' ≤ maxUnixMilli →
          TimeRange.fromPartitionTimestamp ts = TimeRange.fromPartitionTimestamp ts' ∨
            ∀ t, ¬ ((TimeRange.fromPartitionTimestamp ts).contains t = true ∧
              (TimeRange.fromPartitionTimestamp ts').contains t = true)) ∧
        (TimeRange.fromPartitionTimestamp ((TimeRange.fromPartitionTimestamp ts).maxTimestamp +
          1)).minTimestamp = (TimeRange.fromPartitionTimestamp ts).maxTimestamp + 1 ∧
        TimeRange.fromPartitionName (timestampToPartitionName ts) =
          .ok (TimeRange.fromPartitionTimestamp ts)) ∧
      ∀ (year : ℤ) (month day hour minute sec fracNs : ℕ), 0 ≤ year → year ≤ 9999 →
        (IsDate year month day ∧ IsTime hour minute sec →
          civilToUnixNs year month day hour minute sec fracNs = some (clampI128
            ((daysFromCivil year month day * 86400 + hour * 3600 + minute * 60 + sec) *
              1000000000 + fracNs))) ∧
        (¬ (IsDate year month day ∧ IsTime hour minute sec) →
          civilToUnixNs year month day hour minute sec fracNs = none) := by
  refine ⟨fun z => ⟨isDate_civilFromDays z, (daysFromCivil_civilFromDays z).2.2⟩,
    fun y m d h => ⟨civilFromDays_daysFromCivil h, daysFromCivil_nextDate h⟩, fun ts h0 h1 => ?_,
    fun year month day hour minute sec fracNs _ _ =>
      ⟨fun h => civilToUnixNs_eq fracNs h.1 h.2, civilToUnixNs_eq_none fracNs⟩⟩
  obtain ⟨hy0, hy1⟩ := timestampToMonth_year h0 h1
  refine ⟨TimeRange.contains_fromPartitionTimestamp ts, fun ts' _ _ => ?_,
    TimeRange.minTimestamp_next ts, fromPartitionName_timestampToPartitionName hy0 hy1⟩
  refine or_iff_not_imp_right.mpr fun h => ?_
  obtain ⟨t, ht⟩ := not_forall.mp h
  obtain ⟨ht1, ht2⟩ := not_not.mp ht
  rw [TimeRange.fromPartitionTimestamp_eq ht1, TimeRange.fromPartitionTimestamp_eq ht2]

theorem calendar_exact_leap_day :
    daysFromCivil (civilFromDays 19782).1 (civilFromDays 19782).2.1
    (civilFromDays 19782).2.2 = 19782 ∧
      civilFromDays (daysFromCivil 2024 2 29) = (2024, 2, 29) ∧
      TimeRange.fromPartitionName (timestampToPartitionName 1709164800000) =
        .ok (TimeRange.fromPartitionTimestamp 1709164800000) ∧
      civilToUnixNs 2024 2 29 23 59 59 0 =
        some (clampI128 ((daysFromCivil 2024 2 29 * 86400 + 23 * 3600 + 59 * 60 + 59) *
          1000000000 + 0)) ∧
      civilToUnixNs 2023 2 29 0 0 0 0 = none :=
  ⟨(calendar_exact.1 19782).2, (calendar_exact.2.1 2024 2 29 (by decide)).1,
    (calendar_exact.2.2.1 1709164800000 (by decide) (by decide)).2.2.2,
    (calendar_exact.2.2.2 2024 2 29 23 59 59 0 (by decide) (by decide)).1 ⟨by decide, by decide⟩,
    (calendar_exact.2.2.2 2023 2 29 0 0 0 0 (by decide) (by decide)).2 (by decide)⟩

end Esmetrics.Calendar
