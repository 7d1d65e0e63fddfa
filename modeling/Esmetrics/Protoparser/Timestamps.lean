import Esmetrics.Lib.WrapI64
import Esmetrics.Protoparser.Influx

/-!
# Timestamps in milliseconds

Model of `adjust_timestamps` of `esm-protoparser/src/stream.rs` and of `TimeFormat::parse` of
`csvimport.rs`, which bring the timestamps of rows to milliseconds. A unit below a millisecond
divides and one above it multiplies, in `i64`. Nothing checks the product of `adjust_timestamps`,
and `TimeFormat::parse` checks it on one side only.

A timestamp is converted exactly if and only if it stays within the limits of its unit
(`adjustTimestamps_eq_iff`, `parse_unixSeconds_iff`); a timestamp of zero stands for a missing one,
for which the current time is filled in.
-/

namespace Esmetrics.Protoparser

/-! ### The timestamps of Influx rows -/

/-- A positive multiplier divides, a negative one multiplies, and zero is the unknown unit. -/
def getTimestampMultiplier (precision : Bytes) : ℤ :=
  if precision = ascii "ns" then 1000000
  else if precision = ascii "u" ∨ precision = ascii "us" ∨ precision = [0xC2, 0xB5] then 1000
  else if precision = ascii "ms" then 1
  else if precision = ascii "s" then -1000
  else if precision = ascii "m" then -1000 * 60
  else if precision = ascii "h" then -1000 * 3600
  else 0

/-- The unit is detected by the number of digits. -/
def detectTimestamp (ts currentTs : ℤ) : ℤ :=
  if ts = 0 then currentTs
  else if ts ≥ 100000000000000000 then ts.tdiv 1000000
  else if ts ≥ 100000000000000 then ts.tdiv 1000
  else if ts ≥ 100000000000 then ts
  else wrapI64 (ts * 1000)

variable {F : Type}

def adjustTimestamps (rows : List (Influx.Row F)) (tsMultiplier currentTs : ℤ) :
    List (Influx.Row F) :=
  if tsMultiplier = 0 then
    rows.map fun row => { row with timestamp := detectTimestamp row.timestamp currentTs }
  else if tsMultiplier ≥ 1 then
    rows.map fun row =>
      { row with timestamp := if row.timestamp = 0 then currentTs
        else row.timestamp.tdiv tsMultiplier }
  else
    let tsMultiplier := wrapI64 (-tsMultiplier)
    let currentTs := wrapI64 (currentTs - currentTs.tmod tsMultiplier)
    rows.map fun row =>
      { row with timestamp := if row.timestamp = 0 then currentTs else wrapI64 (row.timestamp *
        tsMultiplier) }

/-! ### The timestamps of CSV columns -/

inductive TimeFormat
  | unixSeconds
  | unixMillis
  | unixNanos
  | rfc3339
deriving DecidableEq

/-- The number at some positions, if there are digits only. -/
def rfc3339Digits (err : Message) (s : Bytes) (start stop : ℕ) : Except Message ℤ :=
  let part := (s.drop start).take (stop - start)
  if stop ≤ s.length ∧ part ≠ [] ∧ part.all isAsciiDigit then
    match strParseI64 part with
    | some n => .ok n
    | none => .error err
  else .error err

/-- The days since the epoch of a date. -/
def daysFromCivil (y m d : ℤ) : ℤ :=
  let y := if m ≤ 2 then y - 1 else y
  let era := (if y ≥ 0 then y else y - 399).tdiv 400
  let yoe := y - era * 400
  let mp := if m > 2 then m - 3 else m + 9
  let doy := (153 * mp + 2).tdiv 5 + d - 1
  let doe := yoe * 365 + yoe.tdiv 4 - yoe.tdiv 100 + doy
  era * 146097 + doe - 719468

/-- The digits after the point, as milliseconds, and what follows them. -/
def rfc3339Fraction (err : Message) (rest : Bytes) : Except Message (ℤ × Bytes) :=
  if rest.head? = some '.'.toUInt8 then
    let digits := rest.tail.takeWhile isAsciiDigit
    if digits = [] then .error err
    else
      .ok ((((digits ++ ascii "000").take 3).foldl (fun d b => d * 10 + digitValue b) 0 : ℕ),
        rest.tail.dropWhile isAsciiDigit)
  else .ok (0, rest)

/-- The offset of the time zone in seconds. -/
def rfc3339Offset (err : Message) (rest : Bytes) : Except Message ℤ :=
  if rest = ascii "Z" then .ok 0
  else
    let minus := rest.head? = some '-'.toUInt8
    if (minus ∨ rest.head? = some '+'.toUInt8) ∧ rest.length = 6 ∧
      rest[3]? = some ':'.toUInt8 then do
      let hours ← rfc3339Digits err rest 1 3
      let minutes ← rfc3339Digits err rest 4 6
      let total := hours * 3600 + minutes * 60
      .ok (if minus then -total else total)
    else .error err

/-- The years have four digits, so that nothing overflows. -/
def parseRfc3339 (s : Bytes) : Except Message ℤ := do
  let err : Message := [.text "cannot parse time in RFC3339 from ", .debug s]
  if s.length < 20 then throw err
  if ¬ (s[4]? = some '-'.toUInt8 ∧ s[7]? = some '-'.toUInt8 ∧ s[10]? = some 'T'.toUInt8 ∧
      s[13]? = some ':'.toUInt8 ∧ s[16]? = some ':'.toUInt8) then throw err
  let year ← rfc3339Digits err s 0 4
  let month ← rfc3339Digits err s 5 7
  let day ← rfc3339Digits err s 8 10
  let hour ← rfc3339Digits err s 11 13
  let minute ← rfc3339Digits err s 14 16
  let second ← rfc3339Digits err s 17 19
  let leap := year.tmod 4 = 0 ∧ (year.tmod 100 ≠ 0 ∨ year.tmod 400 = 0)
  let maxDay : ℤ := if month = 2 then 28 + (if leap then 1 else 0)
    else if month = 4 ∨ month = 6 ∨ month = 9 ∨ month = 11 then 30 else 31
  if ¬ (1 ≤ month ∧ month ≤ 12 ∧ 1 ≤ day ∧ day ≤ maxDay ∧ hour ≤ 23 ∧ minute ≤ 59 ∧
    second ≤ 59) then throw err
  let (fracMillis, rest) ← rfc3339Fraction err (s.drop 19)
  let offsetSecs ← rfc3339Offset err rest
  let secsOfDay := hour * 3600 + minute * 60 + second
  let unixSecs := daysFromCivil year month day * 86400 + secsOfDay - offsetSecs
  return unixSecs * 1000 + fracMillis

/-- `i64::MAX / 1000`. -/
def maxSeconds : ℤ := (2 ^ 63 - 1 : ℤ).tdiv 1000

def TimeFormat.parse (format : TimeFormat) (s : Bytes) : Except Message ℤ :=
  match format with
  | .rfc3339 => parseRfc3339 s
  | _ =>
    match strParseI64 s with
    | none => .error [.text "cannot parse timestamp from ", .debug s, .text ": ", .stdError]
    | some n =>
      match format with
      | .unixSeconds =>
        if n > maxSeconds then
          .error [.text "too big unix timestamp in seconds: ", .display (printInteger n),
            .text "; must be smaller than ", .display (printInteger maxSeconds)]
        else .ok (wrapI64 (n * 1000))
      | .unixMillis => .ok n
      | _ => .ok (n.tdiv 1000000)

example : parseRfc3339 (ascii "2009-11-10T23:00:00.5+01:30") = .ok 1257888600500 := by
  decide +kernel

/-! ### Exact conversions -/

inductive TimeUnit
  | nanoseconds
  | microseconds
  | milliseconds
  | seconds
  | minutes
  | hours
deriving DecidableEq

/-- The unit that a precision names. -/
def precisionUnit (precision : Bytes) : Option TimeUnit :=
  if precision = ascii "ns" then some .nanoseconds
  else if precision = ascii "u" ∨ precision = ascii "us" ∨
    precision = [0xC2, 0xB5] then some .microseconds
  else if precision = ascii "ms" then some .milliseconds
  else if precision = ascii "s" then some .seconds
  else if precision = ascii "m" then some .minutes
  else if precision = ascii "h" then some .hours
  else none

/-- The unit that goes by the magnitude of a timestamp. -/
def magnitudeUnit (ts : ℤ) : TimeUnit :=
  if ts ≥ 100000000000000000 then .nanoseconds
  else if ts ≥ 100000000000000 then .microseconds
  else if ts ≥ 100000000000 then .milliseconds
  else .seconds

/-- A time in milliseconds; what is less than one is cut off. -/
def TimeUnit.toMillis (ts : ℤ) : TimeUnit → ℤ
  | .nanoseconds => ts.tdiv (10 ^ 6)
  | .microseconds => ts.tdiv (10 ^ 3)
  | .milliseconds => ts
  | .seconds => ts * 1000
  | .minutes => ts * 60000
  | .hours => ts * 3600000

/-- The current time, cut off to a unit above a millisecond. -/
def TimeUnit.cutOff (currentTs : ℤ) : TimeUnit → ℤ
  | .seconds => currentTs - currentTs.tmod 1000
  | .minutes => currentTs - currentTs.tmod 60000
  | .hours => currentTs - currentTs.tmod 3600000
  | _ => currentTs

/-- The exact conversion of a timestamp; zero stands for a missing one. -/
def exactTimestamp (precision : Bytes) (currentTs ts : ℤ) : ℤ :=
  match precisionUnit precision with
  | some unit => if ts = 0 then unit.cutOff currentTs else unit.toMillis ts
  | none => if ts = 0 then currentTs else (magnitudeUnit ts).toMillis ts

/-- The timestamps whose milliseconds are within the range of `i64`. -/
def TimeUnit.InRange (ts : ℤ) : TimeUnit → Prop
  | .seconds => -9223372036854775 ≤ ts ∧ ts ≤ 9223372036854775
  | .minutes => -153722867280912 ≤ ts ∧ ts ≤ 153722867280912
  | .hours => -2562047788015 ≤ ts ∧ ts ≤ 2562047788015
  | _ => True

/-- The timestamps that are converted within the range of `i64`. -/
def TimestampInRange (precision : Bytes) (ts : ℤ) : Prop :=
  ((precisionUnit precision).getD (magnitudeUnit ts)).InRange ts

/-! ### What is converted exactly -/

/-- What is cut off to a multiple stays in range. -/
theorem isI64_sub_tmod {c : ℤ} (h : IsI64 c) (m : ℤ) : IsI64 (c - c.tmod m) := by
  obtain ⟨hle, hlt⟩ := h
  obtain hc | hc := Int.le_total 0 c
  · have hnonneg := Int.tmod_nonneg m hc
    have habs : (c.tmod m).natAbs ≤ c.natAbs := by
      rw [Int.natAbs_tmod]
      exact Nat.mod_le _ _
    exact ⟨by omega, by omega⟩
  · have hnonneg := Int.tmod_nonneg m (Int.neg_nonneg_of_nonpos hc)
    rw [Int.neg_tmod] at hnonneg
    have habs : (c.tmod m).natAbs ≤ c.natAbs := by
      rw [Int.natAbs_tmod]
      exact Nat.mod_le _ _
    exact ⟨by omega, by omega⟩

variable {m currentTs ts : ℤ}

/-- A unit above a millisecond multiplies. -/
theorem adjustTimestamps_multiply (hm : 1 ≤ m) (hm' : IsI64 m) (rows : List (Influx.Row F))
    (hcurrent : IsI64 currentTs) :
    adjustTimestamps rows (-m) currentTs =
      rows.map fun row => { row with
        timestamp := if row.timestamp = 0 then currentTs - currentTs.tmod m
          else wrapI64 (row.timestamp * m) } := by
  rw [adjustTimestamps, if_neg (by omega), if_neg (by omega)]
  dsimp only
  rw [neg_neg, wrapI64_of_isI64 hm', wrapI64_of_isI64 (isI64_sub_tmod hcurrent m)]

/-- A unit below a millisecond divides. -/
theorem adjustTimestamps_divide (hm : 1 ≤ m) (rows : List (Influx.Row F)) (currentTs : ℤ) :
    adjustTimestamps rows m currentTs =
      rows.map fun row => { row with
        timestamp := if row.timestamp = 0 then currentTs else row.timestamp.tdiv m } := by
  rw [adjustTimestamps, if_neg (by omega), if_pos hm]

/-- The conversion of one timestamp. -/
def adjustTimestamp (unit : Option TimeUnit) (currentTs ts : ℤ) : ℤ :=
  match unit with
  | none => detectTimestamp ts currentTs
  | some unit => if ts = 0 then unit.cutOff currentTs else wrapI64 (unit.toMillis ts)

theorem isI64_tdiv {n : ℤ} (h : IsI64 n) (hm : 1 ≤ m) : IsI64 (n.tdiv m) := by
  have habs : (n.tdiv m).natAbs ≤ n.natAbs := by
    rw [Int.natAbs_tdiv]
    exact Nat.div_le_self _ _
  obtain ⟨hle, hlt⟩ := h
  obtain hn | hn := Int.le_total 0 n
  · have hnonneg := Int.tdiv_nonneg hn (by omega : 0 ≤ m)
    exact ⟨by omega, by omega⟩
  · have hnonneg := Int.tdiv_nonneg (Int.neg_nonneg_of_nonpos hn) (by omega : 0 ≤ m)
    rw [Int.neg_tdiv] at hnonneg
    exact ⟨by omega, by omega⟩

/-- The rows are converted one by one. -/
theorem adjustTimestamps_eq (precision : Bytes) {rows : List (Influx.Row F)}
    (hrows : ∀ row ∈ rows, IsI64 row.timestamp) (hcurrent : IsI64 currentTs) :
    adjustTimestamps rows (getTimestampMultiplier precision) currentTs =
      rows.map fun row => { row with
        timestamp := adjustTimestamp (precisionUnit precision) currentTs row.timestamp } := by
  have hdivide : ∀ m : ℤ, 1 ≤ m → ∀ unit : TimeUnit, (∀ ts, unit.toMillis ts = ts.tdiv m) →
      unit.cutOff currentTs = currentTs →
      adjustTimestamps rows m currentTs =
        rows.map fun row =>
        { row with timestamp := adjustTimestamp (some unit) currentTs row.timestamp } := by
    intro m hm unit hmillis hcut
    rw [adjustTimestamps_divide hm]
    refine List.map_congr_left fun row hrow => ?_
    rw [adjustTimestamp, hcut, hmillis, wrapI64_of_isI64 (isI64_tdiv (hrows row hrow) hm)]
  have hmultiply : ∀ m : ℤ, 1 ≤ m → IsI64 m → ∀ unit : TimeUnit, (∀ ts, unit.toMillis ts = ts * m) →
      unit.cutOff currentTs = currentTs - currentTs.tmod m →
      adjustTimestamps rows (-m) currentTs =
        rows.map fun row =>
        { row with timestamp := adjustTimestamp (some unit) currentTs row.timestamp } := by
    intro m hm hm' unit hmillis hcut
    rw [adjustTimestamps_multiply hm hm' rows hcurrent]
    refine List.map_congr_left fun row _ => ?_
    rw [adjustTimestamp, hcut, hmillis]
  rw [getTimestampMultiplier, precisionUnit]
  split_ifs
  · exact hdivide 1000000 (by decide) .nanoseconds (fun _ => rfl) rfl
  · exact hdivide 1000 (by decide) .microseconds (fun _ => rfl) rfl
  · exact hdivide 1 (by decide) .milliseconds (fun ts => (Int.tdiv_one ts).symm) rfl
  · exact hmultiply 1000 (by decide) (by decide) .seconds (fun _ => rfl) rfl
  · exact hmultiply 60000 (by decide) (by decide) .minutes (fun _ => rfl) rfl
  · exact hmultiply 3600000 (by decide) (by decide) .hours (fun _ => rfl) rfl
  · rw [adjustTimestamps, if_pos rfl]
    rfl

/-- What fits is within the limits of the unit. -/
theorem isI64_toMillis_iff (h : IsI64 ts) (unit : TimeUnit) : IsI64 (unit.toMillis ts) ↔
    unit.InRange ts := by
  cases unit with
  | nanoseconds => exact iff_of_true (isI64_tdiv h (by decide)) trivial
  | microseconds => exact iff_of_true (isI64_tdiv h (by decide)) trivial
  | milliseconds => exact iff_of_true h trivial
  | seconds =>
    rw [IsI64, TimeUnit.toMillis, TimeUnit.InRange]
    omega
  | minutes =>
    rw [IsI64, TimeUnit.toMillis, TimeUnit.InRange]
    omega
  | hours =>
    rw [IsI64, TimeUnit.toMillis, TimeUnit.InRange]
    omega

theorem detectTimestamp_eq (h : IsI64 ts) (hne : ts ≠ 0) (currentTs : ℤ) :
    detectTimestamp ts currentTs = wrapI64 ((magnitudeUnit ts).toMillis ts) := by
  rw [detectTimestamp, if_neg hne, magnitudeUnit]
  split_ifs
  · exact (wrapI64_of_isI64 (isI64_tdiv (m := 1000000) h (by decide))).symm
  · exact (wrapI64_of_isI64 (isI64_tdiv (m := 1000) h (by decide))).symm
  · exact (wrapI64_of_isI64 h).symm
  · rfl

/-- A timestamp is converted exactly if and only if it is missing or within the limits of its
unit. -/
theorem adjustTimestamp_eq_iff (precision : Bytes) (currentTs : ℤ) (h : IsI64 ts) :
    adjustTimestamp (precisionUnit precision) currentTs ts = exactTimestamp precision currentTs ts ↔
      TimestampInRange precision ts := by
  rw [exactTimestamp, TimestampInRange]
  by_cases hzero : ts = 0
  · subst hzero
    have hrange : ∀ unit : TimeUnit, unit.InRange 0 := by
      intro unit
      cases unit <;> simp [TimeUnit.InRange]
    cases precisionUnit precision with
    | none => exact iff_of_true rfl (hrange _)
    | some unit => exact iff_of_true rfl (hrange _)
  · cases precisionUnit precision with
    | none =>
      dsimp only
      rw [adjustTimestamp, detectTimestamp_eq h hzero, if_neg hzero, wrapI64_eq_self_iff,
        isI64_toMillis_iff h]
      rfl
    | some unit =>
      dsimp only
      rw [adjustTimestamp, if_neg hzero, if_neg hzero, wrapI64_eq_self_iff, isI64_toMillis_iff h]
      rfl

/-- **Timestamps are converted exactly if and only if they are within the limits of their unit.** -/
theorem adjustTimestamps_eq_iff (precision : Bytes) {rows : List (Influx.Row F)}
    (hrows : ∀ row ∈ rows, IsI64 row.timestamp) (hcurrent : IsI64 currentTs) :
    (adjustTimestamps rows (getTimestampMultiplier precision) currentTs =
        rows.map fun row =>
        { row with timestamp := exactTimestamp precision currentTs row.timestamp }) ↔
      ∀ row ∈ rows, TimestampInRange precision row.timestamp := by
  rw [adjustTimestamps_eq precision hrows hcurrent, List.map_inj_left]
  refine forall₂_congr fun row hrow => ?_
  rw [Influx.Row.mk.injEq, eq_self_iff_true, true_and, eq_self_iff_true, true_and,
    eq_self_iff_true, true_and]
  exact adjustTimestamp_eq_iff precision currentTs (hrows row hrow)

/-- **Seconds are converted exactly, or rejected, if and only if they are not below the range**:
those above it are rejected. -/
theorem parse_unixSeconds_iff (s : Bytes) :
    (∀ v, TimeFormat.unixSeconds.parse s = .ok v → ∃ n, strParseI64 s = some n ∧ v = n * 1000) ↔
      ∀ n, strParseI64 s = some n → -9223372036854775 ≤ n := by
  have hmax : maxSeconds = 9223372036854775 := rfl
  rw [TimeFormat.parse.eq_def]
  dsimp only
  cases hparse : strParseI64 s with
  | none => exact iff_of_true (fun v h => absurd h (by simp)) fun n h => absurd h (by simp)
  | some n =>
    dsimp only
    constructor
    · rintro h m hm
      obtain rfl := Option.some.inj hm
      by_contra hlow
      rw [if_neg (by rw [hmax]; omega)] at h
      obtain ⟨m, hm, heq⟩ := h _ rfl
      obtain rfl := Option.some.inj hm
      have hfits := (wrapI64_eq_self_iff.mp heq).1
      omega
    · intro h v hv
      have hlow := h n rfl
      split_ifs at hv with hbig
      rw [hmax] at hbig
      have hfits : IsI64 (n * 1000) := ⟨by omega, by omega⟩
      rw [← Except.ok.inj hv, wrapI64_of_isI64 hfits]
      exact ⟨n, rfl, rfl⟩

/-- **Which timestamps are converted exactly**: those that are missing or within the limits of their
unit, and of the seconds of CSV columns those that are not below the range. -/
theorem timestamps_exact_iff (precision : Bytes) (rows : List (Influx.Row F)) (currentTs : ℤ)
    (hrows : ∀ row ∈ rows, IsI64 row.timestamp) (hcurrent : IsI64 currentTs) :
    ((adjustTimestamps rows (getTimestampMultiplier precision) currentTs =
        rows.map fun row =>
        { row with timestamp := exactTimestamp precision currentTs row.timestamp }) ↔
      ∀ row ∈ rows, TimestampInRange precision row.timestamp) ∧
    ∀ s : Bytes,
      (∀ v, TimeFormat.unixSeconds.parse s = .ok v → ∃ n, strParseI64 s = some n ∧ v = n * 1000) ↔
        ∀ n, strParseI64 s = some n → -9223372036854775 ≤ n :=
  ⟨adjustTimestamps_eq_iff precision hrows hcurrent, parse_unixSeconds_iff⟩

theorem timestamps_exact_iff_seconds :
    (adjustTimestamps [(⟨ascii "m", [], [⟨ascii "f", ()⟩], 1700000000⟩ : Influx.Row Unit)]
        (getTimestampMultiplier (ascii "s")) 0 =
      [⟨ascii "m", [], [⟨ascii "f", ()⟩], 1700000000000⟩]) ↔
    ∀ row ∈ [(⟨ascii "m", [], [⟨ascii "f", ()⟩], 1700000000⟩ : Influx.Row Unit)],
      TimestampInRange (ascii "s") row.timestamp :=
  (timestamps_exact_iff (ascii "s") [⟨ascii "m", [], [⟨ascii "f", ()⟩], 1700000000⟩] 0 (by decide)
    (by decide)).1

/-- A time in the far future comes out as one in the year 2023, and one of a CSV column in the far
past too. -/
theorem timestamps_wrap :
    adjustTimestamps [(⟨ascii "m", [], [⟨ascii "f", ()⟩], 2305843010913693952⟩ : Influx.Row Unit)]
        (getTimestampMultiplier (ascii "s")) 0 =
      [⟨ascii "m", [], [⟨ascii "f", ()⟩], 1700000000000⟩] ∧
    exactTimestamp (ascii "s") 0 2305843010913693952 = 2305843010913693952000 ∧
    TimeFormat.unixSeconds.parse (ascii "-2305843007513693952") = .ok 1700000000000 := by
  decide +kernel

end Esmetrics.Protoparser
