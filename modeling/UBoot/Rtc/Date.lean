import UBoot.Lib.Memory
import UBoot.Lib.Spans

/-!
# Dates

`to_tm` and `mktime` of `drivers/rtc/date.c` convert between the seconds since 1970-01-01 and the
date and time.  `to_tm` takes off years and months in two loops, with a leap year every four years;
`mktime` has a closed formula for years that begin in March.  Up to the largest `int` they agree
with the Gregorian calendar, and with each other.
-/

namespace Rtc

/-! ### The functions -/

/-- `struct rtc_time`; `tm_yday` and `tm_isdst` are not used. -/
@[ext]
structure RtcTime where
  tmSec : ℕ
  tmMin : ℕ
  tmHour : ℕ
  tmMday : ℕ
  tmMon : ℕ
  tmYear : ℕ
  tmWday : ℕ
deriving DecidableEq

def february : ℕ := 2

/-- `STARTOFTIME`. -/
def startOfTime : ℕ := 1970

/-- `SECDAY`. -/
def secDay : ℕ := 86400

/-- `leapyear`. -/
def Leapyear (year : ℕ) : Prop := year % 4 = 0

instance (year : ℕ) : Decidable (Leapyear year) :=
  inferInstanceAs (Decidable (_ = _))

def daysInYear (a : ℕ) : ℕ := if Leapyear a then 366 else 365

/-- What `month_days` is before and after every call. -/
def monthDays : List ℕ := [31, 28, 31, 30, 31, 30, 31, 31, 30, 31, 30, 31]

/-- `MonthOffset`. -/
def monthOffset : List ℕ := [0, 31, 59, 90, 120, 151, 181, 212, 243, 273, 304, 334]

/-- `GregorianDay`; `none` where it would leave its table. -/
def gregorianDay (tm : RtcTime) : Option RtcTime :=
  let lastYear := tm.tmYear - 1
  let leapsToDate := lastYear / 4 - lastYear / 100 + lastYear / 400
  let day :=
    if tm.tmYear % 4 = 0 ∧ (tm.tmYear % 100 ≠ 0 ∨ tm.tmYear % 400 = 0) ∧ tm.tmMon > 2 then 1
    else 0
  monthOffset[tm.tmMon - 1]?.map fun offset =>
    { tm with tmWday := (day + (lastYear * 365 + leapsToDate + offset + tm.tmMday)) % 7 }

/-- The loop over the years; a year takes off at least one day. -/
def yearLoop : ℕ → ℕ → ℕ → ℕ × ℕ
  | 0, i, day => (i, day)
  | fuel + 1, i, day =>
    if day ≥ daysInYear i then yearLoop fuel (i + 1) (day - daysInYear i) else (i, day)

/-- The loop over the months of the table from the month `i` on; `none` where it would leave the
table. -/
def monthLoop : List ℕ → ℕ → ℕ → Option (ℕ × ℕ)
  | [], _, _ => none
  | days :: table, i, day =>
    if day ≥ days then monthLoop table (i + 1) (day - days) else some (i, day)

/-- `to_tm` for a number of seconds that is not negative: the time, and the table `month_days` that
it leaves. -/
def toTm (table : List ℕ) (tim : ℕ) : Option (RtcTime × List ℕ) := do
  let hms := tim % secDay
  let (year, day) := yearLoop (tim / secDay) startOfTime (tim / secDay)
  let table := if Leapyear year then table.set (february - 1) 29 else table
  let (mon, day) ← monthLoop table 1 day
  let tm ← gregorianDay
    { tmSec := hms % 3600 % 60
      tmMin := hms % 3600 / 60
      tmHour := hms / 3600
      tmMday := day + 1
      tmMon := mon
      tmYear := year
      tmWday := 0 }
  return (tm, table.set (february - 1) 28)

/-- `mktime`. -/
def mktime (year mon day hour min sec : Word) : Word :=
  let mon := mon - 2
  let year' := if mon.toInt ≤ 0 then year - 1 else year
  let mon' := if mon.toInt ≤ 0 then mon + 12 else mon
  (((year' / 4 - year' / 100 + year' / 400 + 367 * mon' / 12 + day + year' * 365 - 719499) * 24
    + hour) * 60 + min) * 60 + sec

namespace RtcTime

/-- `mktime` of a date and time. -/
def seconds (tm : RtcTime) : Word :=
  mktime (BitVec.ofNat 32 tm.tmYear) (BitVec.ofNat 32 tm.tmMon) (BitVec.ofNat 32 tm.tmMday)
    (BitVec.ofNat 32 tm.tmHour) (BitVec.ofNat 32 tm.tmMin) (BitVec.ofNat 32 tm.tmSec)

end RtcTime

/-! ### The Gregorian calendar -/

/-- A leap year of the Gregorian calendar. -/
def IsLeap (year : ℕ) : Prop := year % 4 = 0 ∧ (year % 100 ≠ 0 ∨ year % 400 = 0)

instance (year : ℕ) : Decidable (IsLeap year) :=
  inferInstanceAs (Decidable (_ ∧ _))

def yearLength (year : ℕ) : ℕ := if IsLeap year then 366 else 365

/-- How many days the month has, counted from 0 for January. -/
def monthLength (year k : ℕ) : ℕ :=
  if k = 1 then if IsLeap year then 29 else 28
  else if k = 3 ∨ k = 5 ∨ k = 8 ∨ k = 10 then 30
  else 31

/-- The days from 1970-01-01 to a date. -/
def dayNumber (year mon mday : ℕ) : ℕ :=
  Spans.start (fun k => yearLength (1970 + k)) (year - 1970)
    + (Spans.start (monthLength year) (mon - 1) + (mday - 1))

namespace RtcTime

/-- A date of the Gregorian calendar from 1970 on, and a time of the day. -/
structure Valid (tm : RtcTime) : Prop where
  year : 1970 ≤ tm.tmYear
  mon_pos : 1 ≤ tm.tmMon
  mon_le : tm.tmMon ≤ 12
  mday_pos : 1 ≤ tm.tmMday
  mday_le : tm.tmMday ≤ monthLength tm.tmYear (tm.tmMon - 1)
  hour : tm.tmHour < 24
  min : tm.tmMin < 60
  sec : tm.tmSec < 60

/-- The day comes before the other one, or the day is the same and the time comes before. -/
def Before (a b : RtcTime) : Prop :=
  a.tmYear < b.tmYear ∨ a.tmYear = b.tmYear ∧ (a.tmMon < b.tmMon ∨ a.tmMon = b.tmMon
    ∧ (a.tmMday < b.tmMday ∨ a.tmMday = b.tmMday ∧ (a.tmHour < b.tmHour ∨ a.tmHour = b.tmHour
      ∧ (a.tmMin < b.tmMin ∨ a.tmMin = b.tmMin ∧ a.tmSec < b.tmSec))))

instance (a b : RtcTime) : Decidable (a.Before b) :=
  inferInstanceAs (Decidable (_ ∨ _))

/-- The last second below `2 ^ 31`. -/
def last : RtcTime where
  tmSec := 7
  tmMin := 14
  tmHour := 3
  tmMday := 19
  tmMon := 1
  tmYear := 2038
  tmWday := 2

/-- A valid date and time up to the last second below `2 ^ 31`. -/
structure InRange (tm : RtcTime) : Prop where
  valid : tm.Valid
  not_after : ¬ last.Before tm

/-- The seconds since 1970-01-01 00:00:00. -/
def count (tm : RtcTime) : ℕ :=
  dayNumber tm.tmYear tm.tmMon tm.tmMday * 86400 + ((tm.tmHour * 60 + tm.tmMin) * 60 + tm.tmSec)

end RtcTime

/-! ### The lengths of years and months -/

theorem leapyear_iff {year : ℕ} (h : 1970 ≤ year) (h' : year < 2100) :
  Leapyear year ↔ IsLeap year
  := by
  rw [Leapyear, IsLeap]
  omega

/-- The days before a year, with a leap year every four years. -/
theorem start_yearLength {k : ℕ} (h : k ≤ 130) :
  Spans.start (fun k => yearLength (1970 + k)) k = 365 * k + (k + 1) / 4
  := by
  induction k with
  | zero => rfl
  | succ k ih =>
    rw [Spans.start_succ, ih (by omega), yearLength]
    by_cases hleap : IsLeap (1970 + k)
    · rw [if_pos hleap]
      rw [IsLeap] at hleap
      omega
    · rw [if_neg hleap]
      rw [IsLeap] at hleap
      omega

theorem daysInYear_eq {year : ℕ} (h : 1970 ≤ year) (h' : year < 2100) :
  daysInYear year = yearLength year
  := by
  rw [daysInYear, yearLength]
  apply if_congr (leapyear_iff h h') rfl rfl

/-- The days before a month. -/
theorem start_monthLength (year : ℕ) {k : ℕ} (h : k < 12) :
  Spans.start (monthLength year) k
    = monthOffset.getD k 0 + if IsLeap year ∧ 2 ≤ k then 1 else 0
  := by
  by_cases hleap : IsLeap year
  · interval_cases k <;>
      simp [Spans.start, Finset.sum_range_succ, monthLength, monthOffset, hleap]
  · interval_cases k <;>
      simp [Spans.start, Finset.sum_range_succ, monthLength, monthOffset, hleap]

/-- The months make up the year. -/
theorem start_monthLength_twelve (year : ℕ) :
  Spans.start (monthLength year) 12 = yearLength year
  := by
  by_cases hleap : IsLeap year
  · simp [Spans.start, Finset.sum_range_succ, monthLength, yearLength, hleap]
  · simp [Spans.start, Finset.sum_range_succ, monthLength, yearLength, hleap]

/-! ### The order of dates -/

namespace RtcTime

variable {a b tm : RtcTime}

/-- A day lies in its year. -/
theorem Valid.day_lt (h : tm.Valid) :
  Spans.start (monthLength tm.tmYear) (tm.tmMon - 1) + (tm.tmMday - 1)
    < yearLength (1970 + (tm.tmYear - 1970))
  := by
  have hyear := h.year
  have hmon := h.mon_le
  have hpos := h.mon_pos
  have hmday := h.mday_le
  have hmday' := h.mday_pos
  rw [Nat.add_sub_cancel' hyear, ← start_monthLength_twelve]
  exact Spans.lt_start (by omega) (by omega)

theorem Valid.time_lt (h : tm.Valid) :
  (tm.tmHour * 60 + tm.tmMin) * 60 + tm.tmSec < 86400
  := by
  have hhour := h.hour
  have hmin := h.min
  have hsec := h.sec
  omega

/-- What comes before has the smaller count. -/
theorem count_lt (ha : a.Valid) (h : a.Before b) :
  a.count < b.count
  := by
  have hta := ha.time_lt
  have hday : dayNumber a.tmYear a.tmMon a.tmMday < dayNumber b.tmYear b.tmMon b.tmMday
      → a.count < b.count := by
    intro hlt
    rw [count, count]
    omega
  rcases h with hyear | ⟨hyear, hmon | ⟨hmon, hmday | ⟨hmday, htime⟩⟩⟩
  · apply hday
    have hlt := Spans.lt_start (w := fun k => yearLength (1970 + k))
      (Nat.sub_lt_sub_right ha.year hyear) ha.day_lt
    rw [dayNumber, dayNumber]
    omega
  · apply hday
    have hpos := ha.mon_pos
    have hmday := ha.mday_le
    have hmday' := ha.mday_pos
    have hlt := Spans.lt_start (w := monthLength a.tmYear) (Nat.sub_lt_sub_right hpos hmon)
      (show a.tmMday - 1 < _ by omega)
    rw [dayNumber, dayNumber, ← hyear]
    omega
  · apply hday
    have hpos := ha.mday_pos
    rw [dayNumber, dayNumber, ← hyear, ← hmon]
    omega
  · have hmin := ha.min
    have hsec := ha.sec
    rw [count, count, ← hyear, ← hmon, ← hmday]
    omega

/-- Where neither comes before the other one, only the weekdays may differ. -/
theorem eq_of_not_before (hab : ¬ a.Before b) (hba : ¬ b.Before a) :
  a = { b with tmWday := a.tmWday }
  := by
  rw [Before] at hab hba
  ext
  · show a.tmSec = b.tmSec
    omega
  · show a.tmMin = b.tmMin
    omega
  · show a.tmHour = b.tmHour
    omega
  · show a.tmMday = b.tmMday
    omega
  · show a.tmMon = b.tmMon
    omega
  · show a.tmYear = b.tmYear
    omega
  · rfl

theorem eq_of_count_eq (ha : a.Valid) (hb : b.Valid) (h : a.count = b.count) :
  a = { b with tmWday := a.tmWday }
  := by
  apply eq_of_not_before
  · intro hlt
    exact Nat.ne_of_lt (count_lt ha hlt) h
  · intro hlt
    exact Nat.ne_of_gt (count_lt hb hlt) h

theorem valid_last :
  last.Valid
  := ⟨by decide, by decide, by decide, by decide, by decide, by decide, by decide, by decide⟩

theorem count_last :
  last.count = 2 ^ 31 - 1
  := by
  rw [count, dayNumber, start_yearLength (by decide), start_monthLength _ (by decide)]
  rfl

theorem inRange_of_count_lt (h : tm.Valid) (hlt : tm.count < 2 ^ 31) :
  tm.InRange
  := by
  refine ⟨h, ?_⟩
  intro hbefore
  have := RtcTime.count_lt valid_last hbefore
  rw [count_last] at this
  omega

theorem InRange.count_lt (h : tm.InRange) :
  tm.count < 2 ^ 31
  := by
  by_cases hbefore : tm.Before last
  · have := RtcTime.count_lt h.valid hbefore
    rw [count_last] at this
    omega
  · rw [eq_of_not_before hbefore h.not_after]
    show last.count < _
    rw [count_last]
    decide

theorem InRange.year_le (h : tm.InRange) :
  tm.tmYear ≤ 2038
  := by
  by_contra hlt
  apply h.not_after
  left
  show 2038 < tm.tmYear
  omega

end RtcTime

/-! ### Seconds from a date -/

theorem ofNat_div {a b : ℕ} (ha : a < 2 ^ 32) (hb : b < 2 ^ 32) :
  BitVec.ofNat 32 (a / b) = BitVec.ofNat 32 a / BitVec.ofNat 32 b
  := by
  apply BitVec.eq_of_toNat_eq
  rw [BitVec.toNat_udiv, BitVec.toNat_ofNat, BitVec.toNat_ofNat, BitVec.toNat_ofNat,
    Nat.mod_eq_of_lt ha, Nat.mod_eq_of_lt hb,
    Nat.mod_eq_of_lt (Nat.lt_of_le_of_lt (Nat.div_le_self a b) ha)]

/-- The formula of `mktime`, for a year that begins in March and a month of it. -/
def marchDays (year mon mday : ℕ) : ℕ :=
  year / 4 - year / 100 + year / 400 + 367 * mon / 12 + mday + year * 365 - 719499

theorem ofNat_marchDays {year mon mday : ℕ} (hyear : 1970 ≤ year ∨ year = 1969 ∧ 11 ≤ mon)
    (hyear' : year < 2 ^ 32) (hmon' : mon ≤ 12) (hmday : 1 ≤ mday) :
  BitVec.ofNat 32 (marchDays year mon mday)
    = BitVec.ofNat 32 year / 4 - BitVec.ofNat 32 year / 100 + BitVec.ofNat 32 year / 400
      + 367 * BitVec.ofNat 32 mon / 12 + BitVec.ofNat 32 mday + BitVec.ofNat 32 year * 365 - 719499
  := by
  have hdiv : ∀ b : ℕ, b < 2 ^ 32 →
      BitVec.ofNat 32 (year / b) = BitVec.ofNat 32 year / BitVec.ofNat 32 b :=
    fun b hb => ofNat_div hyear' hb
  have hcentury : BitVec.ofNat 32 (year / 4 - year / 100)
      = BitVec.ofNat 32 (year / 4) - BitVec.ofNat 32 (year / 100) :=
    (BitVec.ofNat_sub_ofNat_of_le (year / 4) (year / 100) (by omega) (by omega)).symm
  have hepoch : BitVec.ofNat 32 (marchDays year mon mday)
      = BitVec.ofNat 32 (year / 4 - year / 100 + year / 400 + 367 * mon / 12 + mday + year * 365)
        - BitVec.ofNat 32 719499 :=
    (BitVec.ofNat_sub_ofNat_of_le _ 719499 (by decide) (by omega)).symm
  rw [hepoch, BitVec.ofNat_add, BitVec.ofNat_add, BitVec.ofNat_add, BitVec.ofNat_add, hcentury,
    hdiv 4 (by decide), hdiv 100 (by decide), hdiv 400 (by decide),
    ofNat_div (by omega) (by decide), BitVec.ofNat_mul, BitVec.ofNat_mul]
  simp only [BitVec.ofNat_eq_ofNat]

/-- A closed formula for the table. -/
theorem monthOffset_eq {k : ℕ} (h : k < 12) :
  monthOffset.getD k 0 = (367 * (k + 1) - 362) / 12 - if 2 ≤ k then 2 else 0
  := by
  interval_cases k <;> rfl

/-- The two ways to count the days of a date. -/
theorem dayNumber_eq {year mon mday : ℕ} (hyear : 1970 ≤ year) (hyear' : year < 2100)
    (hmon : 1 ≤ mon) (hmon' : mon ≤ 12) (hmday : 1 ≤ mday) :
  dayNumber year mon mday
    = if mon ≤ 2 then marchDays (year - 1) (mon + 10) mday else marchDays year (mon - 2) mday
  := by
  have hdays := start_yearLength (show year - 1970 ≤ 130 by omega)
  have hmonths := start_monthLength year (show mon - 1 < 12 by omega)
  simp only [← leapyear_iff hyear hyear', Leapyear, monthOffset_eq (show mon - 1 < 12 by omega)]
    at hmonths
  unfold dayNumber marchDays
  rw [hdays, hmonths]
  split_ifs <;> omega

/-- Days, hours, minutes and seconds are put together as in `mktime`. -/
theorem ofNat_seconds (days hour min sec : ℕ) :
  BitVec.ofNat 32 (days * 86400 + ((hour * 60 + min) * 60 + sec))
    = ((BitVec.ofNat 32 days * 24 + BitVec.ofNat 32 hour) * 60 + BitVec.ofNat 32 min) * 60
      + BitVec.ofNat 32 sec
  := by
  have heq : days * 86400 + ((hour * 60 + min) * 60 + sec)
      = ((days * 24 + hour) * 60 + min) * 60 + sec := by ring
  rw [heq, BitVec.ofNat_add, BitVec.ofNat_mul, BitVec.ofNat_add, BitVec.ofNat_mul, BitVec.ofNat_add,
    BitVec.ofNat_mul]
  rfl

/-- `mktime` counts the seconds of a date. -/
theorem RtcTime.InRange.toNat_seconds {tm : RtcTime} (h : tm.InRange) :
  tm.seconds.toNat = tm.count
  := by
  have hyear := h.valid.year
  have hyear' := h.year_le
  have hmon := h.valid.mon_pos
  have hmon' := h.valid.mon_le
  have hmday := h.valid.mday_pos
  have hsign : (BitVec.ofNat 32 tm.tmMon - 2).toInt ≤ 0 ↔ tm.tmMon ≤ 2 := by
    generalize tm.tmMon = mon at hmon hmon'
    interval_cases mon <;> decide
  have hcount : tm.seconds = BitVec.ofNat 32 tm.count := by
    rw [RtcTime.seconds, RtcTime.count, dayNumber_eq hyear (by omega) hmon hmon' hmday, mktime]
    by_cases hle : tm.tmMon ≤ 2
    · have hlast : BitVec.ofNat 32 tm.tmYear - 1 = BitVec.ofNat 32 (tm.tmYear - 1) :=
        BitVec.ofNat_sub_ofNat_of_le tm.tmYear 1 (by decide) (by omega)
      have hmarch : BitVec.ofNat 32 tm.tmMon - 2 + 12 = BitVec.ofNat 32 (tm.tmMon + 10) := by
        generalize tm.tmMon = mon at hmon hle
        interval_cases mon <;> rfl
      simp only [hsign, if_pos hle, hlast, hmarch]
      rw [← ofNat_marchDays (by omega) (by omega) (by omega) hmday, ofNat_seconds]
    · have hmarch : BitVec.ofNat 32 tm.tmMon - 2 = BitVec.ofNat 32 (tm.tmMon - 2) :=
        BitVec.ofNat_sub_ofNat_of_le tm.tmMon 2 (by decide) (by omega)
      rw [hmarch] at hsign
      simp only [hmarch, hsign, if_neg hle]
      rw [← ofNat_marchDays (by omega) (by omega) (by omega) hmday, ofNat_seconds]
  rw [hcount, BitVec.toNat_ofNat, Nat.mod_eq_of_lt (Nat.lt_trans h.count_lt (by decide))]

/-! ### The date from seconds -/

/-- The loop over the years finds the year in which the day lies. -/
theorem yearLoop_spec {fuel day : ℕ} (k : ℕ) (h : day ≤ fuel) :
  ∃ k' r, yearLoop fuel (1970 + k) day = (1970 + k', r) ∧ r < daysInYear (1970 + k')
    ∧ Spans.start (fun k => daysInYear (1970 + k)) k' + r
      = Spans.start (fun k => daysInYear (1970 + k)) k + day
  := by
  have hpos : ∀ a, 0 < daysInYear a := by
    intro a
    rw [daysInYear]
    split <;> decide
  induction fuel generalizing k day with
  | zero =>
    obtain rfl : day = 0 := by omega
    exact ⟨k, 0, rfl, hpos _, rfl⟩
  | succ fuel ih =>
    rw [yearLoop]
    split
    case isTrue hge =>
      have hday := hpos (1970 + k)
      have hle : day - daysInYear (1970 + k) ≤ fuel := by omega
      obtain ⟨k', r, hloop, hr, hstart⟩ := ih (k + 1) hle
      refine ⟨k', r, hloop, hr, ?_⟩
      rw [hstart, Spans.start_succ]
      omega
    case isFalse hlt => exact ⟨k, day, rfl, by omega, rfl⟩

/-- The loop over the months finds the month in which the day lies, if there is one. -/
theorem monthLoop_spec {v : ℕ → ℕ} {table : List ℕ} {k day : ℕ}
    (h : ∀ j, ∀ hj : j < table.length, table[j] = v (k + j))
    (hday : Spans.start v k + day < Spans.start v (k + table.length)) :
  ∃ k' r, k' < k + table.length ∧ monthLoop table (k + 1) day = some (k' + 1, r) ∧ r < v k'
    ∧ Spans.start v k' + r = Spans.start v k + day
  := by
  induction table generalizing k day with
  | nil => exact absurd hday (by rw [List.length_nil, Nat.add_zero]; omega)
  | cons days table ih =>
    obtain rfl : days = v k := h 0 (Nat.succ_pos _)
    rw [List.length_cons] at hday ⊢
    rw [monthLoop]
    split
    case isTrue hge =>
      have htable : ∀ j, ∀ hj : j < table.length, table[j] = v (k + 1 + j) := by
        intro j hj
        rw [Nat.add_assoc, Nat.add_comm 1 j]
        exact h (j + 1) (Nat.succ_lt_succ hj)
      rw [Nat.add_comm table.length 1, ← Nat.add_assoc] at hday ⊢
      have hrest : Spans.start v (k + 1) + (day - v k)
          < Spans.start v (k + 1 + table.length) := by
        rw [Spans.start_succ]
        omega
      obtain ⟨k', r, hk', hloop, hr, hstart⟩ := ih htable hrest
      refine ⟨k', r, hk', hloop, hr, ?_⟩
      rw [hstart, Spans.start_succ]
      omega
    case isFalse hlt => exact ⟨k, day, by omega, rfl, by omega, rfl⟩

/-- `month_days` as it is patched for the year. -/
theorem getElem_monthDays {year : ℕ} (hyear : 1970 ≤ year) (hyear' : year < 2100) :
  ∀ j, ∀ hj : j < (if Leapyear year then monthDays.set (february - 1) 29 else monthDays).length,
    (if Leapyear year then monthDays.set (february - 1) 29 else monthDays)[j]
      = monthLength year (0 + j)
  := by
  by_cases hleap : Leapyear year
  · simp only [if_pos hleap]
    intro j hj
    simp only [monthLength, if_pos ((leapyear_iff hyear hyear').mp hleap)]
    have hj : j < 12 := hj
    interval_cases j <;> rfl
  · simp only [if_neg hleap]
    intro j hj
    simp only [monthLength, if_neg (mt (leapyear_iff hyear hyear').mpr hleap)]
    have hj : j < 12 := hj
    interval_cases j <;> rfl

/-- The weekday is that of the number of days since 1970-01-01, a Thursday. -/
theorem gregorianDay_eq {tm : RtcTime} (h : tm.Valid) (hyear : tm.tmYear < 2100) :
  gregorianDay tm
    = some { tm with tmWday := (4 + dayNumber tm.tmYear tm.tmMon tm.tmMday) % 7 }
  := by
  have hmon := h.mon_pos
  have hmon' := h.mon_le
  have hyear' := h.year
  have hmday := h.mday_pos
  have hlt : tm.tmMon - 1 < 12 := by omega
  have hget : monthOffset[tm.tmMon - 1]? = some (monthOffset.getD (tm.tmMon - 1) 0) := by
    rw [List.getD_eq_getElem?_getD, List.getElem?_eq_getElem hlt]
    rfl
  have hdays := start_yearLength (show tm.tmYear - 1970 ≤ 130 by omega)
  have hmonths := start_monthLength tm.tmYear hlt
  have hcorrection : (if tm.tmYear % 4 = 0 ∧ (tm.tmYear % 100 ≠ 0 ∨ tm.tmYear % 400 = 0)
      ∧ tm.tmMon > 2 then 1 else 0) = if IsLeap tm.tmYear ∧ 2 ≤ tm.tmMon - 1 then 1 else 0 := by
    apply if_congr _ rfl rfl
    rw [IsLeap, and_assoc]
    omega
  simp only [gregorianDay, hget, hcorrection, dayNumber, hdays, hmonths, Option.map_some,
    Option.some.injEq, RtcTime.mk.injEq, true_and]
  generalize (if IsLeap tm.tmYear ∧ 2 ≤ tm.tmMon - 1 then 1 else 0) = correction
  generalize monthOffset.getD (tm.tmMon - 1) 0 = offset
  -- From the first day of year 1 on, 1970-01-01 is a Thursday of week 102737.
  have hweeks : correction + ((tm.tmYear - 1) * 365
        + ((tm.tmYear - 1) / 4 - (tm.tmYear - 1) / 100 + (tm.tmYear - 1) / 400) + offset
        + tm.tmMday)
      = 4 + (365 * (tm.tmYear - 1970) + (tm.tmYear - 1970 + 1) / 4
        + (offset + correction + (tm.tmMday - 1))) + 7 * 102737 := by omega
  rw [hweeks, Nat.add_mul_mod_self_left]

/-- The date and time of a number of seconds. -/
theorem toTm_spec {t : ℕ} (h : t < 2 ^ 31) :
  ∃ tm, toTm monthDays t = some (tm, monthDays) ∧ tm.Valid ∧ tm.count = t
    ∧ tm.tmWday = (4 + t / 86400) % 7
  := by
  obtain ⟨k, r, hyears, hr, hstart⟩ := yearLoop_spec 0 (le_refl (t / secDay))
  rw [Spans.start_zero, Nat.zero_add] at hstart
  have hday : t / secDay ≤ 24855 := by
    rw [secDay]
    omega
  have hlengths : ∀ j < 130, daysInYear (1970 + j) = yearLength (1970 + j) :=
    fun j hj => daysInYear_eq (by omega) (by omega)
  have hk : k ≤ 68 := by
    by_contra hlt
    have hmono := Spans.start_mono (w := fun k => daysInYear (1970 + k)) (show 69 ≤ k by omega)
    rw [Spans.start_congr (v := fun k => yearLength (1970 + k)) (i := 69)
      (fun j hj => hlengths j (by omega)), start_yearLength (by decide)] at hmono
    omega
  rw [Spans.start_congr (v := fun k => yearLength (1970 + k))
    (fun j hj => hlengths j (by omega))] at hstart
  rw [hlengths k (by omega), ← start_monthLength_twelve] at hr
  have htable := getElem_monthDays (Nat.le_add_right 1970 k) (by omega)
  have hlength : (if Leapyear (1970 + k) then monthDays.set (february - 1) 29
      else monthDays).length = 12 := by
    split <;> rfl
  have hreset : (if Leapyear (1970 + k) then monthDays.set (february - 1) 29
      else monthDays).set (february - 1) 28 = monthDays := by
    split <;> rfl
  have hyear : Spans.start (monthLength (1970 + k)) 0 + r
      < Spans.start (monthLength (1970 + k)) (0 + (if Leapyear (1970 + k) then
        monthDays.set (february - 1) 29 else monthDays).length) := by
    rwa [Spans.start_zero, hlength, Nat.zero_add, Nat.zero_add]
  obtain ⟨m, d, hm, hmonths, hd, hmstart⟩ := monthLoop_spec htable hyear
  rw [hlength, Nat.zero_add] at hm
  rw [Spans.start_zero, Nat.zero_add] at hmstart
  let hms := t % secDay
  have hhms : hms < 86400 := Nat.mod_lt t (by decide)
  let tm : RtcTime := ⟨hms % 3600 % 60, hms % 3600 / 60, hms / 3600, d + 1, m + 1, 1970 + k, 0⟩
  have hvalid : tm.Valid :=
    ⟨Nat.le_add_right 1970 k, Nat.le_add_left 1 m, hm, Nat.le_add_left 1 d, hd,
      show hms / 3600 < 24 by omega, show hms % 3600 / 60 < 60 by omega,
      show hms % 3600 % 60 < 60 by omega⟩
  have hnumber : dayNumber (1970 + k) (m + 1) (d + 1) = t / 86400 := by
    rw [dayNumber, Nat.add_sub_cancel_left, Nat.add_sub_cancel, Nat.add_sub_cancel, hmstart, hstart]
    rfl
  have hweekday := gregorianDay_eq hvalid (show 1970 + k < 2100 by omega)
  refine ⟨{ tm with tmWday := (4 + t / 86400) % 7 }, ?_,
    ⟨hvalid.year, hvalid.mon_pos, hvalid.mon_le, hvalid.mday_pos, hvalid.mday_le, hvalid.hour,
      hvalid.min, hvalid.sec⟩,
    ?_, rfl⟩
  · have hloop : yearLoop (t / secDay) startOfTime (t / secDay) = (1970 + k, r) := hyears
    rw [Nat.zero_add] at hmonths
    rw [hnumber] at hweekday
    simp only [toTm, hloop, hmonths, Option.bind_eq_bind, Option.bind_some]
    rw [hweekday, hreset]
    rfl
  · show dayNumber (1970 + k) (m + 1) (d + 1) * 86400
      + ((hms / 3600 * 60 + hms % 3600 / 60) * 60 + hms % 3600 % 60) = t
    rw [hnumber]
    have hsecDay : hms = t % 86400 := rfl
    omega

/--
**`to_tm` and `mktime` are inverse to each other** on the seconds below `2 ^ 31` and the valid dates
and times up to then, with the right weekday; `month_days` is left as it was; and `mktime` goes up
with the date and time.
-/
theorem date_roundtrip :
  (∀ t < 2 ^ 31, ∃ tm, toTm monthDays t = some (tm, monthDays) ∧ tm.InRange
    ∧ tm.seconds.toNat = t ∧ tm.tmWday = (4 + t / 86400) % 7)
  ∧ (∀ tm : RtcTime, tm.InRange →
    ∃ wday, toTm monthDays tm.seconds.toNat = some ({ tm with tmWday := wday }, monthDays))
  ∧ ∀ a b : RtcTime, a.InRange → b.InRange → a.Before b → a.seconds < b.seconds
  := by
  refine ⟨?_, ?_, ?_⟩
  · intro t ht
    obtain ⟨tm, htm, hvalid, hcount, hwday⟩ := toTm_spec ht
    have hrange := RtcTime.inRange_of_count_lt hvalid (by rwa [hcount])
    exact ⟨tm, htm, hrange, by rw [hrange.toNat_seconds, hcount], hwday⟩
  · intro tm h
    rw [h.toNat_seconds]
    obtain ⟨tm', htm, hvalid, hcount, -⟩ := toTm_spec h.count_lt
    refine ⟨tm'.tmWday, ?_⟩
    rw [htm, ← RtcTime.eq_of_count_eq hvalid h.valid hcount]
  · intro a b ha hb hbefore
    rw [BitVec.lt_def, ha.toNat_seconds, hb.toNat_seconds]
    exact RtcTime.count_lt ha.valid hbefore

theorem date_roundtrip_last :
  ∃ wday, toTm monthDays RtcTime.last.seconds.toNat
    = some ({ RtcTime.last with tmWday := wday }, monthDays)
  := date_roundtrip.2.1 RtcTime.last ⟨RtcTime.valid_last, by decide⟩

end Rtc
