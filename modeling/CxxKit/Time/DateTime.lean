import CxxKit.Lib.Calendar

/-!
# Seconds of a broken-down time

`DateTime::tm_to_seconds` (`time/date_time.cpp`).  The fields of a `tm` are `int`s, and so are the
values the function computes with, up to the seconds, which are an `int64_t`.  A sum that does not
fit is undefined, here `none`.

For a `tm` that names a moment of the Gregorian calendar from 1970 on, the function counts the
seconds since 1970-01-01 00:00:00 (`tmToSeconds_of_names`).  For others it returns -1, but for a
`tm_mday` from which 1 cannot be subtracted (`tmToSeconds_overflow`).
-/

namespace CxxKit.DateTime

open Calendar Int Int32 Moment Option

/-- The fields of `tm` that the function reads. -/
structure Tm where
  tmSec : Int32
  tmMin : Int32
  tmHour : Int32
  tmMday : Int32
  tmMon : Int32
  tmYear : Int32
  deriving DecidableEq

/-- A sum of `int`s. -/
def int (n : Int) : Option Int := if -2 ^ 31 ≤ n ∧ n < 2 ^ 31 then some n else none

/-- A sum of `int64_t`s. -/
def int64 (n : Int) : Option Int := if -2 ^ 63 ≤ n ∧ n < 2 ^ 63 then some n else none

def mdays : List Int := [31, 28, 31, 30, 31, 30, 31, 31, 30, 31, 30, 31]

def cumulMdays : List Int := [0, 31, 59, 90, 120, 151, 181, 212, 243, 273, 304, 334]

/-- `expiry_in_leap_year`. -/
def expiryInLeapYear (year : Int) : Bool :=
  year.tmod 4 = 0 && (year.tmod 100 ≠ 0 || year.tmod 400 = 0)

/-- `DateTime::tm_to_seconds`. -/
def tmToSeconds (tm : Tm) : Option Int := do
  let year ← int (tm.tmYear.toInt + 1900)
  let month := tm.tmMon.toInt
  let day ← int (tm.tmMday.toInt - 1)
  let hour := tm.tmHour.toInt
  let min := tm.tmMin.toInt
  let sec := tm.tmSec.toInt
  if year < 1970 then return -1
  if month < 0 ∨ month > 11 then return -1
  let length ← mdays[month.toNat]?
  if day < 0 ∨ day ≥ length + (expiryInLeapYear year && decide (month = 2 - 1)).toNat then
    return -1
  if hour < 0 ∨ hour > 23 then return -1
  if min < 0 ∨ min > 59 then return -1
  if sec < 0 ∨ sec > 59 then return -1
  let cumul ← cumulMdays[month.toNat]?
  let day ← int (day + cumul)
  -- the leap days between 1970 and the year, inclusive
  let day ← int (day + ((year.tdiv 4 - 1970 / 4) - (year.tdiv 100 - 1970 / 100) +
    (year.tdiv 400 - 1970 / 400)))
  let day ← (if expiryInLeapYear year ∧ month ≤ 2 - 1 then int (day - 1) else some day)
  let years ← int (year - 1970)
  int64 ((((years * 365 + day) * 24 + hour) * 60 + min) * 60 + sec)

/-! ### Moments of the calendar -/

/-- 1970-01-01 00:00:00. -/
def epoch : Moment := ⟨⟨1970, 0, 0, Nat.succ_pos 11, monthLength_pos _ _⟩, .midnight⟩

/-- The fields are those of a moment of the calendar. -/
structure Tm.Names (tm : Tm) (m : Moment) : Prop where
  year : tm.tmYear.toInt + 1900 = m.date.year
  mon : tm.tmMon.toInt = m.date.month
  mday : tm.tmMday.toInt = m.date.day + 1
  hour : tm.tmHour.toInt = m.time.hour
  min : tm.tmMin.toInt = m.time.minute
  sec : tm.tmSec.toInt = m.time.second

/-- The calendar year is an `int`. -/
def Tm.YearFits (tm : Tm) : Prop := tm.tmYear.toInt + 1900 < 2 ^ 31

/-- The function returns -1 for fields that are those of no moment from 1970 on, and otherwise the
number of seconds that lead from 1970-01-01 00:00:00 to the moment; for a later moment it returns
more. -/
def Exact (tm : Tm) : Prop :=
  ∃ r, tmToSeconds tm = some r ∧
    ((¬ ∃ m : Moment, tm.Names m ∧ 1970 ≤ m.date.year) → r = -1) ∧
    ∀ m : Moment, tm.Names m → 1970 ≤ m.date.year →
      (∃ n : ℕ, r = n ∧ next^[n] epoch = m) ∧
      ∀ (later : Tm) (m' : Moment), later.YearFits → later.Names m' → m < m' →
        ∃ r', tmToSeconds later = some r' ∧ r < r'

/-! ### The tables and the leap years -/

theorem int_of_fits {n : Int} (h : -2 ^ 31 ≤ n ∧ n < 2 ^ 31) : int n = some n := if_pos h

theorem int64_of_fits {n : Int} (h : -2 ^ 63 ≤ n ∧ n < 2 ^ 63) : int64 n = some n := if_pos h

theorem mdays_eq {month : ℕ} (h : month < 12) :
    mdays[month]? = some (monthLength false month : ℤ) := by
  revert month
  decide

theorem cumulMdays_eq {month : ℕ} (h : month < 12) :
    cumulMdays[month]? = some ((∑ k ∈ Finset.range month, monthLength false k : ℕ) : ℤ) := by
  revert month
  decide

theorem sum_monthLength_le {month : ℕ} (h : month < 12) :
    ∑ k ∈ Finset.range month, monthLength false k ≤ 334 := by
  revert month
  decide

theorem monthLength_le (leap : Bool) {month : ℕ} (h : month < 12) :
    monthLength leap month ≤ 31 := by
  revert leap month
  decide

theorem expiryInLeapYear_eq (year : ℕ) : expiryInLeapYear year = isLeap year := by
  have htmod : ∀ k : ℤ, (year : ℤ).tmod k = year % k := fun k =>
    tmod_eq_emod_of_nonneg (natCast_nonneg year)
  rw [Bool.eq_iff_iff]
  simp only [expiryInLeapYear, isLeap, htmod, Bool.and_eq_true, Bool.or_eq_true, decide_eq_true_eq]
  omega

/-- The number of days that the test of the day allows. -/
theorem mdays_add_leap (year : ℕ) {month : ℕ} (h : month < 12) : (monthLength false month : ℤ) +
      (expiryInLeapYear year && decide ((month : ℤ) = 2 - 1)).toNat =
        monthLength (isLeap year) month := by
  rw [expiryInLeapYear_eq]
  generalize isLeap year = leap
  revert leap month
  decide

/-! ### Moments from 1970 on -/

theorem index_epoch : epoch.index = 719528 * 86400 := by
  have hyear : epoch.date.year = 1970 := rfl
  have hmonth : epoch.date.month = 0 := rfl
  have hday : epoch.date.day = 0 := rfl
  have hleap : isLeap 1970 = false := by decide
  have htime : epoch.time.index = 0 := rfl
  have hdate := epoch.date.index_eq
  simp only [hyear, hmonth, hday, hleap, Bool.false_and, Bool.toNat_false,
    Finset.sum_range_zero] at hdate
  -- the sum itself must not be evaluated
  rw [index]
  generalize epoch.date.index = days at hdate ⊢
  omega

/-- The leap day of the year itself is taken back in January and February. -/
theorem leapDay_eq (leap : Bool) (month : ℕ) {day : ℤ} (h : 0 ≤ day ∧ day < 2 ^ 31) :
    (if leap = true ∧ (month : ℤ) ≤ 2 - 1 then int (day - 1) else some day) =
      some (day - (leap && decide (month ≤ 1)).toNat) := by
  by_cases hearly : leap = true ∧ month ≤ 1
  · rw [if_pos ⟨hearly.1, by omega⟩, int_of_fits (by omega)]
    simp [hearly]
  · rw [if_neg fun h => hearly ⟨h.1, by omega⟩]
    have hnone : (leap && decide (month ≤ 1)) = false := by simpa using hearly
    simp [hnone]

variable {tm : Tm} {m : Moment}

theorem tmToSeconds_of_names (hfits : tm.YearFits) (h : tm.Names m) (hepoch : 1970 ≤ m.date.year) :
    tmToSeconds tm = some ((m.index : ℤ) - epoch.index) := by
  obtain ⟨hyear, hmon, hmday, hhour, hmin, hsec⟩ := h
  have hfits : (m.date.year : ℤ) < 2 ^ 31 := hyear ▸ hfits
  have hmonth := m.date.month_lt
  have hdays := m.date.day_lt
  have hthirty := monthLength_le (isLeap m.date.year) hmonth
  have hcumul := sum_monthLength_le hmonth
  have hhours := m.time.hour_lt
  have hminutes := m.time.minute_lt
  have hseconds := m.time.second_lt
  have htdiv : ∀ k : ℤ, (m.date.year : ℤ).tdiv k = m.date.year / k := fun k =>
    tdiv_eq_ediv_of_nonneg (natCast_nonneg _)
  -- the tests pass: the fields are in range
  unfold tmToSeconds
  rw [hyear, hmon, int_of_fits (by omega), int_of_fits (by omega)]
  simp only [bind_eq_bind, bind_some, toNat_natCast, mdays_eq hmonth,
    cumulMdays_eq hmonth, mdays_add_leap m.date.year hmonth, htdiv]
  rw [if_neg (by omega), if_neg (by omega), if_neg (by omega), if_neg (by omega),
    if_neg (by omega), if_neg (by omega)]
  -- the sums fit, and are those of the calendar
  rw [int_of_fits (by omega), bind_some, int_of_fits (by omega), bind_some,
    expiryInLeapYear_eq, leapDay_eq _ _ (by omega), bind_some, int_of_fits (by omega),
    bind_some]
  have hindex := m.date.index_eq
  rw [int64_of_fits (by omega), index_epoch, index, Time.index]
  congr 1
  omega

/-! ### Fields out of range -/

theorem exists_names (hyear : 1970 ≤ tm.tmYear.toInt + 1900)
    (hmon : 0 ≤ tm.tmMon.toInt ∧ tm.tmMon.toInt ≤ 11)
    (hmday : 1 ≤ tm.tmMday.toInt ∧ tm.tmMday.toInt ≤
      monthLength (isLeap (tm.tmYear.toInt + 1900).toNat) tm.tmMon.toInt.toNat)
    (hhour : 0 ≤ tm.tmHour.toInt ∧ tm.tmHour.toInt ≤ 23)
    (hmin : 0 ≤ tm.tmMin.toInt ∧ tm.tmMin.toInt ≤ 59)
    (hsec : 0 ≤ tm.tmSec.toInt ∧ tm.tmSec.toInt ≤ 59) :
    ∃ m : Moment, tm.Names m ∧ 1970 ≤ m.date.year := by
  refine ⟨⟨⟨(tm.tmYear.toInt + 1900).toNat, tm.tmMon.toInt.toNat, (tm.tmMday.toInt - 1).toNat,
    by omega, by omega⟩, ⟨tm.tmHour.toInt.toNat, tm.tmMin.toInt.toNat, tm.tmSec.toInt.toNat,
    by omega, by omega, by omega⟩⟩, ⟨?_, ?_, ?_, ?_, ?_, ?_⟩, ?_⟩
  all_goals
    dsimp only
    omega

theorem int_year (hfits : tm.YearFits) :
    int (tm.tmYear.toInt + 1900) = some (tm.tmYear.toInt + 1900) := by
  have hleast := tm.tmYear.le_toInt
  unfold Tm.YearFits at hfits
  exact int_of_fits (by omega)

/-- One can be subtracted from every `tm_mday` but the least. -/
theorem int_day (h : tm.tmMday ≠ minValue) :
    int (tm.tmMday.toInt - 1) = some (tm.tmMday.toInt - 1) := by
  have hleast := tm.tmMday.le_toInt
  have hmost := tm.tmMday.toInt_lt
  have hne : tm.tmMday.toInt ≠ -2 ^ 31 := fun heq => h (toInt_inj.mp heq)
  exact int_of_fits (by omega)

theorem tmToSeconds_of_not_names (hfits : tm.YearFits) (hleast : tm.tmMday ≠ minValue)
    (h : ¬ ∃ m : Moment, tm.Names m ∧ 1970 ≤ m.date.year) : tmToSeconds tm = some (-1) := by
  unfold tmToSeconds
  rw [int_year hfits, int_day hleast]
  simp only [bind_eq_bind, bind_some]
  by_cases hyear : tm.tmYear.toInt + 1900 < 1970
  · exact if_pos hyear
  rw [if_neg hyear]
  by_cases hmon : tm.tmMon.toInt < 0 ∨ tm.tmMon.toInt > 11
  · exact if_pos hmon
  rw [if_neg hmon]
  -- the length of the month is that of the calendar
  obtain ⟨year, hyear'⟩ := eq_ofNat_of_zero_le (show 0 ≤ tm.tmYear.toInt + 1900 by omega)
  obtain ⟨month, hmonth⟩ := eq_ofNat_of_zero_le (show 0 ≤ tm.tmMon.toInt by omega)
  have htwelve : month < 12 := by omega
  rw [hyear', hmonth, toNat_natCast, mdays_eq htwelve, bind_some, mdays_add_leap year htwelve]
  by_cases hday : tm.tmMday.toInt - 1 < 0 ∨
      tm.tmMday.toInt - 1 ≥ monthLength (isLeap year) month
  · exact if_pos hday
  rw [if_neg hday]
  by_cases hhour : tm.tmHour.toInt < 0 ∨ tm.tmHour.toInt > 23
  · exact if_pos hhour
  rw [if_neg hhour]
  by_cases hmin : tm.tmMin.toInt < 0 ∨ tm.tmMin.toInt > 59
  · exact if_pos hmin
  rw [if_neg hmin]
  by_cases hsec : tm.tmSec.toInt < 0 ∨ tm.tmSec.toInt > 59
  · exact if_pos hsec
  -- no field is out of range
  refine absurd (exists_names ?_ ?_ ?_ ?_ ?_ ?_) h
  · omega
  · omega
  · rw [hyear', hmonth, toNat_natCast, toNat_natCast]
    omega
  · omega
  · omega
  · omega

/-- The subtraction from the least `tm_mday` is undefined, before any field is tested. -/
theorem tmToSeconds_undefined (hfits : tm.YearFits) (h : tm.tmMday = minValue) :
    tmToSeconds tm = none := by
  have hday : int (tm.tmMday.toInt - 1) = none := by
    rw [h]
    rfl
  unfold tmToSeconds
  rw [int_year hfits, hday]
  rfl

/-! ### The count -/

theorem epoch_index_le (h : 1970 ≤ m.date.year) : epoch.index ≤ m.index := by
  refine index_strictMono.monotone (not_lt.mp fun hlt => ?_)
  -- no field of the epoch but the year can be undercut
  rcases lt_iff.mp hlt with hdate | ⟨-, htime⟩
  · have hfields := Date.lt_iff.mp hdate
    simp only [epoch] at hfields
    omega
  · have hfields := Time.lt_iff.mp htime
    simp only [epoch, Time.midnight] at hfields
    omega

theorem year_mono {m m' : Moment} (h : m < m') : m.date.year ≤ m'.date.year := by
  rcases lt_iff.mp h with hdate | ⟨hdate, -⟩
  · rcases Date.lt_iff.mp hdate with hyear | ⟨hyear, -⟩
    · exact Nat.le_of_lt hyear
    · exact Nat.le_of_eq hyear
  · rw [hdate]

/-- **The seconds of a broken-down time** are exact for all fields but the least `tm_mday`, from
which the source subtracts one before it has checked the field. -/
theorem tmToSeconds_iff (tm : Tm) (hfits : tm.YearFits) :
    Exact tm ↔ tm.tmMday ≠ minValue := by
  constructor
  · rintro ⟨r, hr, -⟩ hleast
    rw [tmToSeconds_undefined hfits hleast] at hr
    cases hr
  · intro hleast
    by_cases hnames : ∃ m : Moment, tm.Names m ∧ 1970 ≤ m.date.year
    · obtain ⟨m₀, hm₀, hepoch₀⟩ := hnames
      have hr := tmToSeconds_of_names hfits hm₀ hepoch₀
      refine ⟨_, hr, fun hnone => absurd ⟨m₀, hm₀, hepoch₀⟩ hnone, fun m hm hepoch => ?_⟩
      have hsame := hr.symm.trans (tmToSeconds_of_names hfits hm hepoch)
      rw [some_inj] at hsame
      have hle := epoch_index_le hepoch
      refine ⟨⟨m.index - epoch.index, by omega, ?_⟩, fun later m' hfits' hm' hlater => ?_⟩
      · rw [iterate_next_iff]
        omega
      · refine ⟨_, tmToSeconds_of_names hfits' hm' (Nat.le_trans hepoch (year_mono hlater)), ?_⟩
        have hlt := index_strictMono hlater
        omega
    · refine ⟨-1, tmToSeconds_of_not_names hfits hleast hnames, fun _ => rfl, ?_⟩
      intro m hm hepoch
      exact absurd ⟨m, hm, hepoch⟩ hnames

/-- The last second of the leap day of 2000. -/
theorem tmToSeconds_iff_leapDay :
    Tm.YearFits ⟨59, 59, 23, 29, 1, 100⟩ ∧ Exact ⟨59, 59, 23, 29, 1, 100⟩ := by
  have hfits : Tm.YearFits ⟨59, 59, 23, 29, 1, 100⟩ := by
    unfold Tm.YearFits
    decide
  exact ⟨hfits, (tmToSeconds_iff _ hfits).mpr (by decide)⟩

/-- Behaviour is undefined for the least `tm_mday`, which is out of range in every month. -/
theorem tmToSeconds_overflow :
    Tm.YearFits ⟨0, 0, 0, -2147483648, 0, 70⟩ ∧ tmToSeconds ⟨0, 0, 0, -2147483648, 0, 70⟩ = none ∧
      ¬ Exact ⟨0, 0, 0, -2147483648, 0, 70⟩ := by
  have hnone : tmToSeconds ⟨0, 0, 0, -2147483648, 0, 70⟩ = none := by decide
  have hfits : Tm.YearFits ⟨0, 0, 0, -2147483648, 0, 70⟩ := by
    unfold Tm.YearFits
    decide
  refine ⟨hfits, hnone, ?_⟩
  rintro ⟨r, hr, -⟩
  cases hr

end CxxKit.DateTime
