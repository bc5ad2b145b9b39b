import Mathlib.Algebra.Order.BigOperators.Group.Finset
import Mathlib.Data.Prod.Lex

/-!
# The proleptic Gregorian calendar

Dates and times of day carry the bounds of their fields, so every `Moment` is one of the calendar.
Months, days, hours, minutes and seconds count from 0.  `Moment.next` is the moment one second
later: a moment is `n` seconds after another when `n` of these steps lead to it.

`Moment.index` numbers the moments, by sums over whole years and months.  A step adds one to it and
it follows the order of the fields, so it counts the steps (`Moment.iterate_next_iff`).
`Date.index_eq` has the sums in closed form.
-/

namespace Calendar

open EmbeddingLike Finset LinearOrder

open Finset (range)

/-! ### Numbering along a successor -/

section Index

variable {α : Type*} {next : α → α} {index : α → ℕ}

theorem index_iterate (hnext : ∀ a, index (next a) = index a + 1) (a : α) :
    ∀ n, index (next^[n] a) = index a + n
  | 0 => rfl
  | n + 1 => by rw [Function.iterate_succ_apply', hnext, index_iterate hnext a n, Nat.add_assoc]

theorem iterate_eq_iff (hnext : ∀ a, index (next a) = index a + 1)
    (hindex : Function.Injective index) {a b : α} {n : ℕ} :
    next^[n] a = b ↔ index a + n = index b := by
  rw [← index_iterate hnext a n]
  exact hindex.eq_iff.symm

/-- Blocks that follow one another: a position in an earlier block, or an earlier one in the same
block, comes first. -/
theorem sum_add_lt {size : ℕ → ℕ} {m n i j : ℕ} (hi : i < size m)
    (h : m < n ∨ m = n ∧ i < j) : ∑ k ∈ range m, size k + i < ∑ k ∈ range n, size k + j := by
  rcases h with hmn | ⟨rfl, hij⟩
  · calc ∑ k ∈ range m, size k + i
        < ∑ k ∈ range m, size k + size m := Nat.add_lt_add_left hi _
      _ = ∑ k ∈ range (m + 1), size k := (sum_range_succ size m).symm
      _ ≤ ∑ k ∈ range n, size k := sum_le_sum_of_subset (range_mono hmn)
      _ ≤ ∑ k ∈ range n, size k + j := Nat.le_add_right _ _
  · exact Nat.add_lt_add_left hij _

end Index

/-! ### Years and months -/

def isLeap (year : ℕ) : Bool := year % 4 = 0 && (year % 100 ≠ 0 || year % 400 = 0)

/-- The days of month `month` of a year. -/
def monthLength (leap : Bool) (month : ℕ) : ℕ :=
  match month with
  | 1 => if leap then 29 else 28
  | 3 | 5 | 8 | 10 => 30
  | _ => 31

theorem monthLength_pos (leap : Bool) (month : ℕ) : 0 < monthLength leap month := by
  unfold monthLength
  split
  · cases leap <;> decide
  all_goals decide

def yearLength (year : ℕ) : ℕ := ∑ k ∈ range 12, monthLength (isLeap year) k

theorem yearLength_eq (year : ℕ) : yearLength year = 365 + (isLeap year).toNat := by
  unfold yearLength
  cases isLeap year <;> rfl

/-- A leap day every fourth year, but not every hundredth, but every four-hundredth. -/
theorem isLeap_toNat (year : ℕ) : (isLeap year).toNat + (if 100 ∣ year then 1 else 0) =
      (if 4 ∣ year then 1 else 0) + (if 400 ∣ year then 1 else 0) := by
  have hcentury : 400 ∣ year → 100 ∣ year := Nat.dvd_trans (by decide)
  have hfourth : 100 ∣ year → 4 ∣ year := Nat.dvd_trans (by decide)
  simp only [isLeap, ← Nat.dvd_iff_mod_eq_zero, ne_eq]
  by_cases h400 : 400 ∣ year
  · simp [h400, hcentury h400, hfourth (hcentury h400)]
  · by_cases h100 : 100 ∣ year
    · simp [h400, h100, hfourth h100]
    · by_cases h4 : 4 ∣ year <;> simp [h400, h100, h4]

/-- The days before a year, with the leap days up to its end. -/
theorem sum_yearLength (year : ℕ) :
    ∑ k ∈ range year, yearLength k + (isLeap year).toNat + year / 100 =
      365 * year + 1 + year / 4 + year / 400 := by
  induction year with
  | zero => rfl
  | succ year ih =>
    have hnow := isLeap_toNat (year + 1)
    rw [sum_range_succ, yearLength_eq]
    simp only [Nat.succ_div]
    omega

/-! ### Dates -/

@[ext] structure Date where
  year : ℕ
  month : ℕ
  day : ℕ
  month_lt : month < 12
  day_lt : day < monthLength (isLeap year) month
  deriving DecidableEq

namespace Date

def key (d : Date) : ℕ ×ₗ ℕ ×ₗ ℕ := toLex (d.year, toLex (d.month, d.day))

variable (d : Date)

theorem key_injective : Function.Injective key := by
  intro a b h
  simp only [key, apply_eq_iff_eq, Prod.mk.injEq] at h
  exact Date.ext h.1 h.2.1 h.2.2

instance : LinearOrder Date := lift' key key_injective

theorem lt_iff {a b : Date} : a < b ↔ a.year < b.year ∨ a.year = b.year ∧
    (a.month < b.month ∨ a.month = b.month ∧ a.day < b.day) := by
  change a.key < b.key ↔ _
  simp only [key, Prod.Lex.toLex_lt_toLex]

/-- The next day. -/
def next (d : Date) : Date :=
  if hday : d.day + 1 < monthLength (isLeap d.year) d.month then
    ⟨d.year, d.month, d.day + 1, d.month_lt, hday⟩
  else if hmonth : d.month + 1 < 12 then
    ⟨d.year, d.month + 1, 0, hmonth, monthLength_pos _ _⟩
  else ⟨d.year + 1, 0, 0, by decide, monthLength_pos _ _⟩

/-- The days of the year before a date. -/
def dayOfYear (d : Date) : ℕ := ∑ k ∈ range d.month, monthLength (isLeap d.year) k + d.day

def index (d : Date) : ℕ := ∑ k ∈ range d.year, yearLength k + d.dayOfYear

theorem dayOfYear_lt : d.dayOfYear < yearLength d.year := by
  have hlt := sum_add_lt (j := 0) d.day_lt (.inl d.month_lt)
  rw [Nat.add_zero] at hlt
  exact hlt

theorem index_next : d.next.index = d.index + 1 := by
  have hmonth := sum_range_succ (monthLength (isLeap d.year)) d.month
  have hyear := sum_range_succ yearLength d.year
  unfold next
  split
  case isTrue => rfl
  case isFalse hlast =>
    have hday : d.day + 1 = monthLength (isLeap d.year) d.month :=
      Nat.le_antisymm d.day_lt (Nat.not_lt.mp hlast)
    split
    case isTrue =>
      simp only [index, dayOfYear, hmonth]
      omega
    case isFalse hdecember =>
      have htwelve : d.month + 1 = 12 := Nat.le_antisymm d.month_lt (Nat.not_lt.mp hdecember)
      rw [htwelve] at hmonth
      change yearLength d.year = _ at hmonth
      simp only [index, dayOfYear, hyear, sum_range_zero]
      omega

theorem index_strictMono : StrictMono index := by
  intro a b h
  refine sum_add_lt a.dayOfYear_lt ?_
  rcases lt_iff.mp h with hyear | ⟨hyear, hlater⟩
  · exact .inl hyear
  · refine .inr ⟨hyear, ?_⟩
    unfold dayOfYear
    rw [← hyear]
    exact sum_add_lt a.day_lt hlater

/-- The days of the months before a month, in a common year, and the leap day. -/
theorem sum_monthLength (leap : Bool) {month : ℕ} (h : month < 12) :
    ∑ k ∈ range month, monthLength leap k =
      ∑ k ∈ range month, monthLength false k + (leap && decide (1 < month)).toNat := by
  revert leap month
  decide

theorem index_eq : d.index + (isLeap d.year && decide (d.month ≤ 1)).toNat + d.year / 100 =
      365 * d.year + 1 + d.year / 4 + d.year / 400 +
        ∑ k ∈ range d.month, monthLength false k + d.day := by
  have hyears := sum_yearLength d.year
  have hmonths := sum_monthLength (isLeap d.year) d.month_lt
  have hleap : (isLeap d.year && decide (d.month ≤ 1)).toNat +
      (isLeap d.year && decide (1 < d.month)).toNat = (isLeap d.year).toNat := by
    rcases Nat.lt_or_ge 1 d.month with h | h <;> cases isLeap d.year <;>
      simp [h, Nat.not_le.mpr, Nat.not_lt.mpr]
  unfold index dayOfYear
  omega

end Date

/-! ### Times of day -/

@[ext] structure Time where
  hour : ℕ
  minute : ℕ
  second : ℕ
  hour_lt : hour < 24
  minute_lt : minute < 60
  second_lt : second < 60
  deriving DecidableEq

namespace Time

def midnight : Time := ⟨0, 0, 0, by decide, by decide, by decide⟩

def key (t : Time) : ℕ ×ₗ ℕ ×ₗ ℕ := toLex (t.hour, toLex (t.minute, t.second))

theorem key_injective : Function.Injective key := by
  intro a b h
  simp only [key, apply_eq_iff_eq, Prod.mk.injEq] at h
  exact Time.ext h.1 h.2.1 h.2.2

instance : LinearOrder Time := lift' key key_injective

theorem lt_iff {a b : Time} : a < b ↔ a.hour < b.hour ∨ a.hour = b.hour ∧
    (a.minute < b.minute ∨ a.minute = b.minute ∧ a.second < b.second) := by
  change a.key < b.key ↔ _
  simp only [key, Prod.Lex.toLex_lt_toLex]

/-- The next second of the same day. -/
def next? (t : Time) : Option Time :=
  if hsecond : t.second + 1 < 60 then
    some ⟨t.hour, t.minute, t.second + 1, t.hour_lt, t.minute_lt, hsecond⟩
  else if hminute : t.minute + 1 < 60 then
    some ⟨t.hour, t.minute + 1, 0, t.hour_lt, hminute, by decide⟩
  else if hhour : t.hour + 1 < 24 then
    some ⟨t.hour + 1, 0, 0, hhour, by decide, by decide⟩
  else none

def index (t : Time) : ℕ := (t.hour * 60 + t.minute) * 60 + t.second

theorem index_lt (t : Time) : t.index < 86400 := by
  have hhour := t.hour_lt
  have hminute := t.minute_lt
  have hsecond := t.second_lt
  unfold index
  omega

theorem index_of_next? {t u : Time} (h : t.next? = some u) : u.index = t.index + 1 := by
  have hminute := t.minute_lt
  have hsecond := t.second_lt
  unfold next? at h
  split_ifs at h <;> cases h <;> simp only [index] <;> omega

theorem index_of_next?_eq_none {t : Time} (h : t.next? = none) : t.index + 1 = 86400 := by
  have hhour := t.hour_lt
  have hminute := t.minute_lt
  have hsecond := t.second_lt
  unfold next? at h
  unfold index
  split_ifs at h
  omega

theorem index_strictMono : StrictMono index := by
  intro a b h
  have hminute := a.minute_lt
  have hsecond := a.second_lt
  have hlater := lt_iff.mp h
  unfold index
  omega

end Time

/-! ### Moments -/

@[ext] structure Moment where
  date : Date
  time : Time
  deriving DecidableEq

namespace Moment

def key (m : Moment) : Date ×ₗ Time := toLex (m.date, m.time)

theorem key_injective : Function.Injective key := by
  intro a b h
  simp only [key, apply_eq_iff_eq, Prod.mk.injEq] at h
  exact Moment.ext h.1 h.2

instance : LinearOrder Moment := lift' key key_injective

theorem lt_iff {a b : Moment} : a < b ↔ a.date < b.date ∨ a.date = b.date ∧ a.time < b.time := by
  change a.key < b.key ↔ _
  simp only [key, Prod.Lex.toLex_lt_toLex]

/-- One second later. -/
def next (m : Moment) : Moment :=
  match m.time.next? with
  | some time => ⟨m.date, time⟩
  | none => ⟨m.date.next, .midnight⟩

def index (m : Moment) : ℕ := m.date.index * 86400 + m.time.index

theorem index_next (m : Moment) : m.next.index = m.index + 1 := by
  unfold next
  cases hnext : m.time.next? with
  | some time =>
    have htime := Time.index_of_next? hnext
    simp only [index, htime, Nat.add_assoc]
  | none =>
    have htime := Time.index_of_next?_eq_none hnext
    have hmidnight : Time.midnight.index = 0 := rfl
    simp only [index, m.date.index_next, hmidnight]
    omega

theorem index_strictMono : StrictMono index := by
  intro a b h
  have htime := a.time.index_lt
  unfold index
  rcases lt_iff.mp h with hdate | ⟨hdate, hlater⟩
  · have hindex := Date.index_strictMono hdate
    omega
  · have hindex := Time.index_strictMono hlater
    rw [hdate]
    omega

/-- A moment is `n` seconds after another when their numbers are `n` apart. -/
theorem iterate_next_iff {a b : Moment} {n : ℕ} : next^[n] a = b ↔ a.index + n = b.index :=
  iterate_eq_iff index_next index_strictMono.injective

end Moment

end Calendar
