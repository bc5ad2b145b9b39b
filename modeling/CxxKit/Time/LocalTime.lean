import CxxKit.Time.DateTime

/-!
Local times of the system clock (`time/date_time.cpp`).

The platform is a parameter: the ticks of `system_clock` in a millisecond, the reading of the
clock, and `std::localtime`, which is any function of the seconds it is given.  A number of ticks
that does not fit is undefined, here `none`.

`local_time_from_system_time_secs` takes its seconds for milliseconds.  The other three
conversions agree with each other (`others_agree`).
-/

namespace CxxKit.DateTime

open Option

/-- `std::tm`. -/
structure BrokenDown extends Tm where
  tmWday : Int32
  tmYday : Int32
  tmIsdst : Int32
  deriving DecidableEq

structure Platform where
  ticksPerMSec : Int
  ticks_pos : 0 < ticksPerMSec
  /-- `system_clock::now()`, in ticks. -/
  now : Int
  localtime : Int → BrokenDown

/-- `DateTime::LocalTime`. -/
structure LocalTime where
  mil : Int
  sec : Int32
  min : Int32
  hour : Int32
  day : Int32
  mon : Int32
  year : Int
  daysSinceSunday : Int32
  daysSinceJanuary : Int32
  isdst : Int32
  deriving DecidableEq

/-- The fields both functions return. -/
def localTime (mil : Int) (tm : BrokenDown) : LocalTime where
  mil := mil
  sec := tm.tmSec
  min := tm.tmMin
  hour := tm.tmHour
  day := tm.tmMday
  mon := tm.tmMon
  year := tm.tmYear.toInt + 1900
  daysSinceSunday := tm.tmWday
  daysSinceJanuary := tm.tmYday
  isdst := tm.tmIsdst

/-- A decimal of at least `width` digits. -/
def decimal (width : Nat) (n : Int) : String :=
  "".pushn '0' (width - (toString n).length) ++ toString n

/-- `std::put_time(tm, "%Y-%m-%d %H:%M:%S")`. -/
def putTime (tm : BrokenDown) : String :=
  decimal 1 (tm.tmYear.toInt + 1900) ++ "-" ++ decimal 2 (tm.tmMon.toInt + 1) ++ "-" ++
    decimal 2 tm.tmMday.toInt ++ " " ++ decimal 2 tm.tmHour.toInt ++ ":" ++
    decimal 2 tm.tmMin.toInt ++ ":" ++ decimal 2 tm.tmSec.toInt

section

variable (p : Platform)

def systemTimeSecs : Int := p.now.tdiv (1000 * p.ticksPerMSec)

def systemTimeMSecs : Int := p.now.tdiv p.ticksPerMSec

/-- `system_clock::to_time_t`. -/
def toTimeT (ticks : Int) : Int := ticks.tdiv (1000 * p.ticksPerMSec)

/-- The body that the two functions share. -/
def localTimeOf (milliseconds : Int) : Option LocalTime :=
  (int64 (milliseconds * p.ticksPerMSec)).map fun timePoint =>
    localTime (milliseconds.tmod 1000) (p.localtime (toTimeT p timePoint))

def localTimeFromSystemTimeSecs (secs : Int) : Option LocalTime :=
  localTimeOf p (if secs > 0 then secs else systemTimeSecs p)

def localTimeFromSystemTimeMSecs (msecs : Int) : Option LocalTime :=
  localTimeOf p (if msecs > 0 then msecs else systemTimeMSecs p)

def localTimeStringFromSystemTimeSecs (secs : Int) : Option String :=
  let seconds := if secs > 0 then secs else systemTimeSecs p
  (int64 (seconds * (1000 * p.ticksPerMSec))).map fun timePoint =>
    putTime (p.localtime (toTimeT p timePoint))

def localTimeStringFromSystemTimeMSecs (msecs : Int) : Option String :=
  let milliseconds := if msecs > 0 then msecs else systemTimeMSecs p
  (int64 (milliseconds * p.ticksPerMSec)).map fun timePoint =>
    putTime (p.localtime (toTimeT p timePoint)) ++ "." ++ decimal 3 (milliseconds.tmod 1000)

/-- The four conversions of `s` seconds and `m` milliseconds show one calendar second. -/
def Agree (s m : Int) : Prop :=
  ∃ tm, localTimeFromSystemTimeSecs p s = some (localTime 0 tm) ∧
    localTimeFromSystemTimeMSecs p (1000 * s + m) = some (localTime m tm) ∧
    localTimeStringFromSystemTimeSecs p s = some (putTime tm) ∧
    localTimeStringFromSystemTimeMSecs p (1000 * s + m) =
      some (putTime tm ++ "." ++ decimal 3 m)

end

variable {p : Platform} {s m n : Int}

theorem localTime_injective {mil mil' : Int} {tm tm' : BrokenDown}
    (h : localTime mil tm = localTime mil' tm') : mil = mil' ∧ tm = tm' := by
  obtain ⟨⟨sec, min, hour, mday, mon, year⟩, wday, yday, isdst⟩ := tm
  obtain ⟨⟨sec', min', hour', mday', mon', year'⟩, wday', yday', isdst'⟩ := tm'
  simp only [localTime, LocalTime.mk.injEq] at h
  obtain ⟨rfl, rfl, rfl, rfl, rfl, rfl, hyear, rfl, rfl, rfl⟩ := h
  obtain rfl : year = year' := Int32.toInt_inj.mp (by omega)
  exact ⟨rfl, rfl⟩

theorem ticks_nonneg (hn : 0 ≤ n) : 0 ≤ n * p.ticksPerMSec :=
  Int.mul_nonneg hn (Int.le_of_lt p.ticks_pos)

theorem ticks_lt {n n' : Int} (hn : n ≤ n') (h : n' * p.ticksPerMSec < 2 ^ 63) :
    n * p.ticksPerMSec < 2 ^ 63 :=
  Int.lt_of_le_of_lt (Int.mul_le_mul_of_nonneg_right hn (Int.le_of_lt p.ticks_pos)) h

/-- What is left of a time point of milliseconds are its whole seconds. -/
theorem toTimeT_mul (hn : 0 ≤ n) : toTimeT p (n * p.ticksPerMSec) = n / 1000 := by
  rw [toTimeT, Int.tdiv_eq_ediv_of_nonneg (ticks_nonneg hn),
    Int.mul_ediv_mul_of_pos_left _ _ p.ticks_pos]

theorem int64_mul (hn : 0 ≤ n) : int64 (n * p.ticksPerMSec) =
      if n * p.ticksPerMSec < 2 ^ 63 then some (n * p.ticksPerMSec) else none := by
  have hnonneg : 0 ≤ n * p.ticksPerMSec := ticks_nonneg hn
  unfold int64
  split_ifs <;> first | rfl | omega

theorem localTimeOf_eq (hn : 0 ≤ n) (hfits : n * p.ticksPerMSec < 2 ^ 63) :
    localTimeOf p n = some (localTime (n % 1000) (p.localtime (n / 1000))) := by
  rw [localTimeOf, int64_mul hn, if_pos hfits, map_some, toTimeT_mul hn,
    Int.tmod_eq_emod_of_nonneg hn]

section

variable (hs : 0 < s) (hm : 0 ≤ m ∧ m < 1000)

include hs hm

theorem others_agree (hfits : (1000 * s + m) * p.ticksPerMSec < 2 ^ 63) :
    localTimeFromSystemTimeMSecs p (1000 * s + m) = some (localTime m (p.localtime s)) ∧
      localTimeStringFromSystemTimeSecs p s = some (putTime (p.localtime s)) ∧
      localTimeStringFromSystemTimeMSecs p (1000 * s + m) =
        some (putTime (p.localtime s) ++ "." ++ decimal 3 m) := by
  have hsecond : (1000 * s + m) / 1000 = s := by omega
  have hmil : (1000 * s + m) % 1000 = m := by omega
  have hseconds : s * (1000 * p.ticksPerMSec) = 1000 * s * p.ticksPerMSec := by
    rw [← Int.mul_assoc, Int.mul_comm s]
  have hless : 1000 * s * p.ticksPerMSec < 2 ^ 63 := ticks_lt (by omega) hfits
  refine ⟨?_, ?_, ?_⟩
  · rw [localTimeFromSystemTimeMSecs, if_pos (by omega), localTimeOf_eq (by omega) hfits, hsecond,
      hmil]
  · rw [localTimeStringFromSystemTimeSecs, if_pos hs, hseconds, int64_mul (by omega),
      if_pos hless, map_some, toTimeT_mul (by omega), Int.mul_ediv_cancel_left s (by omega)]
  · rw [localTimeStringFromSystemTimeMSecs, if_pos (by omega), int64_mul (by omega), if_pos hfits,
      map_some, toTimeT_mul (by omega), hsecond, Int.tmod_eq_emod_of_nonneg (by omega), hmil]

end

/-- **Agreement of the local times.** The four conversions agree exactly if the ticks fit, the
seconds are whole thousands, and `localtime` takes a thousandth of the seconds for the seconds. -/
theorem local_times_agree_iff (p : Platform) (s m : Int) (hs : 0 < s) (hm : 0 ≤ m ∧ m < 1000) :
    Agree p s m ↔ (1000 * s + m) * p.ticksPerMSec < 2 ^ 63 ∧ 1000 ∣ s ∧
      p.localtime (s / 1000) = p.localtime s := by
  constructor
  · rintro ⟨tm, hsecs, hmsecs, -, -⟩
    have hfits : (1000 * s + m) * p.ticksPerMSec < 2 ^ 63 := by
      by_contra hnot
      rw [localTimeFromSystemTimeMSecs, if_pos (by omega), localTimeOf, int64_mul (by omega),
        if_neg hnot] at hmsecs
      cases hmsecs
    have hless : s * p.ticksPerMSec < 2 ^ 63 := ticks_lt (by omega) hfits
    rw [(others_agree hs hm hfits).1] at hmsecs
    rw [localTimeFromSystemTimeSecs, if_pos hs, localTimeOf_eq (by omega) hless] at hsecs
    obtain ⟨hmil, htm⟩ := localTime_injective (some.inj hsecs)
    obtain ⟨-, htm'⟩ := localTime_injective (some.inj hmsecs)
    exact ⟨hfits, Int.dvd_of_emod_eq_zero hmil, htm.trans htm'.symm⟩
  · rintro ⟨hfits, hdvd, htm⟩
    have hless : s * p.ticksPerMSec < 2 ^ 63 := ticks_lt (by omega) hfits
    refine ⟨p.localtime s, ?_, others_agree hs hm hfits⟩
    rw [localTimeFromSystemTimeSecs, if_pos hs, localTimeOf_eq (by omega) hless, htm,
      Int.emod_eq_zero_of_dvd hdvd]

/-- A platform with one local time only. -/
theorem local_times_agree_constant :
    Agree ⟨1000000, by decide, 0, fun _ => ⟨⟨0, 0, 0, 1, 0, 70⟩, 4, 0, 0⟩⟩ 1000 0 :=
  (local_times_agree_iff _ 1000 0 (by decide) (by decide)).mpr ⟨by decide, by decide, rfl⟩

/-- The first hours of 1970 in UTC. -/
def firstHours : Platform where
  ticksPerMSec := 1000000
  ticks_pos := by decide
  now := 0
  localtime t :=
    ⟨⟨.ofInt (t % 60), .ofInt (t / 60 % 60), .ofInt (t / 3600), 1, 0, 70⟩, 4, 0, 0⟩

/-- 61 seconds after the epoch come out as 61 milliseconds. -/
theorem seconds_as_milliseconds :
    localTimeFromSystemTimeSecs firstHours 61 = some ⟨61, 0, 0, 0, 1, 0, 1970, 4, 0, 0⟩ ∧
      localTimeFromSystemTimeMSecs firstHours 61000 = some ⟨0, 1, 1, 0, 1, 0, 1970, 4, 0, 0⟩ ∧
      ¬ Agree firstHours 61 0 := by
  have hsecs : localTimeFromSystemTimeSecs firstHours 61 =
      some ⟨61, 0, 0, 0, 1, 0, 1970, 4, 0, 0⟩ := by decide
  refine ⟨hsecs, by decide, ?_⟩
  rintro ⟨tm, hagree, -⟩
  have hmil : (61 : Int) = 0 := congrArg LocalTime.mil (some.inj hagree)
  exact absurd hmil (by decide)

end CxxKit.DateTime
