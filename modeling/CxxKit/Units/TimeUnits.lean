import Mathlib.Data.Int.Basic

/-!
Times and durations (`UnitBase`, `TimeDelta`, `Timestamp`).

Both hold an `int64_t` number of microseconds, whose extreme values stand for the infinities.
Sums and differences of finite values are those of `int64_t`; on overflow, which C++ leaves
undefined, the model wraps as the compiled code does.  The `CXXKIT_DCHECK`s are those of a
release build: none.
-/

namespace CxxKit.Units

def plusInfinityVal : Int := 9223372036854775807

def minusInfinityVal : Int := -9223372036854775808

/-- A value of `int64_t`. -/
def Fits (value : Int) : Prop := minusInfinityVal ≤ value ∧ value ≤ plusInfinityVal

instance (value : Int) : Decidable (Fits value) := inferInstanceAs (Decidable (_ ∧ _))

/-- The arithmetic of `int64_t`. -/
def wrap (value : Int) : Int := value.bmod 18446744073709551616

theorem wrap_fits (value : Int) : Fits (wrap value) := by
  have hlow := Int.le_bmod (x := value) (m := 18446744073709551616) (by decide)
  have hhigh := Int.bmod_lt (x := value) (m := 18446744073709551616) (by decide)
  unfold Fits wrap minusInfinityVal plusInfinityVal
  omega

theorem wrap_of_fits {value : Int} (h : Fits value) : wrap value = value := by
  unfold Fits minusInfinityVal plusInfinityVal at h
  unfold wrap
  rw [Int.bmod_eq_of_le] <;> omega

/-- `divide_round_up` of a dividend that is not negative. -/
def divideRoundUp (dividend divisor : Int) : Int :=
  dividend.tdiv divisor + if 0 < dividend.tmod divisor then 1 else 0

structure TimeDelta where
  us : Int
  fits : Fits us
deriving DecidableEq

structure Timestamp where
  us : Int
  fits : Fits us
deriving DecidableEq

namespace TimeDelta

def zero : TimeDelta := ⟨0, by decide⟩

def plusInfinity : TimeDelta := ⟨plusInfinityVal, by decide⟩

def minusInfinity : TimeDelta := ⟨minusInfinityVal, by decide⟩

def isPlusInfinity (d : TimeDelta) : Bool := d.us = plusInfinityVal

def isMinusInfinity (d : TimeDelta) : Bool := d.us = minusInfinityVal

def isFinite (d : TimeDelta) : Bool := !d.isPlusInfinity && !d.isMinusInfinity

/-- `micros`, and the result of any arithmetic. -/
def micros (value : Int) : TimeDelta := ⟨wrap value, wrap_fits value⟩

def millis (value : Int) : TimeDelta := micros (value * 1000)

/-- `operator-` of two durations. -/
def sub (a b : TimeDelta) : TimeDelta :=
  if a.isPlusInfinity || b.isMinusInfinity then plusInfinity
  else if a.isMinusInfinity || b.isPlusInfinity then minusInfinity
  else micros (a.us - b.us)

def max (a b : TimeDelta) : TimeDelta := if a.us < b.us then b else a

/-- The difference of finite durations does not overflow. -/
def SubFits (a b : TimeDelta) : Prop := a.isFinite ∧ b.isFinite → Fits (a.us - b.us)

instance (a b : TimeDelta) : Decidable (SubFits a b) := inferInstanceAs (Decidable (_ → _))

theorem isFinite_iff {d : TimeDelta} :
    d.isFinite = true ↔ d.us ≠ plusInfinityVal ∧ d.us ≠ minusInfinityVal := by
  simp [isFinite, isPlusInfinity, isMinusInfinity]

theorem us_sub {a b : TimeDelta} (ha : a.isFinite) (hb : b.isFinite) :
    (a.sub b).us = wrap (a.us - b.us) := by
  rw [isFinite_iff] at ha hb
  unfold sub
  rw [if_neg (by simp [isPlusInfinity, isMinusInfinity, ha, hb]),
    if_neg (by simp [isPlusInfinity, isMinusInfinity, ha, hb])]
  rfl

theorem us_max (a b : TimeDelta) : (a.max b).us = Max.max a.us b.us := by
  unfold max
  split <;> omega

end TimeDelta

namespace Timestamp

def plusInfinity : Timestamp := ⟨plusInfinityVal, by decide⟩

def minusInfinity : Timestamp := ⟨minusInfinityVal, by decide⟩

section

variable (t : Timestamp)

def isPlusInfinity : Bool := t.us = plusInfinityVal

def isMinusInfinity : Bool := t.us = minusInfinityVal

def isFinite : Bool := !t.isPlusInfinity && !t.isMinusInfinity

def micros (value : Int) : Timestamp := ⟨wrap value, wrap_fits value⟩

/-- `operator+` of a time and a duration. -/
def add (d : TimeDelta) : Timestamp :=
  if t.isPlusInfinity || d.isPlusInfinity then plusInfinity
  else if t.isMinusInfinity || d.isMinusInfinity then minusInfinity
  else micros (t.us + d.us)

/-- `operator-` of two times. -/
def sub (t u : Timestamp) : TimeDelta :=
  if t.isPlusInfinity || u.isMinusInfinity then .plusInfinity
  else if t.isMinusInfinity || u.isPlusInfinity then .minusInfinity
  else .micros (t.us - u.us)

/-- The sum of finite values does not overflow. -/
def AddFits (d : TimeDelta) : Prop :=
  t.isFinite ∧ d.isFinite → Fits (t.us + d.us)

/-- The difference of finite values does not overflow. -/
def SubFits (t u : Timestamp) : Prop := t.isFinite ∧ u.isFinite → Fits (t.us - u.us)

instance (t : Timestamp) (d : TimeDelta) : Decidable (AddFits t d) :=
  inferInstanceAs (Decidable (_ → _))

instance (t u : Timestamp) : Decidable (SubFits t u) := inferInstanceAs (Decidable (_ → _))

end

theorem isFinite_iff {t : Timestamp} :
    t.isFinite = true ↔ t.us ≠ plusInfinityVal ∧ t.us ≠ minusInfinityVal := by
  simp [isFinite, isPlusInfinity, isMinusInfinity]

theorem us_add {t : Timestamp} {d : TimeDelta} (ht : t.isFinite) (hd : d.isFinite) :
    (t.add d).us = wrap (t.us + d.us) := by
  rw [isFinite_iff] at ht
  rw [TimeDelta.isFinite_iff] at hd
  unfold add
  rw [if_neg (by simp [isPlusInfinity, TimeDelta.isPlusInfinity, ht, hd]),
    if_neg (by simp [isMinusInfinity, TimeDelta.isMinusInfinity, ht, hd])]
  rfl

theorem us_sub {t u : Timestamp} (ht : t.isFinite) (hu : u.isFinite) :
    (t.sub u).us = wrap (t.us - u.us) := by
  rw [isFinite_iff] at ht hu
  unfold sub
  rw [if_neg (by simp [isPlusInfinity, isMinusInfinity, ht, hu]),
    if_neg (by simp [isPlusInfinity, isMinusInfinity, ht, hu])]
  rfl

end Timestamp

/-- A finite number of microseconds that is not negative: a reading of a clock, or a delay. -/
structure Micros where
  us : Int
  nonneg : 0 ≤ us
  finite : us < plusInfinityVal
deriving DecidableEq

namespace Micros

variable (m : Micros)

theorem fits : Fits m.us := by
  have h₁ := m.nonneg
  have h₂ := m.finite
  unfold Fits plusInfinityVal minusInfinityVal at *
  omega

def toTimestamp (m : Micros) : Timestamp := ⟨m.us, m.fits⟩

def toTimeDelta (m : Micros) : TimeDelta := ⟨m.us, m.fits⟩

theorem isFinite_toTimestamp : m.toTimestamp.isFinite = true := by
  have h₁ := m.nonneg
  have h₂ := m.finite
  rw [Timestamp.isFinite_iff]
  unfold toTimestamp plusInfinityVal minusInfinityVal at *
  dsimp only
  omega

theorem isFinite_toTimeDelta : m.toTimeDelta.isFinite = true := by
  have h₁ := m.nonneg
  have h₂ := m.finite
  rw [TimeDelta.isFinite_iff]
  unfold toTimeDelta plusInfinityVal minusInfinityVal at *
  dsimp only
  omega

end Micros

end CxxKit.Units
