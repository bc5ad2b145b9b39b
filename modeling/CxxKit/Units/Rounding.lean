import CxxKit.Units.TimeUnits

/-!
Rounding to a resolution (`UnitBase::round_to`, `round_up_to`, `round_down_to`).

All three divide with truncation, which is the floor for values that are not negative only.  An
intermediate value that does not fit is undefined, here `none`.
-/

namespace CxxKit.Units

def int64 (value : Int) : Option Int := if Fits value then some value else none

/-- `Unit_T(quotient) * resolution`. -/
def multiple (quotient resolution : Int) : Option Int := int64 (quotient * resolution)

def roundTo (value resolution : Int) : Option Int :=
  (int64 (value + resolution.tdiv 2)).bind fun sum => multiple (sum.tdiv resolution) resolution

def roundUpTo (value resolution : Int) : Option Int :=
  (int64 (value + resolution)).bind fun sum => multiple ((sum - 1).tdiv resolution) resolution

def roundDownTo (value resolution : Int) : Option Int :=
  multiple (value.tdiv resolution) resolution

/-- The three roundings of a value are multiples of the resolution where they should be. -/
def Rounds (value resolution : Int) : Prop :=
  ∃ down up nearest, roundDownTo value resolution = some down ∧
    roundUpTo value resolution = some up ∧ roundTo value resolution = some nearest ∧
    (resolution ∣ down ∧ down ≤ value ∧ value - down < resolution) ∧
    (resolution ∣ up ∧ value ≤ up ∧ up - value < resolution) ∧
    resolution ∣ nearest ∧ 2 * (value - nearest) ≤ resolution ∧
      2 * (nearest - value) ≤ resolution

variable {v r n : Int}

theorem int64_eq_some : int64 v = some n ↔ Fits v ∧ v = n := by
  simp [int64]

/-- The multiple that truncation leaves of a value that is not negative. -/
theorem multiple_spec (hr : 0 < r) (hn : 0 ≤ n) (hfits : Fits n) :
    ∃ k, multiple (n.tdiv r) r = some k ∧ r ∣ k ∧ k ≤ n ∧ n < k + r := by
  have hle := Int.ediv_mul_le n (Int.ne_of_gt hr)
  have hlt := Int.lt_ediv_add_one_mul_self n hr
  rw [Int.add_mul, Int.one_mul] at hlt
  have hnonneg := Int.mul_nonneg (Int.ediv_nonneg hn (Int.le_of_lt hr)) (Int.le_of_lt hr)
  rw [Int.tdiv_eq_ediv_of_nonneg hn]
  refine ⟨n / r * r, int64_eq_some.mpr ⟨?_, rfl⟩, Int.dvd_mul_left _ _, hle, hlt⟩
  unfold Fits minusInfinityVal at *
  omega

theorem rounds_of_nonneg (hr : 0 < r) (hv : 0 ≤ v) (hfits : Fits (v + r)) : Rounds v r := by
  have hhalf : r.tdiv 2 = r / 2 := Int.tdiv_eq_ediv_of_nonneg (Int.le_of_lt hr)
  have hbelow : ∀ n, 0 ≤ n → n ≤ v + r → Fits n := by
    unfold Fits minusInfinityVal at *
    omega
  obtain ⟨down, hdown, hdvd, hle, hlt⟩ := multiple_spec hr hv (hbelow v hv (by omega))
  obtain ⟨up, hup, hdvd', hle', hlt'⟩ :=
    multiple_spec (n := v + r - 1) hr (by omega) (hbelow _ (by omega) (by omega))
  obtain ⟨nearest, hnearest, hdvd'', hle'', hlt''⟩ :=
    multiple_spec (n := v + r / 2) hr (by omega) (hbelow _ (by omega) (by omega))
  refine ⟨down, up, nearest, hdown, ?_, ?_, ⟨hdvd, hle, by omega⟩, ⟨hdvd', by omega, by omega⟩,
    hdvd'', by omega, by omega⟩
  · rw [roundUpTo, int64_eq_some.mpr ⟨hfits, rfl⟩]
    exact hup
  · rw [roundTo, hhalf, int64_eq_some.mpr ⟨hbelow _ (by omega) (by omega), rfl⟩]
    exact hnearest

/-- Below zero truncation leaves the multiple above. -/
theorem multiple_neg {k : Int} (hr : 0 < r) (hn : n ≤ 0) (h : multiple (n.tdiv r) r = some k) :
    r ∣ k ∧ n ≤ k ∧ k < n + r := by
  have hle := Int.ediv_mul_le (-n) (Int.ne_of_gt hr)
  have hlt := Int.lt_ediv_add_one_mul_self (-n) hr
  have hquot : n.tdiv r = -(-n / r) := by
    rw [← Int.tdiv_eq_ediv_of_nonneg (by omega), ← Int.neg_tdiv, Int.neg_neg]
  have hk := (int64_eq_some.mp h).2
  rw [hquot, Int.neg_mul] at hk
  rw [Int.add_mul] at hlt
  refine ⟨?_, by omega, by omega⟩
  rw [← hk, Int.dvd_neg]
  exact Int.dvd_mul_left _ _

/-- A negative value that is rounded down right is a multiple, and then not rounded up right. -/
theorem eq_one_of_rounds (hr : 0 < r) (hv : v < 0) (h : Rounds v r) : r = 1 := by
  obtain ⟨down, up, -, hdown, hup, -, ⟨hdvd, hle, -⟩, ⟨-, -, hlt⟩, -⟩ := h
  obtain ⟨-, hge, -⟩ := multiple_neg hr (Int.le_of_lt hv) hdown
  obtain ⟨sum, hsum, hup⟩ := Option.bind_eq_some_iff.mp hup
  obtain rfl := (int64_eq_some.mp hsum).2
  have hbelow : r ≤ -down := Int.le_of_dvd (by omega) (Int.dvd_neg.mpr hdvd)
  obtain ⟨hdvd', hge', -⟩ := multiple_neg hr (by omega) hup
  have hone : r ∣ up - down - r := Int.dvd_sub (Int.dvd_sub hdvd' hdvd) (Int.dvd_refl r)
  have heq : up - down - r = -1 := by omega
  rw [heq, Int.dvd_neg] at hone
  have hle := Int.le_of_dvd (by decide) hone
  omega

/-- **Roundings.** For a finite value and a positive finite resolution the three are right exactly
if the value is not negative, or the resolution is one, and the sum of both fits. -/
theorem rounds_iff (v r : Int) (hv : minusInfinityVal < v ∧ v < plusInfinityVal)
    (hr : 0 < r ∧ r < plusInfinityVal) : Rounds v r ↔ (0 ≤ v ∨ r = 1) ∧ Fits (v + r) := by
  constructor
  · intro h
    obtain ⟨_, up, _, -, hup, -⟩ := id h
    obtain ⟨sum, hsum, -⟩ := Option.bind_eq_some_iff.mp hup
    refine ⟨?_, (int64_eq_some.mp hsum).1⟩
    by_cases hneg : 0 ≤ v
    · exact .inl hneg
    · exact .inr (eq_one_of_rounds hr.1 (by omega) h)
  · rintro ⟨hnonneg | rfl, hfits⟩
    · exact rounds_of_nonneg hr.1 hnonneg hfits
    · have hfits' : Fits v := ⟨Int.le_of_lt hv.1, Int.le_of_lt hv.2⟩
      refine ⟨v, v, v, ?_, ?_, ?_, ?_⟩
      · simp [roundDownTo, multiple, int64, hfits']
      · simp [roundUpTo, multiple, int64, hfits, hfits']
      · simp [roundTo, multiple, int64, hfits']
      · omega

/-- 12 is rounded to 10, 20 and 10. -/
theorem rounds_twelve : Rounds 12 10 :=
  (rounds_iff 12 10 (by decide) (by decide)).mpr ⟨.inl (by decide), by decide⟩

/-- The value -17 is rounded down to -10 and up to zero, -7 to zero. -/
theorem negative_roundings : roundDownTo (-17) 10 = some (-10) ∧ roundUpTo (-17) 10 = some 0 ∧
    roundTo (-7) 10 = some 0 ∧ ¬ Rounds (-17) 10 :=
  ⟨by decide, by decide, by decide,
    fun h => absurd (eq_one_of_rounds (by decide) (by decide) h) (by decide)⟩

end CxxKit.Units
