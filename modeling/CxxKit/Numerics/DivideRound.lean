import CxxKit.Lib.CArithmetic
import CxxKit.Numerics.SafeCompare
import Mathlib.Data.Rat.Floor
import Mathlib.Tactic.Linarith

/-!
# Rounded division

`divide_round_up` and `divide_round_to_nearest` of `divide_round.hpp`, for a dividend and a divisor
of any two integer types.  Both correct the quotient that the operator gives by a look at the
remainder.  A result that an operator's type cannot hold is none, and so is a failed `DCHECK`, in
builds that have them.

The documentation of `divide_round_to_nearest` says that ties are rounded away from zero; the code
rounds them up.
-/

namespace CxxKit.DivideRound

open CInteger CInteger.IntType Int Option Platform SafeCompare

variable (p : Platform) {A B : IntType}

/-- `divide_round_up`, in a build with or without `DCHECK`s. -/
def divideRoundUp (dchecks : Bool) (dividend : A.Val) (divisor : B.Val) :
    Option (p.common A B).Val :=
  if dchecks && !(safeGe p dividend (literal p 0) && safeGt p divisor (literal p 0)) then none
  else do
    let quotient ← p.divide dividend divisor
    let remainder ← p.modulo dividend divisor
    let result ← p.add quotient
      (literal p (if p.compare .gt remainder (literal p 0) then 1 else 0))
    return (p.common A B).convert result.val

/-- `divide_round_to_nearest`. -/
def divideRoundToNearest (dchecks : Bool) (dividend : A.Val) (divisor : B.Val) :
    Option (p.common A B).Val :=
  if dchecks && !safeGt p divisor (literal p 0) then none
  else if p.compare .lt dividend (A.convert 0) then do
    let halfOfDivisor ← p.divide divisor (literal p 2)
    let quotient ← p.divide dividend divisor
    let remainder ← p.modulo dividend divisor
    let negated ← p.negate remainder
    if safeGt p negated halfOfDivisor then (p.common A B).exact (quotient.val - 1)
    else return quotient
  else do
    let less ← p.sub divisor (literal p 1)
    let halfOfDivisor ← p.divide less (literal p 2)
    let quotient ← p.divide dividend divisor
    let remainder ← p.modulo dividend divisor
    if safeGt p remainder halfOfDivisor then (p.common A B).exact (quotient.val + 1)
    else return quotient

/-! ### Quotients and remainders -/

section Numbers

variable {a b z : ℤ}

theorem ceil_eq (hb : 0 < b) (hlow : b * z < a + b) (hhigh : a ≤ b * z) : ⌈(a : ℚ) / b⌉ = z := by
  have hbq : (0 : ℚ) < b := by exact_mod_cast hb
  rw [ceil_eq_iff, lt_div_iff₀ hbq, div_le_iff₀ hbq]
  constructor
  · have hlow' : (b : ℚ) * z < a + b := by exact_mod_cast hlow
    linarith
  · have hhigh' : (a : ℚ) ≤ b * z := by exact_mod_cast hhigh
    linarith

/-- Rounding half up. -/
theorem floor_half_eq (hb : 0 < b) (hlow : 2 * (b * z) ≤ 2 * a + b)
    (hhigh : 2 * a + b < 2 * (b * z) + 2 * b) : ⌊(a : ℚ) / b + 1 / 2⌋ = z := by
  have hsum : (a : ℚ) / b + 1 / 2 = (2 * a + b) / (2 * b) := by
    field_simp
  have hlow' : 2 * ((b : ℚ) * z) ≤ 2 * a + b := by exact_mod_cast hlow
  have hhigh' : 2 * (a : ℚ) + b < 2 * (b * z) + 2 * b := by exact_mod_cast hhigh
  rw [hsum, floor_eq_iff, le_div_iff₀ (by linarith), div_lt_iff₀ (by linarith)]
  constructor <;> linarith

/-- The operators `/` and `%` on a dividend that is not negative. -/
theorem tdiv_nonneg_spec (ha : 0 ≤ a) (hb : 0 < b) :
    a = b * a.tdiv b + a.tmod b ∧ 0 ≤ a.tmod b ∧ a.tmod b < b ∧ 0 ≤ a.tdiv b ∧ a.tdiv b ≤ a ∧
      a.tmod b ≤ a ∧ (0 < a.tmod b → a.tdiv b + 1 ≤ a) := by
  have hsum : b * a.tdiv b + a.tmod b = a := mul_tdiv_add_tmod a b
  have hrem := tmod_nonneg b ha
  have hlt := tmod_lt_of_pos a hb
  have hquot := Int.tdiv_nonneg ha (Int.le_of_lt hb)
  have hscale : a.tdiv b ≤ b * a.tdiv b := le_mul_of_one_le_left hquot hb
  exact ⟨hsum.symm, hrem, hlt, hquot, by omega, by omega, by omega⟩

/-- The operators `/` and `%` on a negative dividend. -/
theorem tdiv_neg_spec (ha : a < 0) (hb : 0 < b) :
    a = b * a.tdiv b + a.tmod b ∧ a.tmod b ≤ 0 ∧ -b < a.tmod b ∧ a ≤ a.tmod b ∧ a.tdiv b ≤ 0 ∧
      a ≤ a.tdiv b ∧ (a.tmod b < 0 → a ≤ a.tdiv b - 1) := by
  obtain ⟨c, rfl⟩ : ∃ c, a = -c := ⟨-a, by omega⟩
  obtain ⟨hsum, hrem, hlt, hquot, hle, hrle, hnext⟩ := tdiv_nonneg_spec (a := c) (by omega) hb
  rw [Int.neg_tdiv, neg_tmod, mul_neg]
  refine ⟨by omega, by omega, by omega, by omega, by omega, by omega, by omega⟩

end Numbers

/-! ### Exactness -/

variable {p} {a : A.Val} {b : B.Val} {v : ℤ}

theorem literal_small (h0 : 0 ≤ v) (h : v ≤ 127) : (literal p v).val = v := by
  have hholds := p.holds_small (T := p.intType) h0 h
  rw [promote_intType] at hholds
  exact convert_of_holds hholds

theorem keeps_literal (h0 : 0 ≤ v) (h : v ≤ 127) (a : A.Val) : p.Keeps a (literal p v) := by
  have hval := literal_small (p := p) h0 h
  exact keeps_small (by omega) (by omega) a

theorem safeGt_literal_zero : safeGt p a (literal p 0) = true ↔ 0 < a.val := by
  rw [safeGt_iff, literal_small (by decide) (by decide)]

theorem safeGe_literal_zero : safeGe p a (literal p 0) = true ↔ 0 ≤ a.val := by
  rw [safeGe_iff, literal_small (by decide) (by decide)]

/-- A small number of type `int` is added to a value, if the sum is one of its type. -/
theorem add_literal (h0 : 0 ≤ v) (h : v ≤ 127) (hsum : A.Holds (a.val + v)) :
    ∃ r, p.add a (literal p v) = some r ∧ r.val = a.val + v := by
  have hval := literal_small (p := p) h0 h
  have hwide : (p.common A p.intType).Holds (a.val + (literal p v).val) := by
    rw [common_intType, hval]
    exact (p.within_promote A).holds hsum
  refine ⟨_, arith_of_keeps (keeps_literal h0 h a) hwide, ?_⟩
  exact congrArg (a.val + ·) hval

/-- A promoted type holds what lies between zero and a value. -/
theorem holds_promote_of_le (a : A.Val) (h0 : 0 ≤ v) (hle : v ≤ a.val) : (p.promote A).Holds v := by
  have hholds := (p.within_promote A).holds a.property
  exact ⟨Int.le_trans (lowest_nonpos _) h0, Int.le_trans hle hholds.2⟩

theorem divide_two (h0 : 0 ≤ a.val) :
    ∃ r, p.divide a (literal p 2) = some r ∧ r.val = a.val / 2 := by
  have hval := literal_small (p := p) (v := 2) (by decide) (by decide)
  have hhalf : a.val.tdiv (literal p 2).val = a.val / 2 := by
    rw [hval, tdiv_eq_ediv_of_nonneg h0]
  have hholds : (p.common A p.intType).Holds (a.val.tdiv (literal p 2).val) := by
    rw [common_intType]
    exact holds_promote_of_le a (by omega) (by omega)
  exact ⟨_, divide_of_keeps (keeps_literal (by decide) (by decide) a) (by omega) hholds,
    hhalf⟩

theorem sub_one (h : 0 < a.val) : ∃ r, p.sub a (literal p 1) = some r ∧ r.val = a.val - 1 := by
  have hval := literal_small (p := p) (v := 1) (by decide) (by decide)
  have hholds : (p.common A p.intType).Holds (a.val - (literal p 1).val) := by
    rw [common_intType]
    exact holds_promote_of_le a (by omega) (by omega)
  exact ⟨_, arith_of_keeps (keeps_literal (by decide) (by decide) a) hholds,
    congrArg (a.val - ·) hval⟩

section Exact

variable (h : A.isSigned = B.isSigned) (hb : 0 < b.val)

include h

/-- What lies between zero and the dividend is a number of the result's type. -/
theorem holds_between (a : A.Val) (b : B.Val) {v : ℤ} (hlow : min a.val 0 ≤ v)
    (hhigh : v ≤ max a.val 0) : (p.common A B).Holds v := by
  obtain ⟨⟨halow, hahigh⟩, -⟩ := keeps_of_isSigned_eq (p := p) h a b
  have hnonpos := lowest_nonpos (p.common A B)
  have hone := one_le_max (p.common A B)
  exact ⟨by omega, by omega⟩

include hb

theorem divide_val (hq : (p.common A B).Holds (a.val.tdiv b.val)) :
    p.divide a b = some ⟨a.val.tdiv b.val, hq⟩ :=
  divide_of_keeps (keeps_of_isSigned_eq h a b) (Int.ne_of_gt hb) hq

theorem modulo_val (hr : (p.common A B).Holds (a.val.tmod b.val)) :
    p.modulo a b = some ⟨a.val.tmod b.val, hr⟩ :=
  modulo_of_keeps (keeps_of_isSigned_eq h a b) (Int.ne_of_gt hb) hr

theorem divideRoundUp_spec (dchecks : Bool) (ha : 0 ≤ a.val) :
    ∃ r, divideRoundUp p dchecks a b = some r ∧ r.val = ⌈(a.val : ℚ) / b.val⌉ := by
  obtain ⟨hsum, hrem, hlt, hquot, hle, hrle, hnext⟩ := tdiv_nonneg_spec ha hb
  have hq : (p.common A B).Holds (a.val.tdiv b.val) := holds_between h a b (by omega) (by omega)
  have hr : (p.common A B).Holds (a.val.tmod b.val) := holds_between h a b (by omega) (by omega)
  have hcompare : p.compare .gt (⟨a.val.tmod b.val, hr⟩) (literal p 0) =
      decide (a.val.tmod b.val > 0) := by
    rw [compare_of_keeps (keeps_literal (by decide) (by decide) _),
      literal_small (by decide) (by decide), Comparison.eval]
  have hchecks : (dchecks && !(safeGe p a (literal p 0) && safeGt p b (literal p 0))) = false := by
    rw [safeGe_literal_zero.mpr ha, safeGt_literal_zero.mpr hb, Bool.and_true, Bool.not_true,
      Bool.and_false]
  simp only [divideRoundUp, hchecks, Bool.false_eq_true, if_false, divide_val h hb hq,
    modulo_val h hb hr, hcompare, bind_eq_bind, bind_some, decide_eq_true_eq]
  by_cases hpos : 0 < a.val.tmod b.val
  · have hup : (p.common A B).Holds (a.val.tdiv b.val + 1) :=
      holds_between h a b (by omega) (by omega)
    obtain ⟨r, hadd, hval⟩ := add_literal
      (a := (⟨a.val.tdiv b.val, hq⟩)) (by decide) (by decide) hup
    rw [if_pos hpos, hadd]
    refine ⟨_, rfl, ?_⟩
    rw [hval, convert_of_holds hup]
    refine (ceil_eq hb ?_ ?_).symm <;> rw [mul_add] <;> omega
  · obtain ⟨r, hadd, hval⟩ := add_literal (v := 0)
      (a := (⟨a.val.tdiv b.val, hq⟩)) (by decide) (by decide)
      (by rwa [add_zero])
    rw [if_neg hpos, hadd]
    refine ⟨_, rfl, ?_⟩
    rw [hval, add_zero, convert_of_holds hq]
    exact (ceil_eq hb (by omega) (by omega)).symm

theorem nearest_neg (ha : a.val < 0) :
    ∃ quotient remainder negated half, p.divide b (literal p 2) = some half ∧
      p.divide a b = some quotient ∧ p.modulo a b = some remainder ∧
      p.negate remainder = some negated ∧
      ∃ r, (if safeGt p negated half then (p.common A B).exact (quotient.val - 1)
        else some quotient) = some r ∧ r.val = ⌊(a.val : ℚ) / b.val + 1 / 2⌋ := by
  obtain ⟨hsum, hrem, hlt, hle, hquot, hqle, hnext⟩ := tdiv_neg_spec ha hb
  have hq : (p.common A B).Holds (a.val.tdiv b.val) := holds_between h a b (by omega) (by omega)
  have hr : (p.common A B).Holds (a.val.tmod b.val) := holds_between h a b (by omega) (by omega)
  have hbholds := (keeps_of_isSigned_eq (p := p) h a b).2
  have hneg : (p.promote (p.common A B)).Holds (-a.val.tmod b.val) :=
    holds_promote_of_le (⟨b.val, hbholds⟩) (by omega) (by simp only; omega)
  obtain ⟨half, hhalf, hhalfval⟩ := divide_two (Int.le_of_lt hb)
  refine ⟨_, _, _, half, hhalf, divide_val h hb hq, modulo_val h hb hr,
    negate_of_holds hneg, ?_⟩
  simp only [safeGt_iff, hhalfval]
  split
  next hmore =>
    have hdown : (p.common A B).Holds (a.val.tdiv b.val - 1) :=
      holds_between h a b (by omega) (by omega)
    refine ⟨_, exact_of_holds hdown, (floor_half_eq hb ?_ ?_).symm⟩ <;>
      rw [mul_sub] <;> omega
  next hless =>
    exact ⟨_, rfl, (floor_half_eq (z := a.val.tdiv b.val) hb (by omega) (by omega)).symm⟩

theorem nearest_nonneg (ha : 0 ≤ a.val) :
    ∃ quotient remainder less half, p.sub b (literal p 1) = some less ∧
      p.divide less (literal p 2) = some half ∧ p.divide a b = some quotient ∧
      p.modulo a b = some remainder ∧
      ∃ r, (if safeGt p remainder half then (p.common A B).exact (quotient.val + 1)
        else some quotient) = some r ∧ r.val = ⌊(a.val : ℚ) / b.val + 1 / 2⌋ := by
  obtain ⟨hsum, hrem, hlt, hquot, hle, hrle, hnext⟩ := tdiv_nonneg_spec ha hb
  have hq : (p.common A B).Holds (a.val.tdiv b.val) := holds_between h a b (by omega) (by omega)
  have hr : (p.common A B).Holds (a.val.tmod b.val) := holds_between h a b (by omega) (by omega)
  obtain ⟨less, hless, hlessval⟩ := sub_one hb
  obtain ⟨half, hhalf, hhalfval⟩ := divide_two (a := less) (by omega)
  refine ⟨_, _, less, half, hless, hhalf, divide_val h hb hq, modulo_val h hb hr, ?_⟩
  simp only [safeGt_iff, hhalfval, hlessval]
  split
  next hmore =>
    have hup : (p.common A B).Holds (a.val.tdiv b.val + 1) :=
      holds_between h a b (by omega) (by omega)
    refine ⟨_, exact_of_holds hup, (floor_half_eq hb ?_ ?_).symm⟩ <;>
      rw [mul_add] <;> omega
  next hfew => exact ⟨_, rfl, (floor_half_eq (z := a.val.tdiv b.val) hb (by omega) (by omega)).symm⟩

theorem divideRoundToNearest_spec (dchecks : Bool) :
    ∃ r, divideRoundToNearest p dchecks a b = some r ∧
      r.val = ⌊(a.val : ℚ) / b.val + 1 / 2⌋ := by
  have hchecks : (dchecks && !safeGt p b (literal p 0)) = false := by
    rw [safeGt_literal_zero.mpr hb, Bool.not_true, Bool.and_false]
  have hzero : (A.convert 0).val = 0 :=
    convert_of_holds ⟨lowest_nonpos A, Int.le_trans (by decide) (one_le_max A)⟩
  have hcompare : p.compare .lt a (A.convert 0) = decide (a.val < 0) := by
    rw [p.compare_of_isSigned_eq rfl, hzero, Comparison.eval]
  unfold divideRoundToNearest
  rw [hchecks, if_neg Bool.false_ne_true, hcompare]
  by_cases ha : a.val < 0
  · obtain ⟨quotient, remainder, negated, half, hhalf, hquot, hrem, hneg, r, hr, hval⟩ :=
      nearest_neg h hb ha
    refine ⟨r, ?_, hval⟩
    rw [if_pos (decide_eq_true ha), hhalf, hquot, hrem]
    simp only [bind_eq_bind, bind_some, hneg]
    exact hr
  · obtain ⟨quotient, remainder, less, half, hless, hhalf, hquot, hrem, r, hr, hval⟩ :=
      nearest_nonneg h hb (Int.not_lt.mp ha)
    refine ⟨r, ?_, hval⟩
    rw [if_neg (by simpa using ha), hless, hquot, hrem]
    simp only [bind_eq_bind, bind_some, hhalf]
    exact hr

end Exact

/-- **Rounded division.** For every positive divisor and every dividend, of any two types that are
both signed or both unsigned, in builds with and without `DCHECK`s, no intermediate value leaves its
type; `divide_round_up` of a dividend that is not negative is the ceiling of the quotient, and
`divide_round_to_nearest` is the nearest integer, the larger one of two. -/
theorem divide_round_exact (p : Platform) (dchecks : Bool) (A B : IntType)
    (h : A.isSigned = B.isSigned) (a : A.Val) (b : B.Val) (hb : 0 < b.val) :
    (0 ≤ a.val → ∃ r, divideRoundUp p dchecks a b = some r ∧ r.val = ⌈(a.val : ℚ) / b.val⌉) ∧
    ∃ r, divideRoundToNearest p dchecks a b = some r ∧
      r.val = ⌊(a.val : ℚ) / b.val + 1 / 2⌋ :=
  ⟨divideRoundUp_spec h hb dchecks, divideRoundToNearest_spec h hb dchecks⟩

/-- The least `int64_t`, divided by an `int8_t`. -/
theorem divide_round_exact_lowest :
    (int64 true).isSigned = (int8 true).isSigned ∧ 0 < ((int8 true).convert 2).val ∧
      ∃ r, divideRoundToNearest ⟨4, 8⟩ true (int64 true).lowestVal ((int8 true).convert 2) =
        some r := by
  have hb : 0 < ((int8 true).convert 2).val := by decide
  obtain ⟨-, r, hr, -⟩ := divide_round_exact ⟨4, 8⟩ true (int64 true) (int8 true) rfl
    (int64 true).lowestVal ((int8 true).convert 2) hb
  exact ⟨rfl, hb, r, hr⟩

end CxxKit.DivideRound
