import CxxKit.Lib.CInteger

/-!
# Checked and saturating conversions

`saturated_cast` and `checked_cast` of `safe_conversions.hpp`, between integers of any two types.
`StaticRangeCheck` compares the types by their sizes and signedness, and `RangeCheckImpl` compares
the value with the limits of the destination where these lie inside the range of the source.

`bool` is an unsigned type of one byte there, so that a byte counts as within its range.  The
conversion to `bool` gives the nearer bound even so, and `saturated_cast` is right for all pairs of
types.  The check of `checked_cast` is commented out in the source, and it never aborts.
-/

namespace CxxKit.SafeConversions

open CInteger CInteger.IntType

/-! ### The model -/

inductive DstRange where
  | overlapsRange
  | containsRange
  deriving DecidableEq

/-- `StaticRangeCheck<Dst, Src>::value`, for integral types. -/
def staticRangeCheck (Dst Src : IntType) : DstRange :=
  match Dst.isSigned, Src.isSigned with
  | true, true => if Dst.size * 8 - 1 ≥ Src.size * 8 - 1 then .containsRange else .overlapsRange
  | false, false => if Dst.size ≥ Src.size then .containsRange else .overlapsRange
  | true, false => if Dst.size * 8 - 1 ≥ Src.size * 8 then .containsRange else .overlapsRange
  | false, true => .overlapsRange

inductive RangeCheckResult where
  | typeValid
  | typeUnderflow
  | typeOverflow
  | typeInvalid
  deriving DecidableEq

/-- `BASE_NUMERIC_RANGE_CHECK_RESULT`. -/
def rangeCheckResult (isInUpperBound isInLowerBound : Bool) : RangeCheckResult :=
  match isInUpperBound, isInLowerBound with
  | true, true => .typeValid
  | true, false => .typeUnderflow
  | false, true => .typeOverflow
  | false, false => .typeInvalid

section Functions

variable (p : Platform) (Dst : IntType) {Src : IntType} (value : Src.Val)

/-- `value <= static_cast<Src>(numeric_max<Dst>())`. -/
def inUpperBound : Bool := p.compare .le value (Src.convert Dst.max)

/-- `RangeCheckImpl<Dst, Src>::check(value)`. -/
def rangeCheck : RangeCheckResult :=
  match staticRangeCheck Dst Src with
  | .containsRange => .typeValid
  | .overlapsRange =>
    match Dst.isSigned, Src.isSigned with
    | true, true =>
      rangeCheckResult (inUpperBound p Dst value)
        (p.compare .ge value (Src.convert Dst.lowest))
    | false, false => rangeCheckResult (inUpperBound p Dst value) true
    | true, false =>
      if Dst.size > Src.size then .typeValid
      else rangeCheckResult (inUpperBound p Dst value) true
    | false, true =>
      if Dst.size * 8 ≥ Src.size * 8 - 1 then
        rangeCheckResult true (p.compare .ge value (Src.convert 0))
      else
        rangeCheckResult (inUpperBound p Dst value) (p.compare .ge value (Src.convert 0))

/-- `is_value_in_range_for_numeric_type<Dst>(value)`. -/
def isValueInRangeForNumericType : Bool := rangeCheck p Dst value = .typeValid

/-- `saturated_cast<Dst>(value)`; `none` is the abort of `CXXKIT_CHECK_NOTREACHED`. -/
def saturatedCast : Option Dst.Val :=
  match rangeCheck p Dst value with
  | .typeValid => some (Dst.convert value.val)
  | .typeUnderflow => some Dst.lowestVal
  | .typeOverflow => some Dst.maxVal
  | .typeInvalid => none

/-- `checked_cast<Dst>(value)`, where `none` would be an abort. The check in front of the conversion
is commented out. -/
def checkedCast : Option Dst.Val := some (Dst.convert value.val)

/-- `dchecked_cast<Dst>(value)`, whose check is commented out as well. -/
def dcheckedCast : Option Dst.Val := some (Dst.convert value.val)

end Functions

/-! ### The range check -/

section RangeCheck

variable (p : Platform) {Dst Src : IntType} (value : Src.Val) {v : ℤ}

theorem inUpperBound_eq (h : Src.Holds Dst.max) :
    inUpperBound p Dst value = decide (value.val ≤ Dst.max) := by
  rw [inUpperBound, p.compare_of_isSigned_eq rfl, convert_of_holds h]
  rfl

theorem compare_ge_eq (h : Src.Holds v) :
    p.compare .ge value (Src.convert v) = decide (v ≤ value.val) := by
  rw [p.compare_of_isSigned_eq rfl, convert_of_holds h]
  rfl

/-- What the three results say of the value. `bool` passes for a type that holds every byte. -/
inductive Checked (Dst : IntType) (v : ℤ) : RangeCheckResult → Prop
  | valid (h : Dst.Holds v ∨ Dst = .bool ∧ 0 ≤ v) : Checked Dst v .typeValid
  | underflow (h : v < Dst.lowest) : Checked Dst v .typeUnderflow
  | overflow (h : Dst.max < v) : Checked Dst v .typeOverflow

/-- Both bounds are checked, and they are those of the destination. -/
theorem checked_bounds {upper lower : Bool} (hupper : upper = decide (v ≤ Dst.max))
    (hlower : lower = decide (Dst.lowest ≤ v)) : Checked Dst v (rangeCheckResult upper lower) := by
  have hle := Dst.lowestVal.property.2
  rw [lowestVal_val] at hle
  subst hupper hlower
  by_cases hmax : v ≤ Dst.max <;> by_cases hmin : Dst.lowest ≤ v <;>
    simp only [hmax, hmin, decide_true, decide_false, rangeCheckResult]
  · exact .valid (.inl ⟨hmin, hmax⟩)
  · exact .underflow (Int.not_le.mp hmin)
  · exact .overflow (Int.not_le.mp hmax)
  · omega

theorem checked_of_within (hv : Src.Holds v) (h : Src.Within Dst) : Checked Dst v .typeValid :=
  .valid (.inl (h.holds hv))

theorem rangeCheck_signed_signed (m n : ℕ+) (value : (int true n).Val) :
    Checked (int true m) value.val (rangeCheck p (int true m) value) := by
  by_cases hmn : (n : ℕ) ≤ m
  · have hstatic : staticRangeCheck (int true m) (int true n) = .containsRange :=
      if_pos (by rw [size_int, size_int]; omega)
    simp only [rangeCheck, hstatic]
    exact checked_of_within value.property (int_within true hmn)
  · have hstatic : staticRangeCheck (int true m) (int true n) = .overlapsRange :=
      if_neg (by rw [size_int, size_int]; omega)
    simp only [rangeCheck, hstatic, isSigned_int]
    have hwithin : (int true m).Within (int true n) := int_within true (Nat.le_of_not_le hmn)
    exact checked_bounds (inUpperBound_eq p value (hwithin.holds (int true m).maxVal.property))
      (compare_ge_eq p value (hwithin.holds (int true m).lowestVal.property))

/-- The limit of a signed type that is no wider fits the unsigned one, unless that is `bool`. -/
theorem rangeCheck_signed_unsigned (m : ℕ+) (hSrc : Src.isSigned = false) :
    Checked (int true m) value.val (rangeCheck p (int true m) value) := by
  have hnonneg := nonneg_of_unsigned hSrc value.property
  have hlower : true = decide ((int true m).lowest ≤ value.val) :=
    (decide_eq_true (Int.le_trans (lowest_nonpos _) hnonneg)).symm
  by_cases hlt : Src.size < m
  · have hstatic : staticRangeCheck (int true m) Src = .containsRange := by
      simp only [staticRangeCheck, isSigned_int, hSrc, size_int]
      exact if_pos (by omega)
    simp only [rangeCheck, hstatic]
    exact checked_of_within value.property (within_signed_of_lt hSrc hlt)
  · have hm := m.pos
    have hstatic : staticRangeCheck (int true m) Src = .overlapsRange := by
      simp only [staticRangeCheck, isSigned_int, hSrc, size_int]
      exact if_neg (by omega)
    simp only [rangeCheck, hstatic, isSigned_int, hSrc, size_int, gt_iff_lt, hlt, if_false]
    refine checked_bounds ?_ hlower
    rcases Src with _ | ⟨_ | _, n⟩
    · -- the limit becomes `true`, which is no limit
      have hle : value.val ≤ 1 := value.property.2
      have hmax := one_le_max (int true m)
      rw [decide_eq_true (Int.le_trans hle hmax), inUpperBound, p.compare_of_isSigned_eq rfl]
      have hwrap : (bool.convert (int true m).max).val = 1 := if_neg (by omega)
      rw [hwrap]
      exact decide_eq_true hle
    · refine inUpperBound_eq p value ?_
      have hnm : m ≤ n := Nat.le_of_not_lt hlt
      have hmax := one_le_max (int true m)
      have hheld : (int false m).Holds (int true m).max :=
        holds_unsigned (int true m).maxVal.property (Int.le_trans (by decide) hmax)
      exact (int_within false hnm).holds hheld
    · exact Bool.noConfusion hSrc

/-- An unsigned type of a size holds what is not negative and no larger, unless it is `bool`. -/
theorem valid_of_size_le {n : ℕ+} (hDst : Dst.isSigned = false) (hsize : n ≤ Dst.size)
    (hv : (int false n).Holds v) : Dst.Holds v ∨ Dst = .bool ∧ 0 ≤ v := by
  rcases Dst with _ | ⟨_ | _, m⟩
  · exact .inr ⟨rfl, hv.1⟩
  · exact .inl ((int_within false hsize).holds hv)
  · exact Bool.noConfusion hDst

theorem rangeCheck_unsigned_unsigned (hDst : Dst.isSigned = false) (hSrc : Src.isSigned = false) :
    Checked Dst value.val (rangeCheck p Dst value) := by
  by_cases hle : Src.size ≤ Dst.size
  · have hstatic : staticRangeCheck Dst Src = .containsRange := by
      simp only [staticRangeCheck, hDst, hSrc]
      exact if_pos hle
    simp only [rangeCheck, hstatic]
    rcases Src with _ | ⟨_ | _, n⟩
    · refine .valid (valid_of_size_le (n := 1) hDst Dst.size_pos ?_)
      exact (bool_within false 1).holds value.property
    · exact .valid (valid_of_size_le hDst hle value.property)
    · exact Bool.noConfusion hSrc
  · have hstatic : staticRangeCheck Dst Src = .overlapsRange := by
      simp only [staticRangeCheck, hDst, hSrc]
      exact if_neg hle
    simp only [rangeCheck, hstatic, hDst, hSrc]
    refine checked_bounds (inUpperBound_eq p value ?_) ?_
    · rcases Src with _ | ⟨_ | _, n⟩
      · exact absurd Dst.size_pos hle
      · exact (within_unsigned hDst (Nat.le_of_not_le hle)).holds Dst.maxVal.property
      · exact Bool.noConfusion hSrc
    · rw [lowest_of_unsigned hDst]
      exact (decide_eq_true (nonneg_of_unsigned hSrc value.property)).symm

theorem rangeCheck_unsigned_signed (n : ℕ+) (value : (int true n).Val)
    (hDst : Dst.isSigned = false) : Checked Dst value.val (rangeCheck p Dst value) := by
  have hstatic : staticRangeCheck Dst (int true n) = .overlapsRange := by
    simp only [staticRangeCheck, isSigned_int, hDst]
  have hlower : p.compare .ge value ((int true n).convert 0) = decide (Dst.lowest ≤ value.val) := by
    rw [lowest_of_unsigned hDst]
    exact compare_ge_eq p value ⟨lowest_nonpos _, Int.le_trans (by decide) (one_le_max _)⟩
  simp only [rangeCheck, hstatic, isSigned_int, hDst, hlower]
  split
  next hexp =>
    have hsize : n ≤ Dst.size := by
      rw [size_int] at hexp
      omega
    by_cases hmin : Dst.lowest ≤ value.val
    · rw [decide_eq_true hmin]
      rw [lowest_of_unsigned hDst] at hmin
      exact .valid (valid_of_size_le hDst hsize (holds_unsigned value.property hmin))
    · rw [decide_eq_false hmin]
      exact .underflow (Int.not_le.mp hmin)
  next hexp =>
    have hlt : Dst.size < n := by
      rw [size_int] at hexp
      omega
    exact checked_bounds
      (inUpperBound_eq p value ((within_signed_of_lt hDst hlt).holds Dst.maxVal.property)) rfl

/-- The range check is right for every pair of types, but for `bool` as a destination. -/
theorem rangeCheck_checked : Checked Dst value.val (rangeCheck p Dst value) := by
  rcases hDst : Dst.isSigned with _ | _
  · rcases hSrc : Src.isSigned with _ | _
    · exact rangeCheck_unsigned_unsigned p value hDst hSrc
    · obtain ⟨n, rfl⟩ := eq_int_of_signed hSrc
      exact rangeCheck_unsigned_signed p n value hDst
  · obtain ⟨m, rfl⟩ := eq_int_of_signed hDst
    rcases hSrc : Src.isSigned with _ | _
    · exact rangeCheck_signed_unsigned p value m hSrc
    · obtain ⟨n, rfl⟩ := eq_int_of_signed hSrc
      exact rangeCheck_signed_signed p m n value

/-- A value that passes the check is representable. For `bool` bytes pass that are not. -/
theorem isValueInRangeForNumericType_iff (hDst : Dst ≠ .bool) :
    isValueInRangeForNumericType p Dst value = true ↔ Dst.Holds value.val := by
  have hchecked : Checked Dst value.val (rangeCheck p Dst value) := rangeCheck_checked p value
  rw [isValueInRangeForNumericType]
  generalize rangeCheck p Dst value = r at hchecked ⊢
  cases hchecked with
  | valid h => exact ⟨fun _ => h.resolve_right fun hbool => hDst hbool.1, fun _ => rfl⟩
  | underflow h => exact ⟨nofun, fun hholds => absurd hholds.1 (Int.not_le.mpr h)⟩
  | overflow h => exact ⟨nofun, fun hholds => absurd hholds.2 (Int.not_le.mpr h)⟩

theorem isValueInRangeForNumericType_byte : int8 false ≠ .bool ∧
    ¬ isValueInRangeForNumericType ⟨4, 8⟩ (int8 false) ((int32 true).convert 300) = true :=
  ⟨by decide, mt (isValueInRangeForNumericType_iff _ _ (by decide)).mp (by decide)⟩

end RangeCheck

/-! ### The casts -/

section Casts

variable (p : Platform) (Dst : IntType) {Src : IntType} (value : Src.Val)

/-- The saturating cast never aborts. It gives the value of the destination type that is nearest. -/
theorem saturatedCast_eq : ∃ r, saturatedCast p Dst value = some r ∧
    r.val = Dst.saturate value.val := by
  have hchecked : Checked Dst value.val (rangeCheck p Dst value) := rangeCheck_checked p value
  unfold saturatedCast
  generalize rangeCheck p Dst value = r at hchecked ⊢
  cases hchecked with
  | valid h =>
    refine ⟨_, rfl, ?_⟩
    rcases h with hholds | ⟨rfl, hnonneg⟩
    · rw [saturate_of_holds hholds]
      exact convert_of_holds hholds
    · exact wrap_bool hnonneg
  | underflow h => exact ⟨_, rfl, (saturate_of_lt h).symm⟩
  | overflow h => exact ⟨_, rfl, (saturate_of_gt h).symm⟩

/-- The saturating cast gives the nearest value, and the checked one aborts or keeps the value,
exactly where the destination type can represent the value. Only the second part fails
elsewhere. -/
theorem casts_sound_iff :
    ((∃ r, saturatedCast p Dst value = some r ∧ r.val = Dst.saturate value.val ∧
        ∀ d : Dst.Val, (value.val - r.val).natAbs ≤ (value.val - d.val).natAbs) ∧
      (checkedCast Dst value = none ∨ ∃ r, checkedCast Dst value = some r ∧ r.val = value.val)) ↔
    Dst.Holds value.val := by
  constructor
  · rintro ⟨-, hnone | ⟨r, hr, hval⟩⟩
    · cases hnone
    · exact hval ▸ r.property
  · intro hholds
    obtain ⟨r, hr, hval⟩ := saturatedCast_eq p Dst value
    refine ⟨⟨r, hr, hval, fun d => ?_⟩, .inr ⟨_, rfl, convert_of_holds hholds⟩⟩
    rw [hval]
    exact saturate_nearest value.val d.property

end Casts

/-- `checked_cast<uint8_t>(300)` returns `44`. -/
theorem checked_cast_truncates :
    ∃ r, checkedCast (int8 false) ((int32 true).convert 300) = some r ∧ r.val = 44 ∧
      r.val ≠ ((int32 true).convert 300).val := by
  refine ⟨_, rfl, ?_, ?_⟩ <;> decide

end CxxKit.SafeConversions
