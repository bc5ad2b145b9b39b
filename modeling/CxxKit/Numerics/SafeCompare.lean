import CxxKit.Lib.CInteger

/-!
# Comparisons across signedness

`safe_eq`, `safe_ne`, `safe_lt`, `safe_le`, `safe_gt` and `safe_ge` of `safe_compare.hpp`, for
integers of any two types.  C++ converts a signed operand to the unsigned type of the other one when
that is no narrower, and `-1 < 0u` is then false.  `cmp` avoids the conversion.  It widens the
unsigned operand to a signed type if there is one of a suitable size, and otherwise looks at the
sign of the signed operand first.

An enumeration takes part as its underlying type, which the unary plus turns it into.
-/

namespace CxxKit.SafeCompare

open CInteger CInteger.IntType Comparison

/-- `LargerIntImpl<N>::type`, for the sizes of `int8_t`, `int16_t` and `int32_t`. -/
def largerIntImpl : ℕ → Option IntType
  | 1 => some (int16 true)
  | 2 => some (int32 true)
  | 4 => some (int64 true)
  | _ => none

/-- `LargerInt<T1, T2>`. -/
def largerInt (p : Platform) (T1 T2 : IntType) : Option IntType :=
  largerIntImpl (if T1.size < T2.size ∨ T1.size < p.pointerSize then T1.size else 0)

/-- `std::make_unsigned<T>::type`. It is not defined for `bool`, which a promoted operand never
is. -/
def unsignedType : IntType → IntType
  | .bool => .bool
  | .int _ size => .int false size

/-- `make_unsigned`. -/
def makeUnsigned {T : IntType} (a : T.Val) : (unsignedType T).Val := (unsignedType T).convert a.val

/-- A literal of type `int`. -/
def literal (p : Platform) (v : ℤ) : p.intType.Val := p.intType.convert v

/-- The five overloads of `cmp`, chosen by the signedness of the operands and by whether there is a
larger signed type. -/
def cmp (p : Platform) (op : Comparison) {T1 T2 : IntType} (a : T1.Val) (b : T2.Val) : Bool :=
  if T1.isSigned = T2.isSigned then p.compare op a b
  else if T1.isSigned then
    match largerInt p T2 T1 with
    | some L => p.compare op a (L.convert b.val)
    | none =>
      if p.compare .lt a (literal p 0) then p.compare op (literal p (-1)) (literal p 0)
      else p.compare op (makeUnsigned a) b
  else
    match largerInt p T1 T2 with
    | some L => p.compare op (L.convert a.val) b
    | none =>
      if p.compare .lt b (literal p 0) then p.compare op (literal p 0) (literal p (-1))
      else p.compare op a (makeUnsigned b)

/-- The unary plus: integral promotion. -/
def unaryPlus (p : Platform) {T : IntType} (a : T.Val) : (p.promote T).Val :=
  (p.promote T).convert a.val

/-- The body that the six functions share. -/
def safeCmp (p : Platform) (op : Comparison) {T1 T2 : IntType} (a : T1.Val) (b : T2.Val) : Bool :=
  cmp p op (unaryPlus p a) (unaryPlus p b)

section Functions

variable (p : Platform) {T1 T2 : IntType} (a : T1.Val) (b : T2.Val)

def safeEq : Bool := safeCmp p .eq a b

def safeNe : Bool := safeCmp p .ne a b

def safeLt : Bool := safeCmp p .lt a b

def safeLe : Bool := safeCmp p .le a b

def safeGt : Bool := safeCmp p .gt a b

def safeGe : Bool := safeCmp p .ge a b

end Functions

/-! ### Exactness -/

variable (p : Platform)

variable (op : Comparison) {T T1 T2 : IntType} {a b : ℤ}

/-- The larger type holds every value of the unsigned type it is larger than. -/
theorem largerInt_spec {p : Platform} {T1 T2 L : IntType} (hT : T1.isSigned = false)
    (hL : largerInt p T1 T2 = some L) : L.isSigned = true ∧ T1.Within L := by
  have hsize : ∃ n : ℕ+, T1.size < n ∧ L = int true n := by
    unfold largerInt at hL
    split at hL
    · unfold largerIntImpl at hL
      split at hL
      next heq => exact ⟨2, by rw [heq]; decide, Option.some.inj hL.symm⟩
      next heq => exact ⟨4, by rw [heq]; decide, Option.some.inj hL.symm⟩
      next heq => exact ⟨8, by rw [heq]; decide, Option.some.inj hL.symm⟩
      next => cases hL
    · cases hL
  obtain ⟨n, hlt, rfl⟩ := hsize
  exact ⟨rfl, within_signed_of_lt hT hlt⟩

theorem literal_val {v : ℤ} (hlow : -1 ≤ v) (hhigh : v ≤ 1) : (literal p v).val = v := by
  refine convert_of_holds ⟨?_, Int.le_trans hhigh (one_le_max _)⟩
  have hpos := two_pow_pos (8 * p.intSize - 1)
  simp only [Platform.intType, lowest]
  omega

/-- `make_unsigned` keeps a number that is not negative. -/
theorem makeUnsigned_val {a : T.Val} (h0 : 0 ≤ a.val) : (makeUnsigned a).val = a.val := by
  cases T with
  | bool => exact convert_of_holds a.property
  | int s n => exact convert_of_holds (holds_unsigned a.property h0)

theorem isSigned_unsignedType (T : IntType) : (unsignedType T).isSigned = false := by
  cases T <;> rfl

theorem compare_zero (hT : T.isSigned = true) (a : T.Val) :
    p.compare .lt a (literal p 0) = decide (a.val < 0) := by
  rw [p.compare_of_isSigned_eq hT, literal_val p (by decide) (by decide)]
  rfl

/-- A negative number is to every number that is not negative as `-1` is to `0`. -/
theorem eval_neg_left (ha : a < 0) (hb : 0 ≤ b) : op.eval (-1) 0 = op.eval a b :=
  op.eval_congr (by omega) (by omega)

theorem eval_neg_right (ha : 0 ≤ a) (hb : b < 0) : op.eval 0 (-1) = op.eval a b :=
  op.eval_congr (by omega) (by omega)

theorem compare_literals {v w : ℤ} (hv : -1 ≤ v ∧ v ≤ 1) (hw : -1 ≤ w ∧ w ≤ 1) :
    p.compare op (literal p v) (literal p w) = op.eval v w := by
  rw [p.compare_of_isSigned_eq rfl, literal_val p hv.1 hv.2, literal_val p hw.1 hw.2]

theorem cmp_eq (a : T1.Val) (b : T2.Val) : cmp p op a b = op.eval a.val b.val := by
  unfold cmp
  by_cases hsame : T1.isSigned = T2.isSigned
  · rw [if_pos hsame, p.compare_of_isSigned_eq hsame]
  rw [if_neg hsame]
  by_cases h1 : T1.isSigned = true
  · have h2 : T2.isSigned = false := by simpa [h1] using Ne.symm hsame
    rw [if_pos h1]
    split
    next L hL =>
      obtain ⟨hsigned, hwithin⟩ := largerInt_spec h2 hL
      rw [p.compare_of_isSigned_eq (h1.trans hsigned.symm),
        convert_of_holds (hwithin.holds b.property)]
    next =>
      rw [compare_zero p h1]
      by_cases hneg : a.val < 0
      · rw [if_pos (decide_eq_true hneg), compare_literals p op (by decide) (by decide)]
        exact eval_neg_left op hneg (nonneg_of_unsigned h2 b.property)
      · rw [if_neg (by simpa using hneg),
          p.compare_of_isSigned_eq ((isSigned_unsignedType T1).trans h2.symm),
          makeUnsigned_val (Int.not_lt.mp hneg)]
  · have h1' : T1.isSigned = false := Bool.eq_false_iff.mpr h1
    have h2 : T2.isSigned = true := by simpa [h1'] using Ne.symm hsame
    rw [if_neg h1]
    split
    next L hL =>
      obtain ⟨hsigned, hwithin⟩ := largerInt_spec h1' hL
      rw [p.compare_of_isSigned_eq (hsigned.trans h2.symm),
        convert_of_holds (hwithin.holds a.property)]
    next =>
      rw [compare_zero p h2]
      by_cases hneg : b.val < 0
      · rw [if_pos (decide_eq_true hneg), compare_literals p op (by decide) (by decide)]
        exact eval_neg_right op (nonneg_of_unsigned h1' a.property) hneg
      · rw [if_neg (by simpa using hneg),
          p.compare_of_isSigned_eq (h1'.trans (isSigned_unsignedType T2).symm),
          makeUnsigned_val (Int.not_lt.mp hneg)]

theorem unaryPlus_val (a : T.Val) : (unaryPlus p a).val = a.val :=
  convert_of_holds ((p.within_promote T).holds a.property)

theorem safeCmp_eq (a : T1.Val) (b : T2.Val) : safeCmp p op a b = op.eval a.val b.val := by
  rw [safeCmp, cmp_eq, unaryPlus_val, unaryPlus_val]

section Functions

variable (a : T1.Val) (b : T2.Val)

@[simp]
theorem safeEq_iff : safeEq p a b = true ↔ a.val = b.val := by
  rw [safeEq, safeCmp_eq, eval, decide_eq_true_iff]

@[simp]
theorem safeNe_iff : safeNe p a b = true ↔ a.val ≠ b.val := by
  rw [safeNe, safeCmp_eq, eval, decide_eq_true_iff]

@[simp]
theorem safeLt_iff : safeLt p a b = true ↔ a.val < b.val := by
  rw [safeLt, safeCmp_eq, eval, decide_eq_true_iff]

@[simp]
theorem safeLe_iff : safeLe p a b = true ↔ a.val ≤ b.val := by
  rw [safeLe, safeCmp_eq, eval, decide_eq_true_iff]

@[simp]
theorem safeGt_iff : safeGt p a b = true ↔ a.val > b.val := by
  rw [safeGt, safeCmp_eq, eval, decide_eq_true_iff]

@[simp]
theorem safeGe_iff : safeGe p a b = true ↔ a.val ≥ b.val := by
  rw [safeGe, safeCmp_eq, eval, decide_eq_true_iff]

end Functions

-- the built-in `-1 < 0u` converts the first operand
example : (⟨4, 8⟩ : Platform).compare .lt ((int32 true).convert (-1)) ((int32 false).convert 0) =
    false := by
  decide

/-- On every platform, for operands of any two integer types, each function is the comparison of the
numbers. If one type only is signed, a negative operand is decided first, and what is left fits the
unsigned types that C++ then compares. -/
theorem safe_comparisons_exact (p : Platform) (T1 T2 : IntType) (a : T1.Val) (b : T2.Val) :
    (safeEq p a b = true ↔ a.val = b.val) ∧ (safeNe p a b = true ↔ a.val ≠ b.val) ∧
      (safeLt p a b = true ↔ a.val < b.val) ∧ (safeLe p a b = true ↔ a.val ≤ b.val) ∧
      (safeGt p a b = true ↔ a.val > b.val) ∧ (safeGe p a b = true ↔ a.val ≥ b.val) := by
  exact ⟨safeEq_iff p a b, safeNe_iff p a b, safeLt_iff p a b, safeLe_iff p a b, safeGt_iff p a b,
    safeGe_iff p a b⟩

end CxxKit.SafeCompare
