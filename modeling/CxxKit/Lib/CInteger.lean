import Mathlib.Algebra.Group.Int.Defs
import Mathlib.Algebra.Group.Nat.Defs
import Mathlib.Data.PNat.Notation
import Mathlib.Data.PNat.Defs

/-!
# Integer types of C and C++

An integer type is `bool` or a two's complement type of some size in bytes.  Its values are the
integers it can hold, so that a value carries its range.  `IntType.convert` is the conversion of a
number to a type: `bool` asks whether it is not zero, the others take it modulo a power of two.

`Platform.common` is the type in which the operands of an arithmetic operator meet (the usual
arithmetic conversions), after the promotion of what is narrower than `int`.  It may wrap a negative
operand.  It holds every value of both types if these are both signed or both unsigned, and a
comparison is then that of the numbers (`Platform.compare_of_isSigned_eq`).
-/

namespace CInteger

/-! ### Types and values -/

/-- `bool`, or the signed or unsigned type of `size` bytes. -/
inductive IntType where
  | bool
  | int (signed : Bool) (size : ℕ+)
  deriving DecidableEq

namespace IntType

/-- `int8_t` and `uint8_t`. -/
abbrev int8 (signed : Bool) : IntType := int signed 1

/-- `int16_t` and `uint16_t`. -/
abbrev int16 (signed : Bool) : IntType := int signed 2

/-- `int32_t` and `uint32_t`. -/
abbrev int32 (signed : Bool) : IntType := int signed 4

/-- `int64_t` and `uint64_t`. -/
abbrev int64 (signed : Bool) : IntType := int signed 8

/-- `sizeof`. -/
def size : IntType → ℕ
  | bool => 1
  | int _ size => size

theorem size_pos (T : IntType) : 0 < T.size := by
  cases T with
  | bool => exact Nat.zero_lt_one
  | int s n => exact n.pos

def isSigned : IntType → Bool
  | bool => false
  | int signed _ => signed

@[simp]
theorem size_int (s : Bool) (n : ℕ+) : (int s n).size = n := rfl

@[simp]
theorem isSigned_int (s : Bool) (n : ℕ+) : (int s n).isSigned = s := rfl

def lowest : IntType → ℤ
  | int true size => -2 ^ (8 * (size : ℕ) - 1)
  | _ => 0

def max : IntType → ℤ
  | bool => 1
  | int true size => 2 ^ (8 * (size : ℕ) - 1) - 1
  | int false size => 2 ^ (8 * (size : ℕ)) - 1

/-- The type can represent the number. -/
def Holds (T : IntType) (v : ℤ) : Prop := T.lowest ≤ v ∧ v ≤ T.max

instance (T : IntType) (v : ℤ) : Decidable (T.Holds v) := inferInstanceAs (Decidable (_ ∧ _))

abbrev Val (T : IntType) := { v : ℤ // T.Holds v }

/-- Every number of `A` is one of `B`. -/
def Within (A B : IntType) : Prop := B.lowest ≤ A.lowest ∧ A.max ≤ B.max

variable {A B T : IntType} {v : ℤ} {n m : ℕ+}

theorem Within.holds (h : A.Within B) (hv : A.Holds v) : B.Holds v :=
  ⟨Int.le_trans h.1 hv.1, Int.le_trans hv.2 h.2⟩

theorem Within.refl (A : IntType) : A.Within A := ⟨Int.le_refl _, Int.le_refl _⟩

theorem Within.trans {C : IntType} (h : A.Within B) (h' : B.Within C) : A.Within C :=
  ⟨Int.le_trans h'.1 h.1, Int.le_trans h.2 h'.2⟩

/-- Half the numbers of a signed type are negative. -/
theorem two_pow_bits (size : ℕ+) : (2 : ℤ) ^ (8 * (size : ℕ)) = 2 * 2 ^ (8 * (size : ℕ) - 1) := by
  have hpos := size.pos
  rw [← Int.pow_succ']
  congr 1
  omega

theorem two_pow_pos (n : ℕ) : (0 : ℤ) < 2 ^ n := Int.pow_pos (by decide)

theorem two_pow_le {m n : ℕ} (h : m ≤ n) : (2 : ℤ) ^ m ≤ 2 ^ n := by
  exact_mod_cast Nat.pow_le_pow_right (by decide) h

theorem int_within (s : Bool) (h : (m : ℕ) ≤ n) : (int s m).Within (int s n) := by
  cases s with
  | false =>
    have hpow := two_pow_le (show 8 * (m : ℕ) ≤ 8 * n by omega)
    exact ⟨Int.le_refl _, by simp only [max]; omega⟩
  | true =>
    have hpow := two_pow_le (show 8 * (m : ℕ) - 1 ≤ 8 * n - 1 by omega)
    exact ⟨by simp only [lowest]; omega, by simp only [max]; omega⟩

/-- A wider signed type holds what an unsigned one does. -/
theorem unsigned_within_signed (h : (m : ℕ) < n) : (int false m).Within (int true n) := by
  have hpow := two_pow_le (show 8 * (m : ℕ) ≤ 8 * n - 1 by omega)
  have hpos := two_pow_pos (8 * n - 1)
  exact ⟨by simp only [lowest]; omega, by simp only [max]; omega⟩

theorem bool_within (s : Bool) (n : ℕ+) : bool.Within (int s n) := by
  have hn := n.pos
  cases s with
  | false =>
    have hpow := two_pow_le (show 1 ≤ 8 * (n : ℕ) by omega)
    exact ⟨Int.le_refl _, by simp only [max]; omega⟩
  | true =>
    have hpow := two_pow_le (show 1 ≤ 8 * (n : ℕ) - 1 by omega)
    exact ⟨by simp only [lowest]; omega, by simp only [max]; omega⟩

theorem within_signed_of_lt (hT : T.isSigned = false) (hn : T.size < n) :
    T.Within (int true n) := by
  rcases T with _ | ⟨_ | _, m⟩
  · exact bool_within true n
  · exact unsigned_within_signed hn
  · exact Bool.noConfusion hT

theorem within_unsigned (hT : T.isSigned = false) (hn : T.size ≤ n) : T.Within (int false n) := by
  rcases T with _ | ⟨_ | _, m⟩
  · exact bool_within false n
  · exact int_within false hn
  · exact Bool.noConfusion hT

theorem within_signed (hT : T.isSigned = true) (hn : T.size ≤ n) : T.Within (int true n) := by
  rcases T with _ | ⟨_ | _, m⟩
  · exact Bool.noConfusion hT
  · exact Bool.noConfusion hT
  · exact int_within true hn

/-- What is not negative fits the unsigned type of the same size. -/
theorem holds_unsigned {s : Bool} (hv : (int s n).Holds v) (h0 : 0 ≤ v) :
    (int false n).Holds v := by
  cases s with
  | false => exact hv
  | true =>
    have hmax : v ≤ 2 ^ (8 * (n : ℕ) - 1) - 1 := hv.2
    have hbits := two_pow_bits n
    exact ⟨h0, by simp only [max]; omega⟩

theorem nonneg_of_unsigned (hT : T.isSigned = false) (hv : T.Holds v) : 0 ≤ v := by
  rcases T with _ | ⟨_ | _, n⟩
  · exact hv.1
  · exact hv.1
  · exact Bool.noConfusion hT

theorem eq_int_of_signed (hT : T.isSigned = true) : ∃ n, T = int true n := by
  rcases T with _ | ⟨_ | _, n⟩
  · exact Bool.noConfusion hT
  · exact Bool.noConfusion hT
  · exact ⟨n, rfl⟩

theorem lowest_of_unsigned (hT : T.isSigned = false) : T.lowest = 0 := by
  rcases T with _ | ⟨_ | _, n⟩
  · rfl
  · rfl
  · exact Bool.noConfusion hT

theorem max_le_unsigned (hn : T.size ≤ n) : T.max ≤ (int false n).max := by
  rcases T with _ | ⟨_ | _, m⟩
  · exact (bool_within false n).2
  · exact (int_within false hn).2
  · have hpow := two_pow_le (show 8 * (m : ℕ) - 1 ≤ 8 * n by simp only [size] at hn; omega)
    simp only [max]
    omega

theorem isSigned_of_lowest_neg (h : T.lowest < 0) : T.isSigned = true := by
  rcases T with _ | ⟨_ | _, m⟩
  · exact absurd h (Int.lt_irrefl 0)
  · exact absurd h (Int.lt_irrefl 0)
  · rfl

section

variable (T)

theorem lowest_nonpos : T.lowest ≤ 0 := by
  rcases T with _ | ⟨_ | _, n⟩
  · exact Int.le_refl 0
  · exact Int.le_refl 0
  · have hpos := two_pow_pos (8 * n - 1)
    simp only [lowest]
    omega

theorem one_le_max : 1 ≤ T.max := by
  rcases T with _ | ⟨s, n⟩
  · exact Int.le_refl 1
  · exact (bool_within s n).2

def lowestVal (T : IntType) : T.Val :=
  ⟨T.lowest, Int.le_refl _, Int.le_trans T.lowest_nonpos
    (Int.le_trans (Int.le_of_lt Int.zero_lt_one) T.one_le_max)⟩

def maxVal (T : IntType) : T.Val :=
  ⟨T.max, Int.le_trans T.lowest_nonpos
    (Int.le_trans (Int.le_of_lt Int.zero_lt_one) T.one_le_max), Int.le_refl _⟩

@[simp]
theorem lowestVal_val : T.lowestVal.val = T.lowest := rfl

@[simp]
theorem maxVal_val : T.maxVal.val = T.max := rfl

/-- `numeric_limits<T>::digits`. -/
def digits : IntType → ℕ
  | bool => 1
  | int true size => 8 * size - 1
  | int false size => 8 * size

theorem max_eq : T.max = 2 ^ T.digits - 1 := by
  rcases T with _ | ⟨_ | _, n⟩ <;> rfl

/-- Two types with the same maximum are the same type. -/
theorem eq_of_max_eq (h : A.max = B.max) : A = B := by
  have hdigits : A.digits = B.digits := by
    rw [max_eq, max_eq] at h
    have hpow : (2 : ℕ) ^ A.digits = 2 ^ B.digits := by
      have hint : (2 : ℤ) ^ A.digits = 2 ^ B.digits := by omega
      exact_mod_cast hint
    exact Nat.pow_right_injective (Nat.le_refl 2) hpow
  rcases A with _ | ⟨_ | _, m⟩ <;> rcases B with _ | ⟨_ | _, n⟩ <;>
    simp only [digits] at hdigits
  case bool.bool => rfl
  case int.false.int.false => exact congrArg _ (PNat.eq (by omega))
  case int.true.int.true =>
    exact congrArg _ (PNat.eq (by omega))
  case int.false.int.true =>
    have hm := m.pos
    omega
  case int.true.int.false =>
    have hn := n.pos
    omega
  all_goals omega

/-! ### Conversion -/

/-- The number that `static_cast<T>` gives: `bool` is whether it is not zero, the other types
take it modulo the power of two of their width. -/
def wrap : IntType → ℤ → ℤ
  | bool, v => if v = 0 then 0 else 1
  | int true size, v => v.bmod (2 ^ (8 * (size : ℕ)))
  | int false size, v => v % 2 ^ (8 * (size : ℕ))

theorem holds_wrap (v : ℤ) : T.Holds (T.wrap v) := by
  rcases T with _ | ⟨_ | _, n⟩
  · simp only [wrap]
    split <;> decide
  · have hpos := two_pow_pos (8 * (n : ℕ))
    exact ⟨Int.emod_nonneg v (Int.ne_of_gt hpos), by simp only [wrap, max]; omega⟩
  · have hbits := two_pow_bits n
    have hpos : 0 < 2 ^ (8 * (n : ℕ)) := Nat.pow_pos (by decide)
    have hle := Int.le_bmod (x := v) hpos
    have hlt := Int.bmod_lt (x := v) hpos
    push_cast at hle hlt
    exact ⟨by simp only [wrap, lowest]; omega, by simp only [wrap, max]; omega⟩

end

def convert (T : IntType) (v : ℤ) : T.Val := ⟨T.wrap v, T.holds_wrap v⟩

/-- A number that the type holds is not changed. -/
theorem wrap_of_holds (hv : T.Holds v) : T.wrap v = v := by
  rcases T with _ | ⟨_ | _, n⟩
  · have hlow : 0 ≤ v := hv.1
    have hhigh : v ≤ 1 := hv.2
    simp only [wrap]
    split <;> omega
  · have hmax : v ≤ 2 ^ (8 * (n : ℕ)) - 1 := hv.2
    exact Int.emod_eq_of_lt hv.1 (by omega)
  · have hmin : -2 ^ (8 * (n : ℕ) - 1) ≤ v := hv.1
    have hmax : v ≤ 2 ^ (8 * (n : ℕ) - 1) - 1 := hv.2
    have hbits := two_pow_bits n
    apply Int.bmod_eq_of_le <;> push_cast <;> omega

/-- The number of the type that is nearest to a number. -/
def saturate (T : IntType) (v : ℤ) : ℤ := Max.max T.lowest (min v T.max)

theorem saturate_of_holds (hv : T.Holds v) : T.saturate v = v := by
  unfold saturate Holds at *
  omega

theorem saturate_of_lt (hv : v < T.lowest) : T.saturate v = T.lowest := by
  have hle := T.lowestVal.property.2
  simp only [saturate, lowestVal_val] at *
  omega

theorem saturate_of_gt (hv : T.max < v) : T.saturate v = T.max := by
  have hle := T.lowestVal.property.2
  simp only [saturate, lowestVal_val] at *
  omega

/-- No other number of the type is nearer. -/
theorem saturate_nearest {d : ℤ} (v : ℤ) (hd : T.Holds d) :
    (v - T.saturate v).natAbs ≤ (v - d).natAbs := by
  unfold saturate Holds at *
  omega

/-- The conversion to `bool` saturates above zero. -/
theorem wrap_bool (hv : 0 ≤ v) : bool.wrap v = bool.saturate v := by
  simp only [wrap, saturate, lowest, max]
  split <;> omega

theorem convert_of_holds (hv : T.Holds v) : (T.convert v).val = v :=
  wrap_of_holds hv

end IntType

/-! ### Comparison operators -/

/-- The six comparison operators. -/
inductive Comparison where
  | eq
  | ne
  | lt
  | le
  | gt
  | ge
  deriving DecidableEq

/-- The operator on the numbers themselves. -/
def Comparison.eval : Comparison → ℤ → ℤ → Bool
  | eq, a, b => a = b
  | ne, a, b => a ≠ b
  | lt, a, b => a < b
  | le, a, b => a ≤ b
  | gt, a, b => a > b
  | ge, a, b => a ≥ b

/-- The operators see only how the two numbers are ordered. -/
theorem Comparison.eval_congr {a b c d : ℤ} (op : Comparison) (hlt : a < b ↔ c < d)
    (hgt : b < a ↔ d < c) : op.eval a b = op.eval c d := by
  rw [Bool.eq_iff_iff]
  cases op <;> simp only [eval, decide_eq_true_eq] <;> omega

/-- The sizes that an implementation is free to choose. -/
structure Platform where
  intSize : ℕ+
  pointerSize : ℕ+
  deriving DecidableEq

namespace Platform

open IntType

variable (p : Platform) {A B : IntType}

/-- `int`. -/
def intType : IntType := int true p.intSize

/-- Integral promotion: what is narrower than `int` becomes `int`. -/
def promote : IntType → IntType
  | .bool => p.intType
  | .int signed size => if (size : ℕ) < p.intSize then p.intType else .int signed size

/-- The usual arithmetic conversions of two operands. -/
def common (A B : IntType) : IntType :=
  let A' := p.promote A
  let B' := p.promote B
  if A'.isSigned = B'.isSigned then
    if A'.size ≤ B'.size then B' else A'
  else
    let s := if A'.isSigned then A' else B'
    let u := if A'.isSigned then B' else A'
    if s.size ≤ u.size then u else s

/-- A built-in comparison: the operands are converted to their common type. -/
def compare {A B : IntType} (op : Comparison) (a : A.Val) (b : B.Val) : Bool :=
  op.eval ((p.common A B).convert a.val).val ((p.common A B).convert b.val).val

/-- A promoted operand keeps its number, is no narrower, and is unsigned only if it was. -/
theorem promote_spec (T : IntType) : ∃ s n, p.promote T = int s n ∧ T.Within (int s n) ∧
    T.size ≤ n ∧ (s = false → T.isSigned = false) := by
  cases T with
  | bool => exact ⟨true, p.intSize, rfl, bool_within true p.intSize, p.intSize.pos, nofun⟩
  | int s n =>
    by_cases hlt : (n : ℕ) < p.intSize
    · refine ⟨true, p.intSize, if_pos hlt, ?_, Nat.le_of_lt hlt, nofun⟩
      cases s with
      | false => exact unsigned_within_signed hlt
      | true => exact int_within true (Nat.le_of_lt hlt)
    · exact ⟨s, n, if_neg hlt, Within.refl _, Nat.le_refl _, id⟩

theorem within_promote (T : IntType) : T.Within (p.promote T) := by
  obtain ⟨s, n, heq, hwithin, -⟩ := p.promote_spec T
  exact heq ▸ hwithin

/-- Operands that are both signed or both unsigned keep their numbers in the common type. -/
theorem within_common (h : A.isSigned = B.isSigned) :
    A.Within (p.common A B) ∧ B.Within (p.common A B) := by
  obtain ⟨s, m, hA, hwA, hmA, hsA⟩ := p.promote_spec A
  obtain ⟨t, n, hB, hwB, hnB, htB⟩ := p.promote_spec B
  simp only [common, hA, hB, isSigned, size]
  by_cases hst : s = t
  · subst hst
    rw [if_pos rfl]
    by_cases hmn : (m : ℕ) ≤ n
    · rw [if_pos hmn]
      exact ⟨hwA.trans (int_within s hmn), hwB⟩
    · rw [if_neg hmn]
      exact ⟨hwA, hwB.trans (int_within s (Nat.le_of_not_le hmn))⟩
  · cases s with
    | true =>
      obtain rfl : t = false := by simpa using Ne.symm hst
      by_cases hmn : (m : ℕ) ≤ n
      · simp only [if_true, hmn]
        exact ⟨within_unsigned (h.trans (htB rfl)) (Nat.le_trans hmA hmn), hwB⟩
      · simp only [if_true, hmn, if_false]
        exact ⟨hwA, hwB.trans (unsigned_within_signed (Nat.lt_of_not_le hmn))⟩
    | false =>
      obtain rfl : t = true := by simpa using Ne.symm hst
      by_cases hmn : (n : ℕ) ≤ m
      · simp only [Bool.false_eq_true, if_false, hmn, if_true]
        exact ⟨hwA, within_unsigned (h.symm.trans (hsA rfl)) (Nat.le_trans hnB hmn)⟩
      · simp only [Bool.false_eq_true, if_false, hmn]
        exact ⟨hwA.trans (unsigned_within_signed (Nat.lt_of_not_le hmn)), hwB⟩

/-- A built-in comparison of two signed or of two unsigned operands is exact. -/
theorem compare_of_isSigned_eq (h : A.isSigned = B.isSigned) (op : Comparison) (a : A.Val)
    (b : B.Val) : p.compare op a b = op.eval a.val b.val := by
  obtain ⟨hA, hB⟩ := p.within_common h
  rw [compare, convert_of_holds (hA.holds a.property), convert_of_holds (hB.holds b.property)]

end Platform

end CInteger
