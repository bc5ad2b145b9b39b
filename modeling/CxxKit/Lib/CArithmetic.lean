import CxxKit.Lib.CInteger

/-!
# Arithmetic operators of C and C++

The operands of an operator are converted to their common type, and the result is of that type.  A
result that the type cannot hold is none, be the type signed (where the behaviour is undefined) or
not (where the number wraps); so a computation with a result is one in which nothing leaves its
type.

An operand that meets an `int` keeps its number: the common type is then its promoted type
(`Platform.common_intType`).
-/

namespace CInteger

/-- The value of a type that is a number, if there is one. -/
def IntType.exact (T : IntType) (v : ℤ) : Option T.Val :=
  if h : T.Holds v then some ⟨v, h⟩ else none

theorem IntType.exact_of_holds {T : IntType} {v : ℤ} (h : T.Holds v) : T.exact v = some ⟨v, h⟩ :=
  dif_pos h

namespace Platform

open IntType

variable (p : Platform) {A B : IntType}

/-- An operator on the numbers, applied to operands of any types. -/
def arith (f : ℤ → ℤ → ℤ) (a : A.Val) (b : B.Val) : Option (p.common A B).Val :=
  (p.common A B).exact
    (f ((p.common A B).convert a.val).val ((p.common A B).convert b.val).val)

/-- `a + b`. -/
def add (a : A.Val) (b : B.Val) : Option (p.common A B).Val := p.arith (· + ·) a b

/-- `a - b`. -/
def sub (a : A.Val) (b : B.Val) : Option (p.common A B).Val := p.arith (· - ·) a b

/-- `a / b`, which cuts off the fraction. -/
def divide (a : A.Val) (b : B.Val) : Option (p.common A B).Val :=
  if ((p.common A B).convert b.val).val = 0 then none else p.arith Int.tdiv a b

/-- `a % b`. -/
def modulo (a : A.Val) (b : B.Val) : Option (p.common A B).Val :=
  if ((p.common A B).convert b.val).val = 0 then none else p.arith Int.tmod a b

/-- `-a`. -/
def negate (a : A.Val) : Option (p.promote A).Val :=
  (p.promote A).exact (-((p.promote A).convert a.val).val)

/-! ### Operands that keep their numbers -/

/-- Both operands keep their numbers in the common type. -/
def Keeps (a : A.Val) (b : B.Val) : Prop :=
  (p.common A B).Holds a.val ∧ (p.common A B).Holds b.val

variable {p} {a : A.Val} {b : B.Val}

theorem keeps_of_isSigned_eq (h : A.isSigned = B.isSigned) (a : A.Val) (b : B.Val) :
    p.Keeps a b := by
  obtain ⟨hA, hB⟩ := p.within_common h
  exact ⟨hA.holds a.property, hB.holds b.property⟩

theorem arith_of_keeps (h : p.Keeps a b) {f : ℤ → ℤ → ℤ}
    (hf : (p.common A B).Holds (f a.val b.val)) :
    p.arith f a b = some ⟨f a.val b.val, hf⟩ := by
  rw [arith, convert_of_holds h.1, convert_of_holds h.2, exact_of_holds hf]

theorem divide_of_keeps (h : p.Keeps a b) (hb : b.val ≠ 0)
    (hf : (p.common A B).Holds (a.val.tdiv b.val)) :
    p.divide a b = some ⟨a.val.tdiv b.val, hf⟩ := by
  rw [divide, convert_of_holds h.2, if_neg hb, arith_of_keeps h hf]

theorem modulo_of_keeps (h : p.Keeps a b) (hb : b.val ≠ 0)
    (hf : (p.common A B).Holds (a.val.tmod b.val)) :
    p.modulo a b = some ⟨a.val.tmod b.val, hf⟩ := by
  rw [modulo, convert_of_holds h.2, if_neg hb, arith_of_keeps h hf]

theorem negate_of_holds (hf : (p.promote A).Holds (-a.val)) : p.negate a = some ⟨-a.val, hf⟩ := by
  rw [negate, convert_of_holds ((p.within_promote A).holds a.property), exact_of_holds hf]

theorem compare_of_keeps (h : p.Keeps a b) (op : Comparison) :
    p.compare op a b = op.eval a.val b.val := by
  rw [compare, convert_of_holds h.1, convert_of_holds h.2]

/-! ### Operands of type `int` -/

/-- A promoted type is no narrower than `int`. -/
theorem promote_eq (T : IntType) :
    p.promote T = p.intType ∨ ∃ s n, p.promote T = int s n ∧ (p.intSize : ℕ) ≤ n := by
  cases T with
  | bool => exact .inl rfl
  | int s n =>
    by_cases hlt : (n : ℕ) < p.intSize
    · exact .inl (if_pos hlt)
    · exact .inr ⟨s, n, if_neg hlt, Nat.le_of_not_lt hlt⟩

theorem promote_intType : p.promote p.intType = p.intType := if_neg (Nat.lt_irrefl _)

/-- What meets an `int` is promoted and otherwise stays what it is. -/
theorem common_intType (T : IntType) : p.common T p.intType = p.promote T := by
  simp only [common, promote_intType]
  rcases promote_eq T with h | ⟨s, n, h, hn⟩
  · rw [h]
    simp
  · rw [h]
    cases s with
    | true =>
      rw [if_pos (show (int true n).isSigned = p.intType.isSigned from rfl)]
      by_cases hle : (int true n).size ≤ p.intType.size
      · rw [if_pos hle, intType, PNat.eq (Nat.le_antisymm hn hle)]
      · rw [if_neg hle]
    | false => simp [intType, hn]

theorem holds_small {T : IntType} {v : ℤ} (h0 : 0 ≤ v) (h : v ≤ 127) : (p.promote T).Holds v := by
  have hint : ∀ s n, (int s n).Holds v := by
    intro s n
    have hn := n.pos
    refine ⟨Int.le_trans (lowest_nonpos _) h0, Int.le_trans h ?_⟩
    have hpow := two_pow_le (show 7 ≤ 8 * (n : ℕ) - 1 by omega)
    cases s with
    | true =>
      simp only [IntType.max]
      omega
    | false =>
      have hbits := two_pow_bits n
      simp only [IntType.max]
      omega
  obtain ⟨s, n, heq, -⟩ := p.promote_spec T
  rw [heq]
  exact hint s n

theorem keeps_small {b : p.intType.Val} (h0 : 0 ≤ b.val) (h : b.val ≤ 127) (a : A.Val) :
    p.Keeps a b := by
  rw [Keeps, common_intType]
  exact ⟨(p.within_promote A).holds a.property, holds_small h0 h⟩

end Platform

end CInteger
