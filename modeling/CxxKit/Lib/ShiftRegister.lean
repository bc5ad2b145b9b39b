import Mathlib.Algebra.CharP.Two
import Mathlib.Algebra.Field.ZMod
import Mathlib.Algebra.Polynomial.Div
import Mathlib.Tactic.LinearCombination
import Mathlib.Tactic.Ring

/-!
Linear feedback shift registers and division of polynomials over the field of two elements.

The bit `i` of a register of `w` bits is the coefficient of `X ^ (w - 1 - i)`: the register is
reflected, and what falls out at its low end is the coefficient that overflows.  A shift multiplies
by `X` modulo the `generator`, whose coefficients below `X ^ w` are the feedback `g`.  Feeding in
the bits of a message divides it, and `toPoly_feedAll` says by what and with which remainder.
-/

namespace ShiftRegister

open Finset Polynomial

variable {w n : Nat} (g : BitVec w) {b : BitVec w}

section

variable (c : BitVec w)

/-- One shift: the feedback is added if a one falls out. -/
def shift : BitVec w := if c.getLsbD 0 then g ^^^ (c >>> 1) else c >>> 1

def shifts : Nat → BitVec w → BitVec w
  | 0, c => c
  | n + 1, c => shifts n (shift g c)

/-- The register that holds a bit at its low end. -/
def unit (b : Bool) : BitVec w := (BitVec.ofBool b).setWidth w

/-- The next bit of a message is added to the one that falls out. -/
def feed (b : Bool) : BitVec w := shift g (c ^^^ unit b)

def feedAll (bits : List Bool) : BitVec w := bits.foldl (feed g) c

/-- The `n` low bits, the lowest one first. -/
def lowBits : Nat → BitVec w → List Bool
  | 0, _ => []
  | n + 1, b => b.getLsbD 0 :: lowBits n (b >>> 1)

theorem lowBits_congr {v n : Nat} {b' : BitVec v} (h : ∀ i < n, b.getLsbD i = b'.getLsbD i) :
    lowBits n b = lowBits n b' := by
  induction n generalizing b b' with
  | zero => rfl
  | succ n ih =>
    have hrest : ∀ i < n, (b >>> 1).getLsbD i = (b' >>> 1).getLsbD i := by
      intro i hi
      rw [BitVec.getLsbD_ushiftRight, BitVec.getLsbD_ushiftRight]
      exact h (1 + i) (by omega)
    rw [lowBits, lowBits, h 0 (Nat.succ_pos n), ih hrest]

/-! ### Linearity -/

theorem getLsbD_shift (i : Nat) :
    (shift g c).getLsbD i = (c.getLsbD (i + 1) ^^ (c.getLsbD 0 && g.getLsbD i)) := by
  unfold shift
  split
  next h => simp [h, Nat.add_comm 1 i, Bool.xor_comm]
  next h => simp [h, Nat.add_comm 1 i]

theorem shift_xor (a b : BitVec w) : shift g (a ^^^ b) = shift g a ^^^ shift g b := by
  apply BitVec.eq_of_getLsbD_eq
  intro i _
  simp only [getLsbD_shift, BitVec.getLsbD_xor]
  cases a.getLsbD 0 <;> cases b.getLsbD 0 <;> cases g.getLsbD i <;> simp

theorem shifts_xor (n : Nat) (a b : BitVec w) :
    shifts g n (a ^^^ b) = shifts g n a ^^^ shifts g n b := by
  induction n generalizing a b with
  | zero => rfl
  | succ n ih => rw [shifts, shift_xor, ih, shifts, shifts]

/-- A register whose low bits are clear only moves down. -/
theorem shifts_of_low_clear {c : BitVec w} (h : ∀ i < n, c.getLsbD i = false) :
    shifts g n c = c >>> n := by
  induction n generalizing c with
  | zero => simp [shifts]
  | succ n ih =>
    have hshift : shift g c = c >>> 1 := by simp [shift, h 0 (Nat.succ_pos n)]
    have hclear : ∀ i < n, (c >>> 1).getLsbD i = false := by
      intro i hi
      rw [BitVec.getLsbD_ushiftRight]
      exact h (1 + i) (by omega)
    rw [shifts, hshift, ih hclear, ← BitVec.shiftRight_add, Nat.add_comm]

/-- **The table rule**: `n` shifts of a register are those of its low part, added to its high part
moved down. -/
theorem shifts_eq_low_xor {c low : BitVec w}
    (hlow : ∀ i, low.getLsbD i = (decide (i < n) && c.getLsbD i)) :
    shifts g n c = shifts g n low ^^^ (c >>> n) := by
  have hsplit : c = low ^^^ (low ^^^ c) := by
    rw [← BitVec.xor_assoc, BitVec.xor_self, BitVec.zero_xor]
  have hclear : ∀ i < n, (low ^^^ c).getLsbD i = false := by
    intro i hi
    simp [hlow, hi]
  have hhigh : (low ^^^ c) >>> n = c >>> n := by
    apply BitVec.eq_of_getLsbD_eq
    intro i _
    simp [hlow]
  conv_lhs => rw [hsplit]
  rw [shifts_xor, shifts_of_low_clear g hclear, hhigh]

theorem getLsbD_unit (hw : 0 < w) (b : Bool) (i : Nat) :
    (unit b : BitVec w).getLsbD i = (decide (i = 0) && b) := by
  rw [unit, BitVec.getLsbD_setWidth]
  rcases Nat.eq_zero_or_pos i with rfl | hi
  · simp [hw]
  · simp [Nat.ne_of_gt hi]

/-- Feeding in bit after bit is the same as adding all the bits first. -/
theorem feedAll_lowBits (hw : 0 < w) (c : BitVec w) (hb : ∀ i, n ≤ i → b.getLsbD i = false) :
    feedAll g c (lowBits n b) = shifts g n (c ^^^ b) := by
  induction n generalizing c b with
  | zero =>
    have hzero : b = 0#w := by
      apply BitVec.eq_of_getLsbD_eq
      intro i _
      simp [hb i (Nat.zero_le i)]
    rw [hzero, BitVec.xor_zero]
    rfl
  | succ n ih =>
    have hrest : ∀ i, n ≤ i → (b >>> 1).getLsbD i = false := by
      intro i hi
      rw [BitVec.getLsbD_ushiftRight]
      exact hb (1 + i) (by omega)
    -- the other bits of `b` fall out later, so they only move down
    have hstep : shift g (c ^^^ b) = feed g c (b.getLsbD 0) ^^^ (b >>> 1) := by
      apply BitVec.eq_of_getLsbD_eq
      intro i _
      simp only [feed, getLsbD_shift, BitVec.getLsbD_xor, getLsbD_unit hw,
        BitVec.getLsbD_ushiftRight, Nat.add_comm 1 i, decide_true, Bool.true_and,
        Nat.succ_ne_zero, decide_false, Bool.false_and, Bool.xor_false]
      cases c.getLsbD (i + 1) <;> cases b.getLsbD (i + 1) <;>
        cases (c.getLsbD 0 ^^ b.getLsbD 0) && g.getLsbD i <;> rfl
    calc feedAll g c (lowBits (n + 1) b)
        = feedAll g (feed g c (b.getLsbD 0)) (lowBits n (b >>> 1)) := rfl
      _ = shifts g n (feed g c (b.getLsbD 0) ^^^ (b >>> 1)) := ih _ hrest
      _ = shifts g (n + 1) (c ^^^ b) := by rw [shifts, hstep]

/-! ### Polynomials -/

/-- A bit as an element of the field. -/
def coeff (b : Bool) : ZMod 2 := if b then 1 else 0

theorem coeff_xor (a b : Bool) : coeff (a ^^ b) = coeff a + coeff b := by
  cases a <;> cases b <;> decide

theorem coeff_and (a b : Bool) : coeff (a && b) = coeff a * coeff b := by
  cases a <;> cases b <;> decide

/-- The polynomial of a register. -/
noncomputable def toPoly : (ZMod 2)[X] :=
  ∑ i ∈ range w, C (coeff (c.getLsbD i)) * X ^ (w - 1 - i)

/-- What the register divides by. -/
noncomputable def generator (g : BitVec w) : (ZMod 2)[X] := X ^ w + toPoly g

/-- The polynomial of a message, its first bit the leading coefficient. -/
noncomputable def message (bits : List Bool) : (ZMod 2)[X] :=
  bits.foldl (fun m b => X * m + C (coeff b)) 0

theorem toPoly_xor (a b : BitVec w) : toPoly (a ^^^ b) = toPoly a + toPoly b := by
  simp only [toPoly, BitVec.getLsbD_xor, coeff_xor, C_add, add_mul, sum_add_distrib]

theorem degree_toPoly_lt : (toPoly c).degree < w := by
  refine (degree_sum_le _ _).trans_lt ?_
  refine (Finset.sup_lt_iff (WithBot.bot_lt_coe w)).mpr fun i hi => ?_
  have hlt : w - 1 - i < w := by
    have := mem_range.mp hi
    omega
  exact (degree_C_mul_X_pow_le _ _).trans_lt (Nat.cast_lt.mpr hlt)

end

theorem generator_monic : (generator g).Monic := monic_X_pow_add (degree_toPoly_lt g)

theorem degree_generator : (generator g).degree = w := by
  rw [generator, degree_add_eq_left_of_degree_lt, degree_X_pow]
  rw [degree_X_pow]
  exact degree_toPoly_lt g

variable (hw : 0 < w)
include hw

variable (c : BitVec w)

theorem toPoly_unit (b : Bool) : toPoly (unit b : BitVec w) = C (coeff b) * X ^ (w - 1) := by
  rw [toPoly, sum_eq_single 0]
  · simp [getLsbD_unit hw]
  · intro i _ hi
    simp [getLsbD_unit hw, hi, coeff]
  · intro h
    exact absurd (mem_range.mpr hw) h

/-- **A shift multiplies by `X`**, up to the multiple of the generator that the feedback removes. -/
theorem X_mul_toPoly :
    X * toPoly c = toPoly (shift g c) + C (coeff (c.getLsbD 0)) * generator g := by
  obtain ⟨n, rfl⟩ : ∃ n, w = n + 1 := ⟨w - 1, by omega⟩
  have hout : X * toPoly c = C (coeff (c.getLsbD 0)) * X ^ (n + 1) +
      ∑ i ∈ range (n + 1), C (coeff (c.getLsbD (i + 1))) * X ^ (n - i) := by
    -- the last bit that moves in is past the end of the register
    have htop : coeff (c.getLsbD (n + 1)) = 0 := by
      rw [BitVec.getLsbD_of_ge c (n + 1) (Nat.le_refl _)]
      rfl
    rw [toPoly, sum_range_succ', sum_range_succ, htop, mul_add, mul_sum]
    have hterms : ∑ i ∈ range n, X * (C (coeff (c.getLsbD (i + 1))) *
          X ^ (n + 1 - 1 - (i + 1))) =
        ∑ i ∈ range n, C (coeff (c.getLsbD (i + 1))) * (X : (ZMod 2)[X]) ^ (n - i) := by
      refine sum_congr rfl fun i hi => ?_
      have hexp : n - i = n + 1 - 1 - (i + 1) + 1 := by
        have := mem_range.mp hi
        omega
      rw [hexp]
      ring
    rw [hterms, C_0, Nat.add_sub_cancel, Nat.sub_zero]
    ring
  have hshift : toPoly (shift g c) =
      (∑ i ∈ range (n + 1), C (coeff (c.getLsbD (i + 1))) * X ^ (n - i)) +
        C (coeff (c.getLsbD 0)) * toPoly g := by
    rw [toPoly, toPoly, mul_sum, ← sum_add_distrib]
    refine sum_congr rfl fun i _ => ?_
    rw [getLsbD_shift, coeff_xor, coeff_and, C_add, C_mul, Nat.add_sub_cancel]
    ring
  have htwice : C (coeff (c.getLsbD 0)) * toPoly g + C (coeff (c.getLsbD 0)) * toPoly g = 0 := by
    exact CharTwo.add_self_eq_zero _
  rw [hout, hshift, generator]
  linear_combination -htwice

/-- A bit that is fed in is the coefficient next to what was divided so far. -/
theorem toPoly_feed (b : Bool) :
    generator g ∣ X * toPoly c + C (coeff b) * X ^ w - toPoly (feed g c b) := by
  have hmul := X_mul_toPoly g hw (c ^^^ unit b)
  have hpow : (X : (ZMod 2)[X]) ^ w = X * X ^ (w - 1) := by
    rw [← pow_succ']
    congr 1
    omega
  rw [toPoly_xor, toPoly_unit hw] at hmul
  refine ⟨C (coeff ((c ^^^ unit b).getLsbD 0)), ?_⟩
  rw [feed, hpow]
  linear_combination hmul

/-- **Division**: what the register holds in the end is the remainder of what it held at first,
followed by the message. -/
theorem toPoly_feedAll (bits : List Bool) : toPoly (feedAll g c bits) =
      (X ^ bits.length * toPoly c + X ^ w * message bits) %ₘ generator g := by
  have hdvd : generator g ∣
      X ^ bits.length * toPoly c + X ^ w * message bits - toPoly (feedAll g c bits) := by
    induction bits using List.reverseRecOn with
    | nil => simp [feedAll, message]
    | append_singleton bits b ih =>
      have hmsg : message (bits ++ [b]) = X * message bits + C (coeff b) := by
        simp [message]
      have hfeed : feedAll g c (bits ++ [b]) = feed g (feedAll g c bits) b := by
        simp [feedAll]
      have hsum := dvd_add (ih.mul_left X) (toPoly_feed g hw (feedAll g c bits) b)
      rw [hmsg, hfeed, List.length_append, List.length_singleton]
      convert hsum using 1
      ring
  have hmonic := generator_monic g
  obtain ⟨q, hq⟩ := hdvd
  refine ((div_modByMonic_unique q _ hmonic ⟨?_, ?_⟩).2).symm
  · linear_combination -hq
  · rw [degree_generator g]
    exact degree_toPoly_lt _

end ShiftRegister
