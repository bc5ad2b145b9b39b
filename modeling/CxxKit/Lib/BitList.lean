import Mathlib.Algebra.Order.Ring.Nat
import Mathlib.Data.List.Basic
import Mathlib.Data.Nat.Bitwise
import Mathlib.Tactic.Ring

/-!
Numbers as lists of bits, most significant bit first.

`toBits w v` are the lowest `w` bits of `v`, `ofBits` reads a list back.  Shifts and
masks become `take`, `drop` and `++` on such lists.  `overwrite p xs bs` replaces
the bits of `bs` from position `p` on by `xs`.
-/

namespace BitList

open List Nat

/-- The lowest `w` bits of `v`, most significant first. -/
def toBits : Nat → Nat → List Bool
  | 0, _ => []
  | w + 1, v => v.testBit w :: toBits w v

/-- The number a list of bits denotes. -/
def ofBits : List Bool → Nat
  | [] => 0
  | b :: bs => b.toNat * 2 ^ bs.length + ofBits bs

@[simp] theorem length_toBits (w v : Nat) : (toBits w v).length = w := by
  induction w with
  | zero => rfl
  | succ w ih => simp [toBits, ih]

@[simp] theorem toBits_zero_right (w : Nat) : toBits w 0 = List.replicate w false := by
  induction w with
  | zero => rfl
  | succ w ih => simp [toBits, ih, replicate_succ]

theorem ofBits_toBits (w v : Nat) : ofBits (toBits w v) = v % 2 ^ w := by
  induction w with
  | zero => simp [toBits, ofBits, mod_one]
  | succ w ih =>
    rw [toBits, ofBits, length_toBits, ih, toNat_testBit, mod_pow_succ, Nat.mul_comm,
      Nat.add_comm]

theorem ofBits_append (xs ys : List Bool) :
    ofBits (xs ++ ys) = ofBits xs * 2 ^ ys.length + ofBits ys := by
  induction xs with
  | nil => simp [ofBits]
  | cons b xs ih =>
    rw [cons_append, ofBits, ofBits, ih, length_append]
    ring

theorem ofBits_lt (bs : List Bool) : ofBits bs < 2 ^ bs.length := by
  induction bs with
  | nil => simp [ofBits]
  | cons b bs ih =>
    rw [ofBits, length_cons]
    cases b <;> simp <;> omega

/-- Splitting the width splits the list. -/
theorem toBits_add (a b v : Nat) : toBits (a + b) v = toBits a (v >>> b) ++ toBits b v := by
  induction a with
  | zero => simp [toBits]
  | succ a ih =>
    rw [succ_add, toBits, toBits, ih, testBit_shiftRight, Nat.add_comm b a]
    rfl

variable {n w i p u v : Nat} {xs bs : List Bool}

theorem take_toBits (h : n ≤ w) (v : Nat) : (toBits w v).take n = toBits n (v >>> (w - n)) := by
  obtain ⟨d, rfl⟩ := Nat.exists_eq_add_of_le h
  rw [toBits_add, take_left' (length_toBits ..), Nat.add_sub_cancel_left]

theorem drop_toBits (h : n ≤ w) (v : Nat) : (toBits w v).drop n = toBits (w - n) v := by
  obtain ⟨d, rfl⟩ := Nat.exists_eq_add_of_le h
  rw [toBits_add, drop_left' (length_toBits ..), Nat.add_sub_cancel_left]

/-- Only the lowest `w` bits matter. -/
theorem toBits_congr (h : ∀ i < w, u.testBit i = v.testBit i) : toBits w u = toBits w v := by
  induction w with
  | zero => rfl
  | succ w ih =>
    rw [toBits, toBits, h w (lt_succ_self w), ih fun i hi => h i (lt_succ_of_lt hi)]

theorem testBit_of_toBits_eq (h : toBits w u = toBits w v) (hi : i < w) :
    u.testBit i = v.testBit i := by
  induction w with
  | zero => exact absurd hi (Nat.not_lt_zero i)
  | succ w ih =>
    obtain ⟨htop, hrest⟩ := List.cons.inj h
    rcases Nat.lt_succ_iff_lt_or_eq.mp hi with hlt | rfl
    · exact ih hrest hlt
    · exact htop

theorem toBits_mod {m : Nat} (h : w ≤ m) (v : Nat) : toBits w (v % 2 ^ m) = toBits w v := by
  refine toBits_congr fun i hi => ?_
  rw [testBit_mod_two_pow, decide_eq_true (Nat.lt_of_lt_of_le hi h), Bool.true_and]

/-- The bits of the number a list denotes are the list. -/
theorem toBits_ofBits (bs : List Bool) : toBits bs.length (ofBits bs) = bs := by
  induction bs with
  | nil => rfl
  | cons b bs ih =>
    have hlt := ofBits_lt bs
    have hmod : ofBits (b :: bs) % 2 ^ bs.length = ofBits bs := by
      rw [ofBits, Nat.mul_comm, mul_add_mod, mod_eq_of_lt hlt]
    have hdiv : ofBits (b :: bs) / 2 ^ bs.length = b.toNat := by
      rw [ofBits, Nat.mul_comm, mul_add_div (Nat.two_pow_pos _), div_eq_of_lt hlt,
        Nat.add_zero]
    have htop : (ofBits (b :: bs)).testBit bs.length = b := by
      rw [testBit_eq_decide_div_mod_eq, hdiv]
      cases b <;> rfl
    rw [length_cons, toBits, htop, ← toBits_mod (Nat.le_refl _), hmod, ih]

/-- Shifting left within a word of `w` bits drops bits at the top and appends
zeros. -/
theorem toBits_shiftLeft (h : n ≤ w) (v : Nat) :
    toBits w (v <<< n) = (toBits w v).drop n ++ List.replicate n false := by
  obtain ⟨d, rfl⟩ := Nat.exists_eq_add_of_le h
  have hlow : toBits n (v <<< n) = List.replicate n false := by
    rw [← toBits_zero_right]
    refine toBits_congr fun i hi => ?_
    simp [testBit_shiftLeft, Nat.not_le.mpr hi]
  rw [Nat.add_comm n d, toBits_add, shiftLeft_shiftRight, hlow,
    drop_toBits (Nat.le_add_left n d), Nat.add_sub_cancel]

/-! ### Overwriting -/

def overwrite (p : Nat) (xs bs : List Bool) : List Bool :=
  bs.take p ++ xs ++ bs.drop (p + xs.length)

/-- Overwriting twice, the second time right after the first. -/
theorem overwrite_overwrite {ys : List Bool} (h : p + xs.length ≤ bs.length) :
    overwrite (p + xs.length) ys (overwrite p xs bs) = overwrite p (xs ++ ys) bs := by
  have hp : (bs.take p ++ xs).length = p + xs.length := by
    rw [length_append, length_take_of_le (by omega)]
  rw [overwrite, overwrite, take_left' hp, drop_append, hp, overwrite]
  have hpast : (bs.take p ++ xs).drop (p + xs.length + ys.length) = [] :=
    drop_eq_nil_of_le (by omega)
  rw [hpast, nil_append, drop_drop, length_append, ← append_assoc]
  congr 2
  omega

@[simp] theorem overwrite_nil (p : Nat) (bs : List Bool) : overwrite p [] bs = bs := by
  simp [overwrite]

theorem getElem?_overwrite_of_outside
    (hfit : p + xs.length ≤ bs.length) (hi : i < p ∨ p + xs.length ≤ i) :
    (overwrite p xs bs)[i]? = bs[i]? := by
  have hp : (bs.take p ++ xs).length = p + xs.length := by
    rw [length_append, length_take_of_le (by omega)]
  rw [overwrite]
  rcases hi with hlt | hge
  · rw [append_assoc, getElem?_append_left (by rw [length_take]; omega), getElem?_take_of_lt hlt]
  · rw [getElem?_append_right (by omega), getElem?_drop]
    congr 1
    omega

theorem getElem?_overwrite_of_inside (hfit : p + xs.length ≤ bs.length) (hi : i < xs.length) :
    (overwrite p xs bs)[p + i]? = xs[i]? := by
  have hp : (bs.take p).length = p := length_take_of_le (by omega)
  rw [overwrite, append_assoc, getElem?_append_right (by omega), hp,
    Nat.add_sub_cancel_left, getElem?_append_left hi]

theorem take_drop_overwrite (hp : p ≤ bs.length) :
    ((overwrite p xs bs).drop p).take xs.length = xs := by
  rw [overwrite, append_assoc, drop_left' (length_take_of_le hp), take_left]

/-- Overwriting inside the middle of three parts. -/
theorem overwrite_append {pre mid post : List Bool} (h : p + xs.length ≤ mid.length) :
    overwrite (pre.length + p) xs (pre ++ mid ++ post) = pre ++ overwrite p xs mid ++ post := by
  have hle : p ≤ mid.length := by omega
  simp only [overwrite, append_assoc]
  rw [take_length_add_append, take_append_of_le_length hle, Nat.add_assoc,
    drop_length_add_append, drop_append_of_le_length h]
  simp [append_assoc]

end BitList
