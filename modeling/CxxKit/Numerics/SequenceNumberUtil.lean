import CxxKit.Numerics.SeqNumUnwrapper

/-!
# The order of sequence numbers

`ahead_of`, `AscendingSeqNumComp` and `DescendingSeqNumComp` of `sequence_number_util.hpp`.  Of two
different sequence numbers exactly one is ahead.  That is no order of all of them, as the numbers go
round; on a window of consecutive numbers it is one if the window is short enough.

The documentation allows a window up to the distance `floor(M / 2)`.  For an even modulus the first
and the last number of such a window are as far apart one way as the other, and the larger *value*
is the one ahead.  If the window passes the wrap, that is the first one.
-/

namespace CxxKit.SeqNum

variable {w : Nat} {M a b : BitVec w}

/-- `ahead_of<T, M>(a, b)`. -/
def aheadOf (M a b : BitVec w) : Bool := a != b && aheadOrAt M a b

/-- `AscendingSeqNumComp<T, M>`. -/
def ascendingSeqNumComp (M a b : BitVec w) : Bool := aheadOf M a b

/-- `DescendingSeqNumComp<T, M>`. -/
def descendingSeqNumComp (M a b : BitVec w) : Bool := aheadOf M b a

theorem aheadOf_iff (hw : 0 < w) (ha : a.toNat < modulus M) (hb : b.toNat < modulus M) :
    aheadOf M a b = true ↔ a ≠ b ∧
      (2 * (forwardDiff M b a).toNat < modulus M ∨
        (2 * (forwardDiff M b a).toNat = modulus M ∧ b.toNat < a.toNat)) := by
  rw [aheadOf, Bool.and_eq_true, bne_iff_ne, aheadOrAt_iff hw ha hb]

/-- Of two sequence numbers one is ahead. -/
theorem aheadOf_swap (hw : 0 < w) (ha : a.toNat < modulus M) (hb : b.toNat < modulus M)
    (hne : a ≠ b) : aheadOf M a b = true ↔ ¬ aheadOf M b a = true := by
  have hne' : a.toNat ≠ b.toNat := mt BitVec.eq_of_toNat_eq hne
  have hup := toNat_forwardDiff hb a
  have hdown := toNat_forwardDiff ha b
  rw [aheadOf_iff hw ha hb, aheadOf_iff hw hb ha]
  simp only [hne, hne.symm, ne_eq, not_false_eq_true, true_and]
  split at hup <;> split at hdown <;> omega

/-! ### Windows -/

/-- The sequence number that is `k` after `start`. -/
def windowAt (M start : BitVec w) (k : Nat) : BitVec w :=
  BitVec.ofNat w ((start.toNat + k) % modulus M)

/-- The `n` sequence numbers from `start` on. -/
def window (M start : BitVec w) (n : Nat) : List (BitVec w) := (List.range n).map (windowAt M start)

/-- A comparator is a strict total order of the elements of a list. -/
structure StrictlyOrders (comp : BitVec w → BitVec w → Bool) (l : List (BitVec w)) : Prop where
  irrefl : ∀ a ∈ l, comp a a = false
  trans : ∀ a ∈ l, ∀ b ∈ l, ∀ c ∈ l, comp a b = true → comp b c = true → comp a c = true
  total : ∀ a ∈ l, ∀ b ∈ l, a ≠ b → comp a b = true ∨ comp b a = true

/-- Both comparators order the window, by the unwrapped numbers `start + k`. -/
structure WindowOrdered (M start : BitVec w) (n : Nat) : Prop where
  ascending : StrictlyOrders (ascendingSeqNumComp M) (window M start n)
  descending : StrictlyOrders (descendingSeqNumComp M) (window M start n)
  agrees : ∀ i j, i < n → j < n →
    (ascendingSeqNumComp M (windowAt M start i) (windowAt M start j) = true ↔ j < i) ∧
    (descendingSeqNumComp M (windowAt M start i) (windowAt M start j) = true ↔ i < j)

/-- The window is shorter than half the modulus, or exactly half of it and does not wrap. -/
def ShortWindow (M start : BitVec w) (n : Nat) : Prop :=
  2 * (n - 1) < modulus M ∨ (2 * (n - 1) = modulus M ∧ start.toNat + (n - 1) < modulus M)

variable {start : BitVec w} {n i j : Nat}

theorem toNat_windowAt (k : Nat) : (windowAt M start k).toNat = (start.toNat + k) % modulus M := by
  have hlt := Nat.mod_lt (start.toNat + k) (modulus_pos M)
  rw [windowAt, BitVec.toNat_ofNat, Nat.mod_eq_of_lt (Nat.lt_of_lt_of_le hlt (modulus_le M))]

theorem windowAt_lt (k : Nat) : (windowAt M start k).toNat < modulus M := by
  rw [toNat_windowAt]
  exact Nat.mod_lt _ (modulus_pos M)

section

variable (hstart : start.toNat < modulus M)
include hstart

/-- The value of an element, by whether it is past the wrap. -/
theorem toNat_windowAt_cases {k : Nat} (hk : k < modulus M) : (windowAt M start k).toNat =
      if start.toNat + k < modulus M then start.toNat + k else start.toNat + k - modulus M := by
  rw [toNat_windowAt]
  split
  next hlt => exact Nat.mod_eq_of_lt hlt
  next hge => rw [Nat.mod_eq_sub_mod (by omega), Nat.mod_eq_of_lt (by omega)]

theorem forwardDiff_windowAt (hij : i ≤ j) (hj : j < modulus M) :
    (forwardDiff M (windowAt M start i) (windowAt M start j)).toNat = j - i := by
  have hi := toNat_windowAt_cases hstart (k := i) (by omega)
  have hj' := toNat_windowAt_cases hstart hj
  rw [toNat_forwardDiff (windowAt_lt i)]
  split at hi <;> split at hj' <;> split <;> omega

theorem windowAt_ne (hij : i < j) (hj : j < modulus M) :
    windowAt M start i ≠ windowAt M start j := by
  intro heq
  have hdiff := forwardDiff_windowAt hstart (Nat.le_of_lt hij) hj
  have hbelow : (windowAt M start i).toNat < modulus M := windowAt_lt i
  have hsame := toNat_forwardDiff hbelow (windowAt M start i)
  rw [heq, if_pos (Nat.le_refl _)] at hsame
  rw [heq] at hdiff
  omega

end

/-- When a later element of the window is ahead of an earlier one. -/
theorem aheadOf_windowAt (hw : 0 < w) (hstart : start.toNat < modulus M) (hij : i < j)
    (hj : j < modulus M) :
    aheadOf M (windowAt M start j) (windowAt M start i) = true ↔
      2 * (j - i) < modulus M ∨
        (2 * (j - i) = modulus M ∧ (windowAt M start i).toNat < (windowAt M start j).toNat) := by
  rw [aheadOf_iff hw (windowAt_lt j) (windowAt_lt i),
    forwardDiff_windowAt hstart (Nat.le_of_lt hij) hj]
  exact and_iff_right (windowAt_ne hstart hij hj).symm

/-- In a short window the later element is ahead. -/
theorem ShortWindow.aheadOf_iff_lt (hw : 0 < w) (h : ShortWindow M start n)
    (hstart : start.toNat < modulus M) (hn : n ≤ modulus M) (hi : i < n) (hj : j < n) :
    aheadOf M (windowAt M start j) (windowAt M start i) = true ↔ i < j := by
  have hlater : ∀ {i j}, i < j → j < n →
      aheadOf M (windowAt M start j) (windowAt M start i) = true := by
    intro i j hij hj
    rw [aheadOf_windowAt hw hstart hij (by omega)]
    have hi' := toNat_windowAt_cases hstart (k := i) (by omega)
    have hj' := toNat_windowAt_cases hstart (k := j) (by omega)
    unfold ShortWindow at h
    split at hi' <;> split at hj' <;> omega
  constructor
  · intro hahead
    rcases Nat.lt_trichotomy i j with hlt | heq | hgt
    · exact hlt
    · rw [heq, aheadOf] at hahead
      simp at hahead
    · have hne := (windowAt_ne hstart hgt (by omega)).symm
      exact absurd (hlater hgt hi) ((aheadOf_swap hw (windowAt_lt j) (windowAt_lt i)
        hne.symm).mp hahead)
  · exact fun hij => hlater hij hj

/-- A comparator that follows the numbers, one way or the other, is a strict total order. -/
theorem strictlyOrders_of_agrees {comp : BitVec w → BitVec w → Bool} {r : Nat → Nat → Prop}
    (hirrefl : ∀ i, ¬ r i i) (htrans : ∀ {i j k}, r i j → r j k → r i k)
    (htotal : ∀ {i j}, i ≠ j → r i j ∨ r j i) (hagrees : ∀ i j, i < n → j < n →
      (comp (windowAt M start i) (windowAt M start j) = true ↔ r i j)) :
    StrictlyOrders comp (window M start n) := by
  have hmem : ∀ {a}, a ∈ window M start n → ∃ i, i < n ∧ windowAt M start i = a := by
    intro a ha
    obtain ⟨i, hi, rfl⟩ := List.mem_map.mp ha
    exact ⟨i, List.mem_range.mp hi, rfl⟩
  refine ⟨fun a ha => ?_, fun a ha b hb c hc hab hbc => ?_, fun a ha b hb hne => ?_⟩
  · obtain ⟨i, hi, rfl⟩ := hmem ha
    exact Bool.eq_false_iff.mpr (mt (hagrees i i hi hi).mp (hirrefl i))
  · obtain ⟨i, hi, rfl⟩ := hmem ha
    obtain ⟨j, hj, rfl⟩ := hmem hb
    obtain ⟨k, hk, rfl⟩ := hmem hc
    rw [hagrees i j hi hj] at hab
    rw [hagrees j k hj hk] at hbc
    exact (hagrees i k hi hk).mpr (htrans hab hbc)
  · obtain ⟨i, hi, rfl⟩ := hmem ha
    obtain ⟨j, hj, rfl⟩ := hmem hb
    rw [hagrees i j hi hj, hagrees j i hj hi]
    exact htotal fun hij => hne (congrArg _ hij)

theorem ShortWindow.ordered (hw : 0 < w) (h : ShortWindow M start n)
    (hstart : start.toNat < modulus M) (hn : n ≤ modulus M) : WindowOrdered M start n := by
  have hahead : ∀ i j, i < n → j < n →
      (aheadOf M (windowAt M start j) (windowAt M start i) = true ↔ i < j) :=
    fun i j hi hj => h.aheadOf_iff_lt hw hstart hn hi hj
  refine ⟨?_, ?_, fun i j hi hj => ⟨hahead j i hj hi, hahead i j hi hj⟩⟩
  · exact strictlyOrders_of_agrees (r := fun i j => j < i) (Nat.lt_irrefl)
      (fun hij hjk => Nat.lt_trans hjk hij) (fun hne => Nat.lt_or_gt_of_ne hne.symm)
      fun i j hi hj => hahead j i hj hi
  · exact strictlyOrders_of_agrees (Nat.lt_irrefl) Nat.lt_trans Nat.lt_or_gt_of_ne hahead

/-- The first and the last element show whether the window is short. -/
theorem WindowOrdered.short (hw : 0 < w) (h : WindowOrdered M start n)
    (hstart : start.toNat < modulus M) (hn : n ≤ modulus M) : ShortWindow M start n := by
  have hpos := modulus_pos M
  unfold ShortWindow
  by_cases hn1 : n ≤ 1
  · omega
  · have hends := (h.agrees 0 (n - 1) (by omega) (by omega)).2.mpr (by omega)
    rw [descendingSeqNumComp, aheadOf_windowAt hw hstart (by omega) (by omega)] at hends
    have hfirst := toNat_windowAt_cases hstart (by omega)
    have hlast := toNat_windowAt_cases hstart (k := n - 1) (by omega)
    split at hfirst <;> split at hlast <;> omega

/-- **The order of sequence numbers.** For every modulus, or the full range of the type: of two
different sequence numbers exactly one is ahead of the other; and the comparators are strict total
orders of a window, and agree with the unwrapped numbers, if and only if its first and last number
are less than half the modulus apart, or exactly half of it without a wrap between them. -/
theorem seqnum_order_iff (hw : 0 < w) (M : BitVec w) :
    (∀ a b : BitVec w, a.toNat < modulus M → b.toNat < modulus M → a ≠ b →
      (aheadOf M a b = true ↔ ¬ aheadOf M b a = true)) ∧
    ∀ (start : BitVec w) (n : Nat), start.toNat < modulus M → n ≤ modulus M →
      (WindowOrdered M start n ↔ ShortWindow M start n) := by
  refine ⟨fun a b ha hb hne => aheadOf_swap hw ha hb hne, fun start n hstart hn => ?_⟩
  exact ⟨fun h => h.short hw hstart hn, fun h => h.ordered hw hstart hn⟩

/-- Of 16-bit numbers, 32768 in a row are in order wherever they start. -/
theorem seqnum_order_short : 0 < 16 ∧ WindowOrdered (0 : BitVec 16) 65535 32768 := by
  refine ⟨by decide, ((seqnum_order_iff (by decide) 0).2 65535 32768 ?_ ?_).mpr (.inl ?_)⟩
  · decide
  · decide
  · decide

/-- The 129 numbers from 200 to 72 of `uint8_t` are at most `256 / 2` apart, and go round: 200 comes
before 0 and 0 before 72, but 72 comes before 200. -/
theorem half_window_cyclic : 2 * (129 - 1) = modulus (0 : BitVec 8) ∧
      (200 : BitVec 8) ∈ window 0 200 129 ∧ (0 : BitVec 8) ∈ window 0 200 129 ∧
      (72 : BitVec 8) ∈ window 0 200 129 ∧
      descendingSeqNumComp (0 : BitVec 8) 200 0 = true ∧
      descendingSeqNumComp (0 : BitVec 8) 0 72 = true ∧
      descendingSeqNumComp (0 : BitVec 8) 200 72 = false ∧
      descendingSeqNumComp (0 : BitVec 8) 72 200 = true := by
  decide +kernel

end CxxKit.SeqNum
