import Mathlib.Data.Nat.ModEq
import Mathlib.Data.Nat.Prime.Basic
import Mathlib.Data.Finset.Card
import Mathlib.Data.List.Range
import Mathlib.Algebra.Ring.Parity
import Mathlib.Tactic.Ring
import Mathlib.Tactic.Linarith

/-!
Triangular numbers modulo a power of two.

The offsets `0, 1, 3, 6, 10, …` reduced modulo `2 ^ k` hit every residue exactly
once in their first `2 ^ k` terms, whatever the starting point.  This is the fact
that makes quadratic probing with triangular steps visit a whole table whose
size is a power of two.
-/

namespace Triangular

open List

/-- The `n`-th triangular number, as the running sum a probe loop keeps. -/
def tri : Nat → Nat
  | 0 => 0
  | n + 1 => tri n + (n + 1)

@[simp] theorem tri_zero : tri 0 = 0 := rfl

theorem tri_succ (n : Nat) : tri (n + 1) = tri n + (n + 1) := rfl

theorem two_mul_tri (n : Nat) : 2 * tri n = n * (n + 1) := by
  induction n with
  | zero => rfl
  | succ n ih =>
    rw [tri_succ, Nat.mul_add, ih]
    ring

theorem tri_mono {i j : Nat} (h : i ≤ j) : tri i ≤ tri j := by
  induction h with
  | refl => exact le_rfl
  | step _ ih => exact ih.trans (Nat.le_add_right _ _)

/-- The gap between two triangular numbers factors. -/
theorem two_mul_tri_sub {i j : Nat} (h : i ≤ j) : 2 * (tri j - tri i) = (j - i) * (i + j + 1) := by
  obtain ⟨d, rfl⟩ := Nat.exists_eq_add_of_le h
  rw [Nat.mul_sub, two_mul_tri, two_mul_tri, Nat.add_sub_cancel_left]
  have : (i + d) * (i + d + 1) = i * (i + 1) + d * (i + (i + d) + 1) := by ring
  rw [this, Nat.add_sub_cancel_left]

/-- A power of two dividing a product with an odd factor divides the other one. -/
private theorem two_pow_dvd_of_odd {a b m : Nat} (ha : Odd a) (h : 2 ^ m ∣ a * b) : 2 ^ m ∣ b :=
  ((Nat.coprime_two_left.mpr ha).pow_left m).dvd_of_dvd_mul_left h

/-- Two different terms among the first `2 ^ k` never differ by a multiple of
`2 ^ k`: of the two factors of twice their gap one is odd and the other is too
small to absorb `2 ^ (k + 1)`. -/
theorem not_dvd_tri_sub {k i j : Nat} (hij : i < j) (hj : j < 2 ^ k) : ¬ 2 ^ k ∣ tri j - tri i := by
  intro hdvd
  have htwice : 2 ^ (k + 1) ∣ (j - i) * (i + j + 1) := by
    rw [← two_mul_tri_sub hij.le, pow_succ, Nat.mul_comm]
    exact Nat.mul_dvd_mul_left 2 hdvd
  rcases Nat.even_or_odd (j - i) with heven | hodd
  · -- `j - i` even makes `i + j + 1` odd
    have hodd : Odd (i + j + 1) := by
      have hsum : i + j + 1 = (j - i) + (2 * i + 1) := by omega
      rw [hsum]
      exact heven.add_odd ⟨i, rfl⟩
    have := two_pow_dvd_of_odd hodd (by rwa [Nat.mul_comm] at htwice)
    have := Nat.le_of_dvd (by omega) this
    omega
  · have := two_pow_dvd_of_odd hodd htwice
    have := Nat.le_of_dvd (by omega) this
    omega

/-- The first `m` residues visited from `a`. -/
def offsets (a k m : Nat) : List Nat :=
  (range m).map fun i => (a + tri i) % 2 ^ k

@[simp] theorem length_offsets (a k m : Nat) : (offsets a k m).length = m := by
  simp [offsets]

theorem mem_offsets_lt {a k m p : Nat} (h : p ∈ offsets a k m) : p < 2 ^ k := by
  obtain ⟨i, -, rfl⟩ := mem_map.mp h
  exact Nat.mod_lt _ (Nat.two_pow_pos k)

theorem offset_ne {a k i j : Nat} (hij : i < j) (hj : j < 2 ^ k) :
    (a + tri i) % 2 ^ k ≠ (a + tri j) % 2 ^ k := by
  intro h
  have hmod : a + tri i ≡ a + tri j [MOD 2 ^ k] := h
  have hmod : tri i ≡ tri j [MOD 2 ^ k] := Nat.ModEq.add_left_cancel' a hmod
  exact not_dvd_tri_sub hij hj ((Nat.modEq_iff_dvd' (tri_mono hij.le)).mp hmod)

/-- The first `2 ^ k` residues are pairwise distinct. -/
theorem nodup_offsets (a k : Nat) : (offsets a k (2 ^ k)).Nodup := by
  rw [offsets, nodup_map_iff_inj_on nodup_range]
  intro i hi j hj hEq
  have hi := mem_range.mp hi
  have hj := mem_range.mp hj
  rcases Nat.lt_trichotomy i j with h | h | h
  · exact absurd hEq (offset_ne h hj)
  · exact h
  · exact absurd hEq.symm (offset_ne h hi)

/-- The first `2 ^ k` residues are all of them. -/
theorem mem_offsets {a k p : Nat} (hp : p < 2 ^ k) : p ∈ offsets a k (2 ^ k) := by
  have hcard : (offsets a k (2 ^ k)).toFinset.card = 2 ^ k := by
    rw [toFinset_card_of_nodup (nodup_offsets a k), length_offsets]
  have hsub : (offsets a k (2 ^ k)).toFinset ⊆ Finset.range (2 ^ k) := by
    intro q hq
    exact Finset.mem_range.mpr (mem_offsets_lt (mem_toFinset.mp hq))
  have hEq := Finset.eq_of_subset_of_card_le hsub (by simp [hcard])
  have hmem : p ∈ Finset.range (2 ^ k) := Finset.mem_range.mpr hp
  rw [← hEq] at hmem
  exact mem_toFinset.mp hmem

end Triangular
