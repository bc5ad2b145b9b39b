import Mathlib.Algebra.BigOperators.Group.Multiset.Basic
import Mathlib.Algebra.Field.Basic
import Mathlib.Algebra.CharZero.Defs
import Mathlib.Tactic.FieldSimp
import Mathlib.Tactic.LinearCombination
import Mathlib.Tactic.Ring

/-!
The mean and the variance of a finite multiset, and how they change.

`Describes m mean cumul` says that `mean` is the mean of `m` and `cumul` the sum of its squared
deviations, in a form that does not divide: by the sums of the elements and of their squares.  It
says nothing about the mean of the empty multiset.  The rules for one more element, for one less
and for a union are those of the one-pass algorithms.
-/

namespace Moments

open Multiset

variable {K : Type*} [Field K]

section

variable (m : Multiset K)

def mean : K := m.sum / m.card

/-- The sum of the squared deviations from the mean, divided by the count. -/
def variance : K := (m.map fun x => (x - mean m) ^ 2).sum / m.card

def squares : K := (m.map (· ^ 2)).sum

structure Describes (m : Multiset K) (mean cumul : K) : Prop where
  total : m.card * mean = m.sum
  squared : cumul + m.card * mean ^ 2 = squares m

theorem describes_zero (mean : K) : Describes 0 mean 0 := ⟨by simp, by simp [squares]⟩

theorem squares_cons (x : K) (m : Multiset K) : squares (x ::ₘ m) = x ^ 2 + squares m := by
  simp [squares]

theorem squares_add (l m : Multiset K) : squares (l + m) = squares l + squares m := by
  simp [squares]

theorem card_cons_cast (x : K) (m : Multiset K) : ((x ::ₘ m).card : K) = m.card + 1 := by
  simp

/-- The squared deviations from any number. -/
theorem sum_deviations (c : K) :
    (m.map fun x => (x - c) ^ 2).sum = squares m - 2 * c * m.sum + m.card * c ^ 2 := by
  induction m using Multiset.induction_on with
  | empty => simp [squares]
  | cons x m ih =>
    rw [map_cons, sum_cons, ih, squares_cons, sum_cons, card_cons_cast]
    ring

end

variable [CharZero K] {m l : Multiset K} {μ ν σ ρ x : K}

theorem card_ne_zero (hm : m ≠ 0) : (m.card : K) ≠ 0 :=
  Nat.cast_ne_zero.mpr (mt card_eq_zero.mp hm)

theorem Describes.mean_eq (h : Describes m μ σ) (hm : m ≠ 0) : μ = mean m := by
  rw [mean, ← h.total, mul_div_cancel_left₀ _ (card_ne_zero hm)]

theorem Describes.variance_eq (h : Describes m μ σ) (hm : m ≠ 0) : σ / m.card = variance m := by
  rw [variance, sum_deviations, ← h.mean_eq hm, ← h.squared, ← h.total]
  congr 1
  ring

theorem Describes.cons (h : Describes m μ σ) (x : K)
    (hν : ν = μ + (x - μ) / (m.card + 1)) (hρ : ρ = σ + (x - μ) * (x - ν)) :
    Describes (x ::ₘ m) ν ρ := by
  have hmul : (m.card + 1) * ν = m.card * μ + x := by
    rw [hν]
    field_simp
    ring
  refine ⟨?_, ?_⟩
  · rw [card_cons_cast, hmul, h.total, sum_cons, add_comm]
  · rw [card_cons_cast, squares_cons, ← h.squared, hρ]
    linear_combination (ν + μ) * hmul

/-- **One element less**, unless it is the last one. -/
theorem Describes.of_cons (h : Describes (x ::ₘ m) μ σ) (hm : m ≠ 0)
    (hν : ν = μ - (x - μ) / m.card) (hρ : ρ = σ - (x - μ) * (x - ν)) : Describes m ν ρ := by
  have hne := card_ne_zero hm
  have htotal := h.total
  have hsquared := h.squared
  rw [card_cons_cast, sum_cons] at htotal
  rw [card_cons_cast, squares_cons] at hsquared
  have hmul : m.card * ν = (m.card + 1) * μ - x := by
    rw [hν]
    field_simp
    ring
  refine ⟨?_, ?_⟩
  · rw [hmul, htotal]
    ring
  · rw [hρ]
    linear_combination hsquared + (ν + μ) * hmul

theorem Describes.add (hl : Describes l μ σ) (hm : Describes m ν ρ) (hne : l + m ≠ 0) {θ ω : K}
    (hθ : θ = (μ * l.card + ν * m.card) / (l + m).card)
    (hω : ω = σ + l.card * (θ * (θ - 2 * μ) + μ * μ) + ρ +
      m.card * (θ * (θ - 2 * ν) + ν * ν)) : Describes (l + m) θ ω := by
  have hcard : ((l + m).card : K) = l.card + m.card := by simp
  have hmul : ((l + m).card : K) * θ = l.card * μ + m.card * ν := by
    rw [hθ, mul_div_cancel₀ _ (card_ne_zero hne)]
    ring
  refine ⟨?_, ?_⟩
  · rw [hmul, hl.total, hm.total, sum_add]
  · rw [squares_add, ← hl.squared, ← hm.squared, hω, hcard]
    rw [hcard] at hmul
    linear_combination 2 * θ * hmul

end Moments
