import Mathlib.Data.List.Count
import Mathlib.Logic.Function.Basic

/-!
Counting an element over a family of lists.

`tally f n a` is how often `a` occurs in the lists `f 0, …, f (n - 1)`.  Replacing one
list of the family changes the tally by the difference of the two lists
(`tally_update`); a tally of one places the element in exactly one list
(`tally_eq_one`).
-/

namespace Tally

open Function

variable {α : Type*} [DecidableEq α]

def tally (f : Nat → List α) : Nat → α → Nat
  | 0, _ => 0
  | n + 1, a => tally f n a + (f n).count a

variable {f g : Nat → List α} {n m i : Nat} {a : α}

theorem tally_congr (h : ∀ i, i < n → f i = g i) : tally f n a = tally g n a := by
  induction n with
  | zero => rfl
  | succ n ih =>
    have hrest := ih fun i hi => h i (Nat.lt_succ_of_lt hi)
    rw [tally, tally, hrest, h n (Nat.lt_succ_self n)]

theorem tally_update (h : i < n) (xs : List α) :
    tally (update f i xs) n a + (f i).count a = tally f n a + xs.count a := by
  induction n with
  | zero => exact absurd h (Nat.not_lt_zero i)
  | succ n ih =>
    rw [tally, tally]
    rcases Nat.lt_succ_iff_lt_or_eq.mp h with hlt | rfl
    · have hne : n ≠ i := Nat.ne_of_gt hlt
      rw [update_of_ne hne]
      omega
    · have hrest : tally (update f i xs) i a = tally f i a :=
        tally_congr fun j hj => update_of_ne (Nat.ne_of_lt hj) _ _
      rw [update_self]
      omega

theorem tally_extend (hempty : ∀ i, n ≤ i → f i = []) (h : n ≤ m) : tally f m a = tally f n a := by
  obtain ⟨d, rfl⟩ := Nat.exists_eq_add_of_le h
  induction d with
  | zero => rfl
  | succ d ih =>
    rw [← Nat.add_assoc, tally, ih (Nat.le_add_right n d), hempty _ (Nat.le_add_right n d),
      List.count_nil, Nat.add_zero]

theorem tally_eq_zero (h : tally f n a = 0) : ∀ i, i < n → (f i).count a = 0 := by
  induction n with
  | zero => exact fun i hi => absurd hi (Nat.not_lt_zero i)
  | succ n ih =>
    rw [tally] at h
    intro i hi
    rcases Nat.lt_succ_iff_lt_or_eq.mp hi with hlt | rfl
    · exact ih (by omega) i hlt
    · omega

theorem tally_eq_one (h : tally f n a = 1) :
    ∃ i, i < n ∧ (f i).count a = 1 ∧ ∀ j, j < n → j ≠ i → (f j).count a = 0 := by
  induction n with
  | zero => exact absurd h (by simp [tally])
  | succ n ih =>
    rw [tally] at h
    by_cases hn : (f n).count a = 1
    · have hzero := tally_eq_zero (show tally f n a = 0 by omega)
      refine ⟨n, Nat.lt_succ_self n, hn, ?_⟩
      intro j hj hne
      exact hzero j (by omega)
    · obtain ⟨i, hi, hone, hrest⟩ := ih (by omega)
      refine ⟨i, Nat.lt_succ_of_lt hi, hone, ?_⟩
      intro j hj hne
      rcases Nat.lt_succ_iff_lt_or_eq.mp hj with hlt | rfl
      · exact hrest j hlt hne
      · omega

end Tally
