import Mathlib.Data.List.Basic

/-!
Windows into a store of cells.

`window o n l` are the `n` cells of `l` from position `o` on, and `overwrite o xs l`
is `l` with `xs` copied over the cells from `o` on.
-/

namespace Window

open List

variable {α : Type*}

def window (o n : Nat) (l : List α) : List α :=
  (l.drop o).take n

def overwrite (o : Nat) (xs l : List α) : List α :=
  l.take o ++ xs ++ l.drop (o + xs.length)

variable {o n m k : Nat} {l xs ys : List α}

variable (a : α)

theorem length_window (h : o + n ≤ l.length) : (window o n l).length = n := by
  rw [window, length_take, length_drop]
  omega

@[simp] theorem window_zero_right : window o 0 l = [] :=
  take_zero

theorem length_overwrite (h : o + xs.length ≤ l.length) : (overwrite o xs l).length = l.length := by
  simp only [overwrite, length_append, length_take, length_drop]
  omega

/-- A longer window is a shorter one and the cells behind it. -/
theorem window_add : window o (n + m) l = window o n l ++ window (o + n) m l := by
  rw [window, take_add, drop_drop, window, window]

theorem take_window (h : m ≤ n) : (window o n l).take m = window o m l := by
  rw [window, take_take, Nat.min_eq_left h, window]

theorem window_window (h : m + k ≤ n) : window m k (window o n l) = window (o + m) k l := by
  have hk : min k (n - m) = k := by omega
  rw [window, window, drop_take, take_take, hk, drop_drop, window]

theorem window_append_left (h : o + n ≤ xs.length) : window o n (xs ++ ys) = window o n xs := by
  have hn : n ≤ (xs.drop o).length := by
    rw [length_drop]
    omega
  rw [window, drop_append_of_le_length (by omega), take_append_of_le_length hn, window]

/-- The cells in front of a copy are left alone. -/
theorem window_take (h : o + n ≤ m) : window o n (l.take m) = window o n l := by
  have hn : min n (m - o) = n := by omega
  rw [window, drop_take, take_take, hn, window]

/-- What is copied right behind a window extends it. -/
theorem window_overwrite (h : o + n ≤ l.length) :
    window o (n + xs.length) (overwrite (o + n) xs l) = window o n l ++ xs := by
  have hlen : (l.take (o + n)).length = o + n := by
    rw [length_take]
    omega
  have hfront : window o n (overwrite (o + n) xs l) = window o n l := by
    rw [overwrite, append_assoc, window_append_left (by omega), window_take (Nat.le_refl _)]
  have hback : window (o + n) xs.length (overwrite (o + n) xs l) = xs := by
    rw [overwrite, window, append_assoc, drop_left' hlen, take_left' rfl]
  rw [window_add, hfront, hback]

theorem window_set : window o n (l.set (o + k) a) = (window o n l).set k a := by
  rw [window, drop_set, if_neg (by omega), Nat.add_sub_cancel_left, take_set, window]

end Window
