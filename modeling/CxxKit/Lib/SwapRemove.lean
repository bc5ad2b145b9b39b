import Mathlib.Data.List.Perm.Subperm

/-!
Removal from a vector by moving its last element.

`swapPop l i` puts the last element in the place of the `i`-th and drops the end;
`sweep p` is the loop that does so for every element with `p`, looking again at a place
it has just filled.  Both keep the other elements, in some order.
-/

namespace SwapRemove

open List

variable {α : Type*} {l : List α} {i : Nat}

def swapPop (l : List α) (i : Nat) : List α :=
  match l.getLast? with
  | none => l
  | some last => (l.set i last).dropLast

/-- The elements in front of the place stay, those behind it may change places. -/
theorem swapPop_append (front : List α) (x : α) (back : List α) :
    ∃ back', swapPop (front ++ x :: back) front.length = front ++ back' ∧ back'.Perm back := by
  rcases eq_nil_or_concat' back with rfl | ⟨init, y, rfl⟩
  · refine ⟨[], ?_, .refl _⟩
    simp [swapPop]
  · refine ⟨y :: init, ?_, ?_⟩
    · have hlast : (front ++ x :: (init ++ [y])).getLast? = some y := by
        rw [← cons_append, ← append_assoc, getLast?_concat]
      have hset : (front ++ x :: (init ++ [y])).set front.length y =
          (front ++ y :: init) ++ [y] := by
        simp
      simp only [swapPop, hlast]
      rw [hset, dropLast_concat]
    · exact (perm_append_singleton y init).symm

theorem swapPop_perm {x : α} (h : l[i]? = some x) :
    ∃ front back, l = front ++ x :: back ∧ (swapPop l i).Perm (front ++ back) := by
  obtain ⟨hi, rfl⟩ := List.getElem?_eq_some_iff.mp h
  have hsplit : l = l.take i ++ l[i] :: l.drop (i + 1) := by
    rw [← drop_eq_getElem_cons hi, take_append_drop]
  obtain ⟨back', heq, hperm⟩ := swapPop_append (l.take i) l[i] (l.drop (i + 1))
  rw [← hsplit, length_take_of_le (Nat.le_of_lt hi)] at heq
  exact ⟨_, _, hsplit, heq ▸ .append_left _ hperm⟩

theorem swapPop_nodup (hi : i < l.length) (h : l.Nodup) : (swapPop l i).Nodup := by
  obtain ⟨front, back, hsplit, hperm⟩ := swapPop_perm (getElem?_eq_getElem hi)
  rw [hsplit] at h
  exact hperm.nodup_iff.mpr (h.sublist (.append_left (sublist_cons_self ..) front))

theorem swapPop_subset (hi : i < l.length) : swapPop l i ⊆ l := by
  obtain ⟨front, back, hsplit, hperm⟩ := swapPop_perm (getElem?_eq_getElem hi)
  intro y hy
  rw [hsplit]
  exact (List.Sublist.append_left (sublist_cons_self ..) front).subset (hperm.mem_iff.mp hy)

/-- What stands where: the last element in the place that was given, every other
element where it was. -/
theorem getElem?_swapPop {i j : Nat} {y : α} (h : (swapPop l i)[j]? = some y) :
    (j = i ∧ l.getLast? = some y) ∨ (j ≠ i ∧ j + 1 < l.length ∧ l[j]? = some y) := by
  unfold swapPop at h
  cases hlast : l.getLast? with
  | none =>
    cases getLast?_eq_none_iff.mp hlast
    simp at h
  | some last =>
    rw [hlast] at h
    have hlt : j < (l.set i last).dropLast.length := (List.getElem?_eq_some_iff.mp h).1
    rw [length_dropLast, length_set] at hlt
    rw [getElem?_dropLast, length_set, if_pos hlt] at h
    rcases eq_or_ne i j with rfl | hne
    · rw [getElem?_set_self (by omega)] at h
      exact .inl ⟨rfl, h⟩
    · rw [getElem?_set_ne hne] at h
      exact .inr ⟨hne.symm, by omega, h⟩

/-- `rounds` rounds of the loop, from place `i` on. -/
def sweep (p : α → Bool) : Nat → List α → Nat → List α
  | 0, l, _ => l
  | rounds + 1, l, i =>
    match l[i]? with
    | none => l
    | some x => if p x then sweep p rounds (swapPop l i) i else sweep p rounds l (i + 1)

/-- With as many rounds as there are elements left, the loop keeps those without `p`. -/
theorem sweep_perm {p : α → Bool} {rounds : Nat} {front back : List α}
    (hrounds : back.length ≤ rounds) :
    (sweep p rounds (front ++ back) front.length).Perm (front ++ back.filter fun x => !p x) := by
  induction rounds generalizing front back with
  | zero =>
    cases eq_nil_of_length_eq_zero (Nat.le_zero.mp hrounds)
    exact .refl _
  | succ rounds ih =>
    cases back with
    | nil =>
      rw [sweep, getElem?_eq_none (by simp)]
      exact .refl _
    | cons x back =>
      rw [length_cons, Nat.add_le_add_iff_right] at hrounds
      rw [sweep, getElem?_append_right (Nat.le_refl _), Nat.sub_self, getElem?_cons_zero]
      dsimp only
      split
      next hp =>
        obtain ⟨back', heq, hperm⟩ := swapPop_append front x back
        rw [heq, filter_cons_of_neg (by simp [hp])]
        refine (ih (hperm.length_eq ▸ hrounds)).trans ?_
        exact .append_left front (hperm.filter _)
      next hp =>
        have hih := @ih (front ++ [x]) back hrounds
        rw [length_append, append_assoc, append_assoc] at hih
        rw [filter_cons_of_pos (by simp [hp])]
        exact hih

end SwapRemove
