import Mathlib.Data.List.Count
import Mathlib.Data.List.Induction
import Mathlib.Data.List.Perm.Subperm

/-!
Lists as families indexed by position.

Replacing one member changes a count by that member only (`countP_set_add`), and what the
members hold together by what it gives up (`flatMap_perm_set`); a count is at most the length
of any list that holds the positions counted (`countP_le_length`).
-/

namespace Indexed

open List Option

variable {α β : Type*} {l : List α} {i : Nat} {a b : α} {p : α → Bool}

theorem countP_set_add (p : α → Bool) (b : α) (h : l[i]? = some a) :
    (l.set i b).countP p + (p a).toNat = l.countP p + (p b).toNat := by
  have hcons (x : α) (l : List α) : (x :: l).countP p = l.countP p + (p x).toNat := by
    cases hp : p x <;> simp [hp]
  induction l generalizing i with
  | nil => simp at h
  | cons x l ih =>
    cases i with
    | zero =>
      obtain rfl : x = a := by simpa using h
      rw [set_cons_zero, hcons, hcons]
      omega
    | succ i =>
      have hrest := ih (show l[i]? = some a by simpa using h)
      rw [set_cons_succ, hcons, hcons]
      omega

theorem getElem?_set_cases {j : Nat} {b c : α} (h : (l.set i b)[j]? = some c) :
    j = i ∧ c = b ∨ j ≠ i ∧ l[j]? = some c := by
  rw [getElem?_set] at h
  split at h
  next hij =>
    obtain ⟨-, heq⟩ := ite_none_right_eq_some.mp h
    exact .inl ⟨hij.symm, (Option.some.inj heq).symm⟩
  next hij =>
    exact .inr ⟨Ne.symm hij, h⟩

theorem map_set_of_eq {f : α → β} (h : l[i]? = some a) (hf : f b = f a) :
    (l.set i b).map f = l.map f := by
  apply ext_getElem?
  intro j
  rw [getElem?_map, getElem?_map, getElem?_set]
  split
  next hij =>
    subst hij
    rw [if_pos (List.getElem?_eq_some_iff.mp h).1, h, Option.map_some, Option.map_some, hf]
  · rfl

/-- A member that gives up the first thing it holds. -/
theorem flatMap_perm_set {f : α → List β} {x : β} (h : l[i]? = some a) (hf : f a = x :: f b) :
    (l.flatMap f).Perm (x :: (l.set i b).flatMap f) := by
  induction l generalizing i with
  | nil => simp at h
  | cons y l ih =>
    cases i with
    | zero =>
      obtain rfl : y = a := by simpa using h
      rw [flatMap_cons, hf]
      exact .refl _
    | succ i =>
      have hrest := ih (show l[i]? = some a by simpa using h)
      exact (hrest.append_left (f y)).trans perm_middle

/-- The positions at which `p` holds. -/
def positions (p : α → Bool) (l : List α) : List Nat :=
  (range l.length).filter fun i => (l[i]?).any p

theorem mem_positions : i ∈ positions p l ↔ ∃ a, l[i]? = some a ∧ p a = true := by
  unfold positions
  rw [mem_filter, mem_range, Option.any_eq_true]
  constructor
  · rintro ⟨-, a, ha, hp⟩
    exact ⟨a, ha, hp⟩
  · rintro ⟨a, ha, hp⟩
    exact ⟨(List.getElem?_eq_some_iff.mp ha).1, a, ha, hp⟩

theorem length_positions (p : α → Bool) (l : List α) : (positions p l).length = l.countP p := by
  induction l using reverseRecOn with
  | nil => rfl
  | append_singleton l a ih =>
    have hinit : (range l.length).filter (fun i => ((l ++ [a])[i]?).any p) =
        positions p l := by
      apply filter_congr
      intro i hi
      rw [getElem?_append_left (mem_range.mp hi)]
    have hlast : [l.length].filter (fun i => ((l ++ [a])[i]?).any p) =
        if p a then [l.length] else [] := by
      rw [filter_singleton, getElem?_concat_length, cond_eq_ite]
      rfl
    rw [positions, length_append, length_singleton, range_succ,
      filter_append, hinit, hlast, length_append, ih, countP_append,
      countP_singleton]
    split <;> rfl

theorem countP_le_length {xs : List Nat} (h : ∀ i a, l[i]? = some a → p a = true → i ∈ xs) :
    l.countP p ≤ xs.length := by
  rw [← length_positions]
  have hnodup : (positions p l).Nodup := nodup_range.filter _
  apply (subperm_of_subset hnodup _).length_le
  intro i hi
  obtain ⟨a, ha, hp⟩ := mem_positions.mp hi
  exact h i a ha hp

end Indexed
