import Mathlib.Logic.Function.Basic
import Mathlib.Data.List.Nodup

/-!
Relations stored at both ends.

Every `a` lists the `b` it is related to, and every `b` lists the `a`.  `Consistent` says
that the two sides agree and list nothing twice.  Linking appends on both sides, unlinking
erases on both sides, and unlinking what is listed makes a list shorter: a loop that unlinks
the last entry of a list until it is empty ends.
-/

namespace Mirrored

open Function List

/-- The two sides of a relation. -/
structure Lists (α β : Type*) where
  fwd : α → List β
  bwd : β → List α

variable {α β : Type*}

namespace Lists

/-- The same relation, seen from the other side. -/
def flip (s : Lists α β) : Lists β α := ⟨s.bwd, s.fwd⟩

structure Consistent (s : Lists α β) : Prop where
  mirror : ∀ a b, b ∈ s.fwd a ↔ a ∈ s.bwd b
  fwd_nodup : ∀ a, (s.fwd a).Nodup
  bwd_nodup : ∀ b, (s.bwd b).Nodup

variable [DecidableEq α] [DecidableEq β]

def unlink (s : Lists α β) (a : α) (b : β) : Lists α β where
  fwd := update s.fwd a ((s.fwd a).filter (· ≠ b))
  bwd := update s.bwd b ((s.bwd b).filter (· ≠ a))

def link (s : Lists α β) (a : α) (b : β) : Lists α β where
  fwd := update s.fwd a (s.fwd a ++ [b])
  bwd := update s.bwd b (s.bwd b ++ [a])

variable {s : Lists α β} {a a' : α} {b b' : β}

theorem fwd_unlink_self : (s.unlink a b).fwd a = (s.fwd a).filter (· ≠ b) :=
  update_self ..

theorem fwd_unlink_of_ne (hne : a' ≠ a) : (s.unlink a b).fwd a' = s.fwd a' :=
  update_of_ne hne ..

theorem mem_fwd_unlink : b' ∈ (s.unlink a b).fwd a' ↔ b' ∈ s.fwd a' ∧ ¬ (a' = a ∧ b' = b) := by
  by_cases ha : a' = a
  · subst ha
    rw [fwd_unlink_self, mem_filter]
    simp
  · rw [fwd_unlink_of_ne ha]
    simp [ha]

theorem mem_bwd_unlink : a' ∈ (s.unlink a b).bwd b' ↔ a' ∈ s.bwd b' ∧ ¬ (a' = a ∧ b' = b) := by
  have h : a' ∈ (s.flip.unlink b a).fwd b' ↔ a' ∈ s.flip.fwd b' ∧ ¬ (b' = b ∧ a' = a) :=
    mem_fwd_unlink
  rw [and_comm (a := b' = b)] at h
  exact h

theorem fwd_unlink_sublist : ((s.unlink a b).fwd a').Sublist (s.fwd a') := by
  by_cases ha : a' = a
  · subst ha
    rw [fwd_unlink_self]
    exact filter_sublist
  · rw [fwd_unlink_of_ne ha]

theorem fwd_link_self : (s.link a b).fwd a = s.fwd a ++ [b] := update_self ..

theorem fwd_link_of_ne (hne : a' ≠ a) : (s.link a b).fwd a' = s.fwd a' :=
  update_of_ne hne ..

theorem mem_fwd_link : b' ∈ (s.link a b).fwd a' ↔ b' ∈ s.fwd a' ∨ (a' = a ∧ b' = b) := by
  by_cases ha : a' = a
  · subst ha
    rw [fwd_link_self, mem_append]
    simp
  · rw [fwd_link_of_ne ha]
    simp [ha]

theorem mem_bwd_link : a' ∈ (s.link a b).bwd b' ↔ a' ∈ s.bwd b' ∨ (a' = a ∧ b' = b) := by
  have h : a' ∈ (s.flip.link b a).fwd b' ↔ a' ∈ s.flip.fwd b' ∨ (b' = b ∧ a' = a) :=
    mem_fwd_link
  rw [and_comm] at h
  exact h

theorem fwd_link_nodup (hnodup : (s.fwd a').Nodup) (hnew : b ∉ s.fwd a) :
    ((s.link a b).fwd a').Nodup := by
  by_cases ha : a' = a
  · subst ha
    rw [fwd_link_self]
    refine nodup_append.mpr ⟨hnodup, nodup_singleton b, fun x hx y hy => ?_⟩
    rw [mem_singleton.mp hy]
    rintro rfl
    exact hnew hx
  · rwa [fwd_link_of_ne ha]

/-- **Unlinking** keeps the two sides in agreement. -/
theorem Consistent.unlink (h : s.Consistent) (a : α) (b : β) : (s.unlink a b).Consistent where
  mirror a' b' := by rw [mem_fwd_unlink, mem_bwd_unlink, h.mirror]
  fwd_nodup a' := (h.fwd_nodup a').sublist fwd_unlink_sublist
  bwd_nodup b' := (h.bwd_nodup b').sublist (fwd_unlink_sublist (s := s.flip))

/-- **Linking** two that are not linked keeps the two sides in agreement. -/
theorem Consistent.link (h : s.Consistent) (hnew : b ∉ s.fwd a) : (s.link a b).Consistent where
  mirror a' b' := by rw [mem_fwd_link, mem_bwd_link, h.mirror]
  fwd_nodup a' := fwd_link_nodup (h.fwd_nodup a') hnew
  bwd_nodup b' := by
    have hnew' : a ∉ s.flip.fwd b := fun hmem => hnew ((h.mirror a b).mpr hmem)
    exact fwd_link_nodup (h.bwd_nodup b') hnew'

/-- Unlinking an entry of a list makes the list shorter. -/
theorem length_fwd_unlink_lt (hmem : b ∈ s.fwd a) :
    ((s.unlink a b).fwd a).length < (s.fwd a).length := by
  rw [fwd_unlink_self]
  refine length_filter_lt_length_iff_exists.mpr ⟨b, hmem, ?_⟩
  simp

end Lists

end Mirrored
