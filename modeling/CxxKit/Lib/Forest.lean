import Mathlib.Logic.Relation
import Mathlib.Logic.Function.Basic
import Mathlib.Data.List.Count

/-!
Forests linked both ways.

`Links` has a parent pointer and a list of children for every node, as a program stores
them; nothing makes the two agree.  A node is `Exact` if exactly its parent lists it, and
exactly once; it is `Loose` if no node lists it.  `attach`, `detach`, `unlink` and `remove`
change one node; what they do to it and that they leave the others alone is said here once.
-/

namespace Forest

open Function List

structure Links (α : Type*) where
  parent : α → Option α
  children : α → List α

namespace Links

variable {α : Type*} {L L' : Links α}

def Up (L : Links α) (a b : α) : Prop := L.parent a = some b

/-- Following the parent links never leads back. -/
def Acyclic (L : Links α) : Prop := ∀ a, ¬ Relation.TransGen L.Up a a

theorem Acyclic.mono (h : L.Acyclic) (hup : ∀ a b, L'.Up a b → L.Up a b) : L'.Acyclic :=
  fun a ha => h a (Relation.TransGen.mono hup a a ha)

variable {a p b : α}

/-- One new edge, from a node that its other end does not reach. -/
theorem Acyclic.of_edge (h : L.Acyclic) (hup : ∀ x y, L'.Up x y → L.Up x y ∨ (x = a ∧ y = p))
    (hpa : ¬ Relation.ReflTransGen L.Up p a) : L'.Acyclic := by
  -- a path either avoids the new edge, or comes to it and goes on from its end
  have hpath : ∀ x y, Relation.TransGen L'.Up x y → Relation.TransGen L.Up x y ∨
      (Relation.ReflTransGen L.Up x a ∧ Relation.ReflTransGen L.Up p y) := by
    intro x y hxy
    induction hxy with
    | single hedge =>
      rcases hup _ _ hedge with hold | ⟨rfl, rfl⟩
      · exact .inl (.single hold)
      · exact .inr ⟨.refl, .refl⟩
    | tail _ hedge ih =>
      rcases hup _ _ hedge with hold | ⟨rfl, rfl⟩
      · exact ih.imp (·.tail hold) fun h => ⟨h.1, h.2.tail hold⟩
      · rcases ih with hxa | ⟨-, hpa'⟩
        · exact .inr ⟨hxa.to_reflTransGen, .refl⟩
        · exact absurd hpa' hpa
  intro x hx
  rcases hpath x x hx with hcycle | ⟨hxa, hpx⟩
  · exact h x hcycle
  · exact hpa (hpx.trans hxa)

variable [DecidableEq α] {q c x y : α}

def Exact (L : Links α) (a : α) : Prop :=
  ∀ p, (L.children p).count a = if L.parent a = some p then 1 else 0

def Loose (L : Links α) (a : α) : Prop := ∀ p, a ∉ L.children p

theorem Exact.loose (h : L.Exact a)
    (hroot : ∀ p, L.parent a = some p → a ∉ L.children p) : L.Loose a := by
  intro p
  by_cases hp : L.parent a = some p
  · exact hroot p hp
  · have hcount := h p
    rw [if_neg hp] at hcount
    exact count_eq_zero.mp hcount

theorem Exact.loose_of_root (h : L.Exact a) (hroot : L.parent a = none) : L.Loose a := by
  refine h.loose fun p hp => ?_
  rw [hroot] at hp
  cases hp

theorem Loose.exact (h : L.Loose a) (hroot : L.parent a = none) : L.Exact a := by
  intro p
  rw [hroot]
  exact count_eq_zero.mpr (h p)

/-- The links of `a`, up and down to it, are the same. -/
structure Same (L L' : Links α) (a : α) : Prop where
  parent : L'.parent a = L.parent a
  count : ∀ p, (L'.children p).count a = (L.children p).count a

theorem Same.exact (h : Same L L' a) (ha : L.Exact a) : L'.Exact a := by
  intro p
  rw [h.parent, h.count]
  exact ha p

theorem Same.loose (h : Same L L' a) (ha : L.Loose a) : L'.Loose a := by
  intro p
  rw [← count_eq_zero, h.count]
  exact count_eq_zero.mpr (ha p)

/-! ### Attaching -/

def attach (L : Links α) (a p : α) : Links α where
  parent := update L.parent a (some p)
  children := update L.children p (L.children p ++ [a])

theorem attach_exact (h : L.Loose a) (p : α) : (L.attach a p).Exact a := by
  intro q
  simp only [attach, update_self, Option.some.injEq]
  rcases eq_or_ne q p with rfl | hne
  · rw [update_self, count_append, count_eq_zero.mpr (h q)]
    simp
  · rw [update_of_ne hne, count_eq_zero.mpr (h q), if_neg hne.symm]

theorem attach_same (hne : b ≠ a) (p : α) : Same L (L.attach a p) b where
  parent := update_of_ne hne ..
  count q := by
    rcases eq_or_ne q p with rfl | hq
    · simp [attach, hne.symm]
    · simp [attach, update_of_ne hq]

theorem mem_attach (h : c ∈ (L.attach a p).children q) : c ∈ L.children q ∨ c = a := by
  simp only [attach] at h
  rcases eq_or_ne q p with rfl | hne
  · simpa using h
  · rw [update_of_ne hne] at h
    exact .inl h

theorem attach_up (h : (L.attach a p).Up x y) : L.Up x y ∨ (x = a ∧ y = p) := by
  simp only [Up, attach] at h
  rcases eq_or_ne x a with rfl | hne
  · rw [update_self] at h
    exact .inr ⟨rfl, (Option.some.inj h).symm⟩
  · rw [update_of_ne hne] at h
    exact .inl h

/-! ### Detaching -/

/-- The parent forgets its child, the child not its parent. -/
def detach (L : Links α) (a p : α) : Links α where
  parent := L.parent
  children := update L.children p ((L.children p).filter (· ≠ a))

theorem mem_detach : c ∈ (L.detach a p).children q ↔ c ∈ L.children q ∧ (q = p → c ≠ a) := by
  simp only [detach]
  rcases eq_or_ne q p with rfl | hne
  · simp
  · simp [hne]

theorem detach_same (hne : b ≠ a) (p : α) : Same L (L.detach a p) b where
  parent := rfl
  count q := by
    rcases eq_or_ne q p with rfl | hq
    · simp [detach, hne, count_filter]
    · simp [detach, update_of_ne hq]

theorem Loose.detach (h : L.Loose a) (p : α) : (L.detach a p).Loose a :=
  fun q hmem => h q (mem_detach.mp hmem).1

theorem Exact.detach (h : L.Exact a) (hp : L.parent a = some p) : (L.detach a p).Loose a := by
  intro q hmem
  obtain ⟨hlisted, hne⟩ := mem_detach.mp hmem
  have hq : L.parent a ≠ some q := by
    rw [hp]
    exact fun heq => hne (Option.some.inj heq).symm rfl
  have hcount := h q
  rw [if_neg hq] at hcount
  exact count_eq_zero.mp hcount hlisted

/-! ### Unlinking and removing -/

/-- The child forgets its parent. -/
def unlink (L : Links α) (a : α) : Links α where
  parent := update L.parent a none
  children := L.children

theorem unlink_same (hne : b ≠ a) : Same L (L.unlink a) b :=
  ⟨update_of_ne hne .., fun _ => rfl⟩

theorem Loose.unlink (h : L.Loose a) : (L.unlink a).Exact a := by
  have hloose : (L.unlink a).Loose a := h
  exact hloose.exact (update_self ..)

theorem unlink_up (h : (L.unlink a).Up x y) : x ≠ a ∧ L.Up x y := by
  simp only [Up, unlink] at h
  rcases eq_or_ne x a with rfl | hne
  · rw [update_self] at h
    cases h
  · rw [update_of_ne hne] at h
    exact ⟨hne, h⟩

/-- The node has no links of its own any more. -/
def remove (L : Links α) (a : α) : Links α where
  parent := update L.parent a none
  children := update L.children a []

theorem remove_eq_self (hparent : L.parent a = none) (hchildren : L.children a = []) :
    L.remove a = L := by
  rw [remove, ← hparent, ← hchildren, update_eq_self, update_eq_self]

theorem remove_eq_unlink (h : L.children a = []) : L.remove a = L.unlink a := by
  rw [remove, ← h, update_eq_self]
  rfl

end Links

end Forest
