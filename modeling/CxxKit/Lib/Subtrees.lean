import CxxKit.Lib.Forest
import Mathlib.Data.List.Nodup
import Mathlib.Data.List.Perm.Subperm

/-!
Finite forests and their subtrees.

`Grown L alive` says that `L` is a forest of the nodes `alive`: every node is listed exactly
by its parent, parents are there, and nothing else has links.  `Below x a` says that `x` is
in the subtree of `a`, and `population` counts the nodes of a subtree.
-/

namespace Forest.Links

open Function List

variable {α : Type*} {L L' : Links α} {alive alive' : List α} {a c p x : α}

/-- `x` is in the subtree of `a`. -/
def Below (L : Links α) (x a : α) : Prop := Relation.ReflTransGen L.Up x a

open Classical in
/-- The number of nodes in the subtree of `a`. -/
noncomputable def population (L : Links α) (alive : List α) (a : α) : Nat :=
  (alive.filter fun x => L.Below x a).length

/-- Nodes of a subtree other than its root are fewer than the subtree has. -/
theorem lt_population {l : List α} (hnodup : l.Nodup) (hsub : ∀ x ∈ l, x ∈ alive ∧ L.Below x a)
    (ha : a ∈ alive) (hnot : a ∉ l) : l.length < L.population alive a := by
  classical
  have hself : L.Below a a := .refl
  have hsubset : a :: l ⊆ alive.filter fun x => L.Below x a := by
    intro x hx
    rcases mem_cons.mp hx with rfl | hx
    · exact mem_filter.mpr ⟨ha, by simpa using hself⟩
    · obtain ⟨hin, hbelow⟩ := hsub x hx
      exact mem_filter.mpr ⟨hin, by simpa using hbelow⟩
  exact (subperm_of_subset (nodup_cons.mpr ⟨hnot, hnodup⟩) hsubset).length_le

/-- A subtree within another one that lacks its root is smaller. -/
theorem population_lt (hnodup : alive'.Nodup)
    (hsub : ∀ x ∈ alive', L'.Below x c → x ∈ alive ∧ L.Below x a)
    (ha : a ∈ alive) (hnot : ¬ L'.Below a c) :
    L'.population alive' c < L.population alive a := by
  classical
  refine lt_population (hnodup.filter _) ?_ ha ?_
  · intro x hx
    obtain ⟨hmem, hbelow⟩ := mem_filter.mp hx
    exact hsub x hmem (by simpa using hbelow)
  · intro hmem
    exact hnot (by simpa using (mem_filter.mp hmem).2)

open Classical in
/-- The number of nodes a node is below of, itself included. -/
noncomputable def depth (L : Links α) (alive : List α) (x : α) : Nat :=
  (alive.filter fun a => L.Below x a).length

theorem depth_le (x : α) : L.depth alive x ≤ alive.length := length_filter_le ..

theorem depth_pos (hx : x ∈ alive) : 0 < L.depth alive x := by
  classical
  have hself : L.Below x x := .refl
  exact length_pos_of_mem (mem_filter.mpr ⟨hx, by simpa using hself⟩)

/-- A parent is less deep than its child. -/
theorem Acyclic.depth_lt (h : L.Acyclic) (hx : x ∈ alive) (hp : L.parent x = some p) :
    L.depth alive p < L.depth alive x := by
  classical
  have hself : L.Below x x := .refl
  have hnot : ¬ L.Below p x := fun hbelow => h x (.head' hp hbelow)
  have hfilter : (alive.filter fun a => L.Below p a) =
      (alive.filter fun a => L.Below x a).filter fun a => L.Below p a := by
    rw [filter_filter]
    refine filter_congr fun a _ => ?_
    have hup : L.Below p a → L.Below x a := fun hbelow => Relation.ReflTransGen.head hp hbelow
    simpa using hup
  unfold depth
  rw [hfilter]
  refine length_filter_lt_length_iff_exists.mpr ⟨x, ?_, by simpa using hnot⟩
  exact mem_filter.mpr ⟨hx, by simpa using hself⟩

variable [DecidableEq α]

structure Grown (L : Links α) (alive : List α) : Prop where
  nodup : alive.Nodup
  exact : ∀ x ∈ alive, L.Exact x
  listed : ∀ p, ∀ c ∈ L.children p, c ∈ alive
  parents : ∀ x ∈ alive, ∀ p, L.parent x = some p → p ∈ alive
  bare : ∀ x, x ∉ alive → L.parent x = none ∧ L.children x = []
  acyclic : L.Acyclic

section

variable (h : L.Grown alive)

include h

theorem Grown.mem_children : c ∈ L.children p ↔ c ∈ alive ∧ L.parent c = some p := by
  constructor
  · intro hc
    have halive := h.listed p c hc
    refine ⟨halive, ?_⟩
    by_contra hne
    have hcount := h.exact c halive p
    rw [if_neg hne] at hcount
    exact count_eq_zero.mp hcount hc
  · rintro ⟨halive, hparent⟩
    have hcount := h.exact c halive p
    rw [if_pos hparent] at hcount
    exact count_pos_iff.mp (by omega)

theorem Grown.children_nodup (p : α) : (L.children p).Nodup := by
  refine nodup_iff_count_le_one.mpr fun c => ?_
  by_cases hc : c ∈ L.children p
  · rw [h.exact c (h.listed p c hc) p]
    split <;> omega
  · rw [count_eq_zero.mpr hc]
    exact Nat.zero_le 1

/-! ### Subtrees -/

theorem Grown.below_alive (hx : x ∈ alive) (hbelow : L.Below x a) : a ∈ alive := by
  induction hbelow with
  | refl => exact hx
  | tail _ hup ih => exact h.parents _ ih _ hup

/-- A subtree is its root and the subtrees of the root's children. -/
theorem Grown.below_iff (hx : x ∈ alive) :
    L.Below x a ↔ x = a ∨ ∃ c ∈ L.children a, L.Below x c := by
  constructor
  · intro hbelow
    rcases Relation.ReflTransGen.cases_tail hbelow with heq | ⟨c, hxc, hup⟩
    · exact .inl heq.symm
    · exact .inr ⟨c, h.mem_children.mpr ⟨h.below_alive hx hxc, hup⟩, hxc⟩
  · rintro (rfl | ⟨c, hc, hxc⟩)
    · exact .refl
    · exact hxc.tail (h.mem_children.mp hc).2

theorem Grown.not_below_leaf (hx : x ∈ alive) (hleaf : L.children a = [])
    (hne : x ≠ a) : ¬ L.Below x a := by
  rw [h.below_iff hx, hleaf]
  rintro (heq | ⟨c, hc, -⟩)
  · exact hne heq
  · cases hc

theorem Grown.not_below_child (hc : c ∈ L.children a) : ¬ L.Below a c :=
  fun hbelow => h.acyclic c (.head' (h.mem_children.mp hc).2 hbelow)

theorem Grown.length_children_lt (ha : a ∈ alive) :
    (L.children a).length < L.population alive a := by
  refine lt_population (h.children_nodup a) ?_ ha ?_
  · intro c hc
    exact ⟨h.listed a c hc, .single (h.mem_children.mp hc).2⟩
  · exact fun hself => h.not_below_child hself .refl

end

/-- Nodes keep their place as long as the nodes above them keep their parents. -/
theorem Grown.below_congr (h' : L'.Grown alive')
    (hparent : ∀ y ∈ alive', L'.parent y = L.parent y) (hx : x ∈ alive') :
    L'.Below x a ↔ L.Below x a := by
  constructor
  · intro hbelow
    induction hbelow with
    | refl => exact .refl
    | tail hpath hup ih =>
      have hmem := h'.below_alive hx hpath
      exact ih.tail ((hparent _ hmem).symm.trans hup)
  · intro hbelow
    induction hbelow with
    | refl => exact .refl
    | tail hpath hup ih =>
      have hmem := h'.below_alive hx ih
      exact ih.tail ((hparent _ hmem).trans hup)

/-! ### Moving and cutting -/

/-- No node has any links. -/
def edgeless : Links α := ⟨fun _ => none, fun _ => []⟩

theorem grown_edgeless (hnodup : alive.Nodup) : (edgeless : Links α).Grown alive where
  nodup := hnodup
  exact _ _ _ := rfl
  listed _ _ hc := by cases hc
  parents _ _ _ hp := by cases hp
  bare _ _ := ⟨rfl, rfl⟩
  acyclic _ hcycle := by
    obtain ⟨_, hup, -⟩ := Relation.TransGen.head'_iff.mp hcycle
    cases hup

/-- The node leaves its parent, if it has one. -/
def orphan (L : Links α) (a : α) : Links α :=
  match L.parent a with
  | none => L
  | some p => (L.detach a p).unlink a

theorem orphan_parent : (L.orphan a).parent = update L.parent a none := by
  unfold orphan
  split
  next hroot =>
    rw [← hroot, update_eq_self]
  · rfl

variable (h : L.Grown alive)
include h

/-- The node disappears from the lists, which are otherwise as they were. -/
theorem Grown.orphan_children (q : α) :
    (L.orphan a).children q = (L.children q).filter (· ≠ a) := by
  have hother : L.parent a ≠ some q → (L.children q).filter (· ≠ a) = L.children q := by
    intro hne
    refine filter_eq_self.mpr fun c hc => ?_
    have hca : c ≠ a := by
      rintro rfl
      exact hne (h.mem_children.mp hc).2
    simpa using hca
  unfold orphan
  split
  next hroot =>
    rw [hother (by rw [hroot]; nofun)]
  next p hp =>
    by_cases hq : q = p
    · subst hq
      exact update_self ..
    · rw [hother (by rw [hp]; exact fun heq => hq (Option.some.inj heq).symm)]
      exact update_of_ne hq ..

omit h in
theorem orphan_up {x y : α} (h : (L.orphan a).Up x y) : x ≠ a ∧ L.Up x y := by
  rw [Up, orphan_parent] at h
  by_cases hx : x = a
  · rw [hx, update_self] at h
    cases h
  · rw [update_of_ne hx] at h
    exact ⟨hx, h⟩

theorem Grown.orphan (a : α) : (L.orphan a).Grown alive := by
  have hchildren := fun q => h.orphan_children (a := a) q
  refine ⟨h.nodup, ?_, ?_, ?_, ?_, h.acyclic.mono fun x y hup => (orphan_up hup).2⟩
  · intro x hx p
    rw [hchildren, orphan_parent]
    by_cases hxa : x = a
    · rw [hxa, update_self]
      exact count_eq_zero.mpr fun hmem => by simp at hmem
    · rw [count_filter (by simpa using hxa), update_of_ne hxa]
      exact h.exact x hx p
  · intro p c hc
    rw [hchildren] at hc
    exact h.listed p c (mem_of_mem_filter hc)
  · exact fun x hx p hp => h.parents x hx p (orphan_up hp).2
  · intro x hx
    obtain ⟨hroot, hnone⟩ := h.bare x hx
    rw [hchildren, hnone, orphan_parent]
    refine ⟨?_, rfl⟩
    by_cases hxa : x = a
    · rw [hxa, update_self]
    · rw [update_of_ne hxa, hroot]

/-- **A root that its new parent is not below** can be attached. -/
theorem Grown.attach (ha : a ∈ alive) (hp : p ∈ alive) (hroot : L.parent a = none)
    (hbelow : ¬ L.Below p a) : (L.attach a p).Grown alive := by
  refine ⟨h.nodup, ?_, ?_, ?_, ?_, h.acyclic.of_edge (fun x y hup => attach_up hup) hbelow⟩
  · intro x hx
    by_cases hxa : x = a
    · rw [hxa]
      exact attach_exact ((h.exact a ha).loose_of_root hroot) p
    · exact (attach_same hxa p).exact (h.exact x hx)
  · intro q c hc
    rcases mem_attach hc with hold | rfl
    · exact h.listed q c hold
    · exact ha
  · intro x hx q hq
    rcases attach_up hq with hold | ⟨-, rfl⟩
    · exact h.parents x hx q hold
    · exact hp
  · intro x hx
    have hxa : x ≠ a := fun heq => hx (heq ▸ ha)
    have hxp : x ≠ p := fun heq => hx (heq ▸ hp)
    obtain ⟨hparent, hnone⟩ := h.bare x hx
    exact ⟨(update_of_ne hxa ..).trans hparent, (update_of_ne hxp ..).trans hnone⟩

/-- A root without children can go. -/
theorem Grown.drop (hroot : L.parent a = none) (hleaf : L.children a = []) :
    L.Grown (alive.filter (· ≠ a)) := by
  have hmem : ∀ {x}, x ∈ alive.filter (· ≠ a) ↔ x ∈ alive ∧ x ≠ a := by
    intro x
    simp [mem_filter]
  refine ⟨h.nodup.filter _, fun x hx => h.exact x (hmem.mp hx).1, ?_, ?_, ?_, h.acyclic⟩
  · intro p c hc
    refine hmem.mpr ⟨h.listed p c hc, ?_⟩
    rintro rfl
    rw [(h.mem_children.mp hc).2] at hroot
    cases hroot
  · intro x hx p hp
    have hin := (hmem.mp hx).1
    refine hmem.mpr ⟨h.parents x hin p hp, ?_⟩
    rintro rfl
    have hchild := h.mem_children.mpr ⟨hin, hp⟩
    rw [hleaf] at hchild
    cases hchild
  · intro x hx
    by_cases hxa : x = a
    · rw [hxa]
      exact ⟨hroot, hleaf⟩
    · exact h.bare x fun hin => hx (hmem.mpr ⟨hin, hxa⟩)

end Forest.Links
