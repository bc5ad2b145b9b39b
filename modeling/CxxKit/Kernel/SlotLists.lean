import CxxKit.Kernel.Signals

/-!
What the operations of a signal do to its slot list.

Slots are moved about within their group and told their new index; `Reindexed` says that
nothing else of a slot changes.  A list is `Tidy` if its groups are in ascending order,
hold slots of that group only, and hold none twice.
-/

namespace CxxKit.Signals

open List SwapRemove

variable {slots slots' : Nat → Option Slot} {groups groups' : List Group} {x : Nat}

/-! ### Slots that only move -/

/-- What of a slot does not depend on where it is stored. -/
def Slot.face (slot : Slot) : Slot := { slot with mIndex := 0, mCleaner := 0 }

def Reindexed (slots slots' : Nat → Option Slot) : Prop :=
  ∀ x, (slots' x).map Slot.face = (slots x).map Slot.face

theorem Reindexed.refl (slots : Nat → Option Slot) : Reindexed slots slots := fun _ => rfl

theorem Reindexed.trans {slots'' : Nat → Option Slot} (h : Reindexed slots slots')
    (h' : Reindexed slots' slots'') : Reindexed slots slots'' :=
  fun x => (h' x).trans (h x)

/-- The slots that are there and the groups, flags and callables they have are the same. -/
theorem Reindexed.map {β : Type*} (h : Reindexed slots slots') {f : Slot → β}
    (hf : ∀ slot : Slot, f slot = f slot.face) (x : Nat) :
    (slots' x).map f = (slots x).map f := by
  have hface : f = f ∘ Slot.face := funext hf
  rw [hface, ← Option.map_map, h, Option.map_map]

section

variable (slots)

theorem setIndex_reindexed (x i : Nat) : Reindexed slots (setIndex slots x i) := by
  intro y
  rcases eq_or_ne y x with rfl | hne
  · rw [setIndex, Function.update_self, Option.map_map]
    rfl
  · rw [setIndex, Function.update_of_ne hne]

theorem removeAt_reindexed (slts : List Nat) (i : Nat) :
    Reindexed slots (removeAt slots slts i).1 := by
  unfold removeAt
  split
  · exact .refl _
  · exact setIndex_reindexed slots _ i

theorem removeAt_slts (slts : List Nat) (i : Nat) : (removeAt slots slts i).2 = swapPop slts i := by
  unfold removeAt
  split
  next hnone =>
    rw [swapPop, hnone]
  · rfl

theorem cleanGroups_reindexed (x index : Nat) (gid : Int) (groups : List Group) :
    Reindexed slots (cleanGroups slots x index gid groups).1 := by
  induction groups with
  | nil => exact .refl _
  | cons g groups ih =>
    unfold cleanGroups
    split
    · split
      · exact removeAt_reindexed slots g.slts index
      · exact .refl _
    · exact ih

theorem disconnectLoop_reindexed (cond : Nat → Bool) (rounds : Nat) (slots : Nat → Option Slot)
    (slts : List Nat) (i : Nat) : Reindexed slots (disconnectLoop cond rounds slots slts i).1 := by
  induction rounds generalizing slots slts i with
  | zero => exact .refl _
  | succ rounds ih =>
    unfold disconnectLoop
    split
    · exact .refl _
    · split
      · exact (removeAt_reindexed slots slts i).trans (ih _ _ _)
      · exact ih _ _ _

theorem disconnectGroups_reindexed (cond : Nat → Bool) (slots : Nat → Option Slot)
    (groups : List Group) : Reindexed slots (disconnectGroups cond slots groups).1 := by
  induction groups generalizing slots with
  | nil => exact .refl _
  | cons g groups ih => exact (disconnectLoop_reindexed cond _ slots g.slts 0).trans (ih _)

theorem rerouteSlotsTo_reindexed (list : List Nat) (target : Nat) :
    Reindexed slots (rerouteSlotsTo slots list target) := by
  intro y
  unfold rerouteSlotsTo
  split
  · rw [Option.map_map]
    rfl
  · rfl

end

/-! ### Lists that only lose slots -/

def Group.Shrinks (g g' : Group) : Prop :=
  g'.gid = g.gid ∧ g'.slts ⊆ g.slts ∧ (g.slts.Nodup → g'.slts.Nodup)

theorem Group.Shrinks.refl (g : Group) : g.Shrinks g := ⟨rfl, List.Subset.refl _, id⟩

def Shrinks : List Group → List Group → Prop := List.Forall₂ Group.Shrinks

theorem Shrinks.refl (groups : List Group) : Shrinks groups groups :=
  forall₂_same.mpr fun g _ => .refl g

variable {g : Group} {y : Nat} {gid : Int}

section

variable (cond : Nat → Bool)

variable (slots : Nat → Option Slot)

theorem Group.Shrinks.of_perm {slts kept : List Nat} (hperm : slts.Perm kept)
    (hsub : kept.Sublist g.slts) : g.Shrinks { g with slts := slts } :=
  ⟨rfl, fun _ hy => hsub.subset (hperm.mem_iff.mp hy),
    fun hnodup => hperm.nodup_iff.mpr (hnodup.sublist hsub)⟩

/-- `clean` takes at most the slot at the given index. -/
theorem cleanGroups_shrinks (x index : Nat) (gid : Int) (groups : List Group) :
    Shrinks groups (cleanGroups slots x index gid groups).2 := by
  induction groups with
  | nil => exact .nil
  | cons g groups ih =>
    unfold cleanGroups
    split
    · split
      next hfound =>
        refine .cons ?_ (Shrinks.refl groups)
        obtain ⟨front, back, hslts, hperm⟩ := swapPop_perm hfound
        rw [← removeAt_slts slots g.slts] at hperm
        refine .of_perm hperm ?_
        rw [hslts]
        exact .append_left (sublist_cons_self x back) front
      · exact Shrinks.refl _
    · exact .cons (.refl g) ih

theorem disconnectLoop_slts (rounds : Nat) (slots : Nat → Option Slot) (slts : List Nat) (i : Nat) :
    (disconnectLoop cond rounds slots slts i).2 = sweep cond rounds slts i := by
  induction rounds generalizing slots slts i with
  | zero => rfl
  | succ rounds ih =>
    cases hx : slts[i]? with
    | none => simp only [disconnectLoop, sweep, hx]
    | some x =>
      simp only [disconnectLoop, sweep, hx]
      split
      · rw [ih, removeAt_slts]
      · exact ih _ _ _

theorem disconnectLoop_perm (slts : List Nat) :
    (disconnectLoop cond slts.length slots slts 0).2.Perm (slts.filter fun x => !cond x) := by
  rw [disconnectLoop_slts]
  exact @sweep_perm Nat cond slts.length [] slts (Nat.le_refl _)

theorem disconnectGroups_shrinks (groups : List Group) :
    Shrinks groups (disconnectGroups cond slots groups).2 := by
  induction groups generalizing slots with
  | nil => exact .nil
  | cons g groups ih =>
    refine .cons ?_ (ih _)
    exact .of_perm (disconnectLoop_perm cond slots g.slts) filter_sublist

end

theorem clearGroup_shrinks (gid : Int) (groups : List Group) :
    Shrinks groups (clearGroup gid groups) := by
  induction groups with
  | nil => exact .nil
  | cons g groups ih =>
    unfold clearGroup
    split
    · exact .cons ⟨rfl, nil_subset _, fun _ => nodup_nil⟩ (Shrinks.refl groups)
    · exact .cons (.refl g) ih

theorem mem_allSlots : y ∈ allSlots groups ↔ ∃ g ∈ groups, y ∈ g.slts :=
  mem_flatMap

theorem Shrinks.mem (h : Shrinks groups groups') (hy : y ∈ allSlots groups') :
    y ∈ allSlots groups := by
  induction h with
  | nil => exact hy
  | cons hg _ ih =>
    rw [allSlots, flatMap_cons, mem_append] at hy ⊢
    exact hy.imp (fun hmem => hg.2.1 hmem) ih

/-- `disconnect_if` leaves no slot that meets the condition. -/
theorem mem_disconnectGroups {cond : Nat → Bool}
    (hy : y ∈ allSlots (disconnectGroups cond slots groups).2) : cond y = false := by
  induction groups generalizing slots with
  | nil => cases hy
  | cons g groups ih =>
    rw [disconnectGroups, allSlots, flatMap_cons, mem_append] at hy
    rcases hy with hy | hy
    · have hkept := (disconnectLoop_perm cond slots g.slts).mem_iff.mp hy
      simpa using (mem_filter.mp hkept).2
    · exact ih hy

/-! ### Tidy lists -/

/-- The group of a slot that is there. -/
def groupOf (slots : Nat → Option Slot) (x : Nat) : Option Int := (slots x).map (·.mGroup)

structure Tidy (slots : Nat → Option Slot) (groups : List Group) : Prop where
  sorted : groups.Pairwise (·.gid < ·.gid)
  grouped : ∀ g ∈ groups, ∀ x ∈ g.slts, groupOf slots x = some g.gid
  nodup : ∀ g ∈ groups, g.slts.Nodup

theorem tidy_nil (slots : Nat → Option Slot) : Tidy slots [] :=
  ⟨.nil, nofun, nofun⟩

theorem tidy_cons : Tidy slots (g :: groups) ↔
    (∀ g' ∈ groups, g.gid < g'.gid) ∧ (∀ x ∈ g.slts, groupOf slots x = some g.gid) ∧
      g.slts.Nodup ∧ Tidy slots groups := by
  constructor
  · rintro ⟨hsorted, hgrouped, hnodup⟩
    rw [pairwise_cons] at hsorted
    rw [forall_mem_cons] at hgrouped hnodup
    exact ⟨hsorted.1, hgrouped.1, hnodup.1, hsorted.2, hgrouped.2, hnodup.2⟩
  · rintro ⟨hlt, hgroup, hslts, htidy⟩
    exact ⟨pairwise_cons.mpr ⟨hlt, htidy.sorted⟩, forall_mem_cons.mpr ⟨hgroup, htidy.grouped⟩,
      forall_mem_cons.mpr ⟨hslts, htidy.nodup⟩⟩

variable (h : Tidy slots groups) {g' : Group}
include h

theorem Tidy.of_groupOf (hgroup : ∀ x ∈ allSlots groups, groupOf slots' x = groupOf slots x) :
    Tidy slots' groups := by
  refine ⟨h.sorted, ?_, h.nodup⟩
  intro g hg x hx
  rw [hgroup x (mem_allSlots.mpr ⟨g, hg, hx⟩)]
  exact h.grouped g hg x hx

omit h in
theorem Shrinks.gid_mem (h : Shrinks groups groups') (hg : g' ∈ groups') :
    ∃ g ∈ groups, g'.gid = g.gid := by
  induction h with
  | nil => cases hg
  | @cons g g'' groups groups' hshrink _ ih =>
    rcases mem_cons.mp hg with rfl | hg
    · exact ⟨g, mem_cons_self, hshrink.1⟩
    · obtain ⟨g₀, hmem, heq⟩ := ih hg
      exact ⟨g₀, mem_cons_of_mem _ hmem, heq⟩

theorem Tidy.shrinks (hshrinks : Shrinks groups groups') : Tidy slots groups' := by
  induction hshrinks with
  | nil => exact h
  | @cons g g' groups groups' hg hrest ih =>
    obtain ⟨hlt, hgroup, hnodup, htidy⟩ := tidy_cons.mp h
    obtain ⟨hgid, hsub, hkeeps⟩ := hg
    refine tidy_cons.mpr ⟨?_, ?_, hkeeps hnodup, ih htidy⟩
    · intro g'' hmem
      obtain ⟨g₀, hmem₀, heq⟩ := Shrinks.gid_mem hrest hmem
      rw [hgid, heq]
      exact hlt g₀ hmem₀
    · intro y hy
      rw [hgid]
      exact hgroup y (hsub hy)

/-- A tidy list with no other slots. -/
def Fewer (slots : Nat → Option Slot) (groups groups' : List Group) : Prop :=
  Tidy slots groups' ∧ allSlots groups' ⊆ allSlots groups

theorem Tidy.fewer (hshrinks : Shrinks groups groups') : Fewer slots groups groups' :=
  ⟨h.shrinks hshrinks, fun _ hy => hshrinks.mem hy⟩

omit h in
theorem fewer_nil (slots : Nat → Option Slot) (groups : List Group) : Fewer slots groups [] :=
  ⟨tidy_nil slots, nil_subset _⟩

/-- A slot is stored under its own group only. -/
theorem Tidy.gid_eq (hg : g ∈ groups) (hg' : g' ∈ groups) (hx : x ∈ g.slts) (hx' : x ∈ g'.slts) :
    g.gid = g'.gid := by
  have heq := (h.grouped g hg x hx).symm.trans (h.grouped g' hg' x hx')
  exact Option.some.inj heq

theorem Tidy.allSlots_nodup : (allSlots groups).Nodup := by
  induction groups with
  | nil => exact nodup_nil
  | cons g groups ih =>
    obtain ⟨hlt, hgroup, hnodup, htidy⟩ := tidy_cons.mp h
    refine nodup_append.mpr ⟨hnodup, ih htidy, ?_⟩
    rintro y hy z hz rfl
    obtain ⟨g', hg', hy'⟩ := mem_allSlots.mp hz
    have heq := h.gid_eq mem_cons_self (mem_cons_of_mem _ hg') hy hy'
    exact absurd heq (Int.ne_of_lt (hlt g' hg'))

/-- The order of an emission is ascending in the groups. -/
theorem Tidy.allSlots_sorted : (allSlots groups).Pairwise fun x y =>
      ∀ a b, groupOf slots x = some a → groupOf slots y = some b → a ≤ b := by
  induction groups with
  | nil => exact .nil
  | cons g groups ih =>
    obtain ⟨hlt, hgroup, -, htidy⟩ := tidy_cons.mp h
    refine pairwise_append.mpr ⟨?_, ih htidy, ?_⟩
    · refine pairwise_of_forall_mem_list fun y hy z hz a b ha hb => ?_
      rw [hgroup y hy] at ha
      rw [hgroup z hz] at hb
      cases ha
      cases hb
      exact Int.le_refl _
    · intro y hy z hz a b ha hb
      obtain ⟨g', hg', hz'⟩ := mem_allSlots.mp hz
      rw [hgroup y hy] at ha
      rw [htidy.grouped g' hg' z hz'] at hb
      cases ha
      cases hb
      exact Int.le_of_lt (hlt g' hg')

omit h in
theorem groupSlots_mem (h : y ∈ groupSlots gid groups) :
    ∃ g ∈ groups, g.gid = gid ∧ y ∈ g.slts := by
  induction groups with
  | nil => cases h
  | cons g groups ih =>
    rw [groupSlots] at h
    split at h
    next hgid =>
      exact ⟨g, mem_cons_self, hgid, h⟩
    · obtain ⟨g', hg', hgid, hy⟩ := ih h
      exact ⟨g', mem_cons_of_mem _ hg', hgid, hy⟩

theorem mem_clearGroup (hy : y ∈ allSlots (clearGroup gid groups)) : y ∉ groupSlots gid groups := by
  induction groups with
  | nil => cases hy
  | cons g groups ih =>
    obtain ⟨hlt, hgroup, -, htidy⟩ := tidy_cons.mp h
    rw [clearGroup] at hy
    rw [groupSlots]
    split at hy
    next hgid =>
      rw [if_pos hgid]
      obtain ⟨g', hg', hy'⟩ := mem_allSlots.mp hy
      rcases mem_cons.mp hg' with rfl | hg'
      · cases hy'
      · intro hmem
        have heq := h.gid_eq mem_cons_self (mem_cons_of_mem _ hg') hmem hy'
        exact absurd heq (Int.ne_of_lt (hlt g' hg'))
    next hgid =>
      rw [if_neg hgid]
      rw [allSlots, flatMap_cons, mem_append] at hy
      rcases hy with hy | hy
      · intro hmem
        obtain ⟨g', hg', hgid', hmem'⟩ := groupSlots_mem hmem
        have heq := h.gid_eq mem_cons_self (mem_cons_of_mem _ hg') hy hmem'
        exact hgid (heq.trans hgid')
      · exact ih htidy hy

/-! ### Adding a slot -/

omit h in
theorem mem_addSlot : y ∈ allSlots (addSlot x gid groups).1 ↔ y = x ∨ y ∈ allSlots groups := by
  induction groups with
  | nil => simp [addSlot, allSlots]
  | cons g groups ih =>
    unfold addSlot
    split
    · simp only [allSlots, flatMap_cons, mem_append] at ih ⊢
      tauto
    · split
      · simp [allSlots]
        tauto
      · simp [allSlots]

omit h in
theorem gid_mem_addSlot (h : g ∈ (addSlot x gid groups).1) :
    g.gid = gid ∨ ∃ g' ∈ groups, g'.gid = g.gid := by
  induction groups with
  | nil =>
    rw [addSlot, mem_singleton] at h
    rw [h]
    exact .inl rfl
  | cons g₀ groups ih =>
    unfold addSlot at h
    split at h
    · rcases mem_cons.mp h with rfl | h
      · exact .inr ⟨_, mem_cons_self, rfl⟩
      · refine (ih h).imp_right ?_
        rintro ⟨g', hg', heq⟩
        exact ⟨g', mem_cons_of_mem _ hg', heq⟩
    · split at h
      · rcases mem_cons.mp h with rfl | h
        · exact .inr ⟨_, mem_cons_self, rfl⟩
        · exact .inr ⟨g, mem_cons_of_mem _ h, rfl⟩
      · rcases mem_cons.mp h with rfl | h
        · exact .inl rfl
        · exact .inr ⟨g, h, rfl⟩

theorem Tidy.addSlot (hgroup : groupOf slots x = some gid) (hnew : x ∉ allSlots groups) :
    Tidy slots (addSlot x gid groups).1 := by
  induction groups with
  | nil =>
    refine tidy_cons.mpr ⟨nofun, ?_, pairwise_singleton _ x, tidy_nil slots⟩
    intro y hy
    rw [mem_singleton.mp hy]
    exact hgroup
  | cons g groups ih =>
    obtain ⟨hlt, hg, hnodup, htidy⟩ := tidy_cons.mp h
    rw [allSlots, flatMap_cons, mem_append, not_or] at hnew
    unfold Signals.addSlot
    split
    next hless =>
      refine tidy_cons.mpr ⟨?_, hg, hnodup, ih htidy hnew.2⟩
      intro g' hg'
      rcases gid_mem_addSlot hg' with heq | ⟨g₀, hmem, heq⟩
      · rw [heq]
        exact hless
      · rw [← heq]
        exact hlt g₀ hmem
    · split
      next hgid =>
        refine tidy_cons.mpr ⟨hlt, ?_, ?_, htidy⟩
        · exact forall_mem_append.mpr ⟨hg, forall_mem_singleton.mpr (by rw [hgroup, hgid])⟩
        · exact nodup_append.mpr ⟨hnodup, pairwise_singleton _ x, by
            rintro y hy z hz rfl
            exact hnew.1 (mem_singleton.mp hz ▸ hy)⟩
      next hnotless hne =>
        have hless : gid < g.gid := by omega
        refine tidy_cons.mpr ⟨?_, ?_, pairwise_singleton _ x, h⟩
        · intro g' hg'
          rcases mem_cons.mp hg' with rfl | hg'
          · exact hless
          · exact Int.lt_trans hless (hlt g' hg')
        · intro y hy
          rw [mem_singleton.mp hy]
          exact hgroup

end CxxKit.Signals
