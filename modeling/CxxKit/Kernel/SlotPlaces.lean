import CxxKit.Kernel.SlotLists

/-!
Where slots are stored, and what they record of it.

`clean` looks for a slot only at the index the slot records, in the group it records, of the
signal it records; so `Connection::disconnect` works only if the three are right.  A slot list
is `Placed` if they are, for every slot of it; the functions on slot lists keep it so, and
change no slot outside the list they work on.
-/

namespace CxxKit.Signals

open List Option SwapRemove

variable {slots slots' : Nat → Option Slot} {groups : List Group} {slts : List Nat}
  {sig x y : Nat}

/-! ### Placed lists -/

/-- The place a slot records: its index and its signal. -/
def placeOf (slots : Nat → Option Slot) (x : Nat) : Option (Nat × Nat) :=
  (slots x).map fun slot => (slot.mIndex, slot.mCleaner)

theorem placeOf_congr (h : slots' x = slots x) : placeOf slots' x = placeOf slots x :=
  congrArg _ h

/-- The slots of a group of `sig` record the index they are stored at, and `sig`. -/
def Placed (slots : Nat → Option Slot) (sig : Nat) (slts : List Nat) : Prop :=
  ∀ i x, slts[i]? = some x → placeOf slots x = some (i, sig)

theorem placed_nil (slots : Nat → Option Slot) (sig : Nat) : Placed slots sig [] := by
  intro i x h
  cases h

theorem Placed.congr (h : Placed slots sig slts)
    (heq : ∀ x ∈ slts, placeOf slots' x = placeOf slots x) : Placed slots' sig slts := by
  intro i x hx
  rw [heq x (mem_of_getElem? hx)]
  exact h i x hx

/-- All groups of a signal. -/
def AllPlaced (slots : Nat → Option Slot) (sig : Nat) (groups : List Group) : Prop :=
  ∀ g ∈ groups, Placed slots sig g.slts

variable {g : Group} {i index target rounds : Nat} {cond : Nat → Bool} {gid : Int}

theorem allPlaced_cons :
    AllPlaced slots sig (g :: groups) ↔ Placed slots sig g.slts ∧ AllPlaced slots sig groups :=
  forall_mem_cons

theorem AllPlaced.congr (h : AllPlaced slots sig groups)
    (heq : ∀ x ∈ allSlots groups, placeOf slots' x = placeOf slots x) :
    AllPlaced slots' sig groups := by
  intro g hg
  refine (h g hg).congr fun x hx => heq x ?_
  exact mem_allSlots.mpr ⟨g, hg, hx⟩

theorem allSlots_cons (g : Group) (groups : List Group) :
    allSlots (g :: groups) = g.slts ++ allSlots groups := rfl

/-- No slot of the first group is in another one. -/
theorem nodup_allSlots_cons (h : (allSlots (g :: groups)).Nodup) :
    g.slts.Nodup ∧ (allSlots groups).Nodup ∧ ∀ y ∈ g.slts, y ∉ allSlots groups := by
  obtain ⟨hg, hrest, hne⟩ := nodup_append.mp h
  exact ⟨hg, hrest, fun y hy hmem => hne y hy y hmem rfl⟩

/-! ### Removing slots -/

theorem setIndex_of_ne (hne : y ≠ x) (i : Nat) : setIndex slots x i y = slots y :=
  Function.update_of_ne hne ..

theorem placeOf_setIndex {j : Nat} (h : placeOf slots x = some (i, sig)) :
    placeOf (setIndex slots x j) x = some (j, sig) := by
  obtain ⟨slot, hslot, hplace⟩ := map_eq_some_iff.mp h
  cases hplace
  rw [placeOf, setIndex, Function.update_self, hslot]
  rfl

theorem removeAt_other (hy : y ∉ slts) (i : Nat) : (removeAt slots slts i).1 y = slots y := by
  unfold removeAt
  split
  · rfl
  next back hback =>
    refine setIndex_of_ne ?_ i
    rintro rfl
    exact hy (mem_of_getLast? hback)

/-- The slot that is moved is told its new index, the others keep theirs. -/
theorem removeAt_placed (h : Placed slots sig slts) (hnodup : slts.Nodup) (i : Nat) :
    Placed (removeAt slots slts i).1 sig (removeAt slots slts i).2 := by
  unfold removeAt
  split
  · exact h
  next back hback =>
    have hlast : slts[slts.length - 1]? = some back := by
      rw [← getLast?_eq_getElem?]
      exact hback
    intro j y hy
    rcases getElem?_swapPop hy with ⟨rfl, hend⟩ | ⟨-, hlt, hget⟩
    · cases hback.symm.trans hend
      exact placeOf_setIndex (h _ _ hlast)
    · have hne : y ≠ back := by
        rintro rfl
        have heq := (getElem?_inj (by omega) hnodup).mp (hget.trans hlast.symm)
        omega
      have hkept : setIndex slots back i y = slots y := setIndex_of_ne hne i
      exact (placeOf_congr hkept).trans (h j y hget)

theorem removeAt_nodup (hnodup : slts.Nodup) (hi : slts[i]? = some x) :
    (removeAt slots slts i).2.Nodup := by
  rw [removeAt_slts]
  exact swapPop_nodup (List.getElem?_eq_some_iff.mp hi).1 hnodup

theorem removeAt_subset (hi : slts[i]? = some x) : (removeAt slots slts i).2 ⊆ slts := by
  rw [removeAt_slts]
  exact swapPop_subset (List.getElem?_eq_some_iff.mp hi).1

theorem disconnectLoop_other (hy : y ∉ slts) :
    (disconnectLoop cond rounds slots slts i).1 y = slots y := by
  induction rounds generalizing slots slts i with
  | zero => rfl
  | succ rounds ih =>
    unfold disconnectLoop
    split
    · rfl
    next x hx =>
      split
      · exact (ih fun hmem => hy (removeAt_subset hx hmem)).trans (removeAt_other hy i)
      · exact ih hy

theorem disconnectLoop_placed (h : Placed slots sig slts) (hnodup : slts.Nodup) :
    Placed (disconnectLoop cond rounds slots slts i).1 sig
      (disconnectLoop cond rounds slots slts i).2 := by
  induction rounds generalizing slots slts i with
  | zero => exact h
  | succ rounds ih =>
    unfold disconnectLoop
    split
    · exact h
    next x hx =>
      split
      · exact ih (removeAt_placed h hnodup i) (removeAt_nodup hnodup hx)
      · exact ih h hnodup

theorem disconnectGroups_other (hy : y ∉ allSlots groups) :
    (disconnectGroups cond slots groups).1 y = slots y := by
  induction groups generalizing slots with
  | nil => rfl
  | cons g groups ih =>
    rw [allSlots_cons, mem_append, not_or] at hy
    exact (ih hy.2).trans (disconnectLoop_other hy.1)

variable (h : AllPlaced slots sig groups) {list : List Nat}
include h

/-- The groups are disjoint: what is moved within one does not concern the others. -/
theorem disconnectGroups_placed (hnodup : (allSlots groups).Nodup) :
    AllPlaced (disconnectGroups cond slots groups).1 sig
      (disconnectGroups cond slots groups).2 := by
  induction groups generalizing slots with
  | nil => exact h
  | cons g groups ih =>
    obtain ⟨hg, hrest, hdisjoint⟩ := nodup_allSlots_cons hnodup
    obtain ⟨hfirst, hothers⟩ := allPlaced_cons.mp h
    refine allPlaced_cons.mpr ⟨?_, ih ?_ hrest⟩
    · refine (disconnectLoop_placed hfirst hg).congr fun x hx => ?_
      have hmem := (disconnectLoop_perm cond slots g.slts).mem_iff.mp hx
      exact placeOf_congr (disconnectGroups_other (hdisjoint x (mem_filter.mp hmem).1))
    · refine hothers.congr fun x hx => ?_
      exact placeOf_congr (disconnectLoop_other fun hmem => hdisjoint x hmem hx)

theorem clearGroup_placed (gid : Int) : AllPlaced slots sig (clearGroup gid groups) := by
  induction groups with
  | nil => exact h
  | cons g groups ih =>
    obtain ⟨hfirst, hothers⟩ := allPlaced_cons.mp h
    unfold clearGroup
    split
    · exact allPlaced_cons.mpr ⟨placed_nil slots sig, hothers⟩
    · exact allPlaced_cons.mpr ⟨hfirst, ih hothers⟩

/-! ### Cleaning -/

omit h in
theorem cleanGroups_other (hy : y ∉ allSlots groups) :
    (cleanGroups slots x index gid groups).1 y = slots y := by
  induction groups with
  | nil => rfl
  | cons g groups ih =>
    rw [allSlots_cons, mem_append, not_or] at hy
    unfold cleanGroups
    split
    · split
      · exact removeAt_other hy.1 index
      · rfl
    · exact ih hy.2

theorem cleanGroups_placed (hnodup : (allSlots groups).Nodup) :
    AllPlaced (cleanGroups slots x index gid groups).1 sig
      (cleanGroups slots x index gid groups).2 := by
  induction groups with
  | nil => exact h
  | cons g groups ih =>
    obtain ⟨hg, hrest, hdisjoint⟩ := nodup_allSlots_cons hnodup
    obtain ⟨hfirst, hothers⟩ := allPlaced_cons.mp h
    unfold cleanGroups
    split
    · split
      · refine allPlaced_cons.mpr ⟨removeAt_placed hfirst hg index, ?_⟩
        refine hothers.congr fun y hy => ?_
        exact placeOf_congr (removeAt_other (fun hmem => hdisjoint y hmem hy) index)
      · exact h
    · refine allPlaced_cons.mpr ⟨?_, ih hothers hrest⟩
      refine hfirst.congr fun y hy => ?_
      exact placeOf_congr (cleanGroups_other (hdisjoint y hy))

omit h in
/-- A slot at the place it records is taken out, and nothing else. -/
theorem cleanGroups_perm (hsorted : groups.Pairwise (·.gid < ·.gid)) (hg : g ∈ groups)
    (hx : g.slts[index]? = some x) :
    (x :: allSlots (cleanGroups slots x index g.gid groups).2).Perm (allSlots groups) := by
  induction groups with
  | nil => cases hg
  | cons g' groups ih =>
    obtain ⟨hlt, hrest⟩ := pairwise_cons.mp hsorted
    unfold cleanGroups
    rcases mem_cons.mp hg with rfl | hmem
    · rw [if_pos rfl, if_pos hx]
      obtain ⟨front, back, hsplit, hperm⟩ := swapPop_perm hx
      rw [allSlots_cons, allSlots_cons, removeAt_slts]
      refine List.Perm.append_right _ ((hperm.cons x).trans ?_)
      rw [hsplit]
      exact perm_middle.symm
    · rw [if_neg (Int.ne_of_lt (hlt g hmem))]
      exact perm_middle.symm.trans (.append_left _ (ih hrest hmem))

/-! ### Adding a slot -/

theorem addSlot_placed (hx : placeOf slots x = some ((addSlot x gid groups).2, sig)) :
    AllPlaced slots sig (addSlot x gid groups).1 := by
  have hsingle : placeOf slots x = some (0, sig) → Placed slots sig [x] := by
    intro hplace i y hy
    cases i with
    | zero =>
      cases hy
      exact hplace
    | succ i => cases hy
  induction groups with
  | nil => exact allPlaced_cons.mpr ⟨hsingle hx, h⟩
  | cons g groups ih =>
    obtain ⟨hfirst, hothers⟩ := allPlaced_cons.mp h
    unfold addSlot at hx ⊢
    split at hx
    next hless =>
      rw [if_pos hless]
      exact allPlaced_cons.mpr ⟨hfirst, ih hothers hx⟩
    next hless =>
      rw [if_neg hless]
      split at hx
      next hgid =>
        rw [if_pos hgid]
        refine allPlaced_cons.mpr ⟨?_, hothers⟩
        intro i y hy
        rcases Nat.lt_or_ge i g.slts.length with hlt | hge
        · rw [getElem?_append_left hlt] at hy
          exact hfirst i y hy
        · obtain ⟨hbound, -⟩ := List.getElem?_eq_some_iff.mp hy
          rw [length_append, length_singleton] at hbound
          obtain rfl : i = g.slts.length := by omega
          rw [getElem?_concat_length] at hy
          cases hy
          exact hx
      next hgid =>
        rw [if_neg hgid]
        exact allPlaced_cons.mpr ⟨hsingle hx, h⟩

/-! ### Moving lists -/

omit h in
theorem placeOf_reroute_mem (hx : x ∈ list) (h : placeOf slots x = some (i, sig)) :
    placeOf (rerouteSlotsTo slots list target) x = some (i, target) := by
  obtain ⟨slot, hslot, hplace⟩ := map_eq_some_iff.mp h
  cases hplace
  rw [placeOf, rerouteSlotsTo, if_pos hx, hslot]
  rfl

omit h in
theorem rerouteSlotsTo_other (hx : x ∉ list) :
    rerouteSlotsTo slots list target x = slots x := if_neg hx

theorem rerouteSlotsTo_placed :
    AllPlaced (rerouteSlotsTo slots (allSlots groups) target) target groups := by
  intro g hg i x hx
  refine placeOf_reroute_mem ?_ (h g hg i x hx)
  exact mem_allSlots.mpr ⟨g, hg, mem_of_getElem? hx⟩

end CxxKit.Signals
