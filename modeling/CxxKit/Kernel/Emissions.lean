import CxxKit.Kernel.SlotLists
import Mathlib.Logic.Equiv.Basic

/-!
Emissions and what the calls on a signal do to them.

Every emission gives each slot of the list it started with one turn, in ascending order
of the groups (`Proper`).  Whether a slot is invoked at its turn is decided by its flags;
`Recorded` relates the flags to the disconnections made so far.  Most calls are a
`Change`: they start no emission, take no turn and add no slot.
-/

namespace CxxKit.Signals

open Equiv Function List Option

variable {s s' : State} {sig x : Nat}

/-! ### Views -/

/-- The connected flag of a slot that is there. -/
def connectedOf (slots : Nat → Option Slot) (x : Nat) : Option Bool :=
  (slots x).map (·.mConnected)

variable {slots slots' : Nat → Option Slot}

theorem Reindexed.groupOf (h : Reindexed slots slots')
    (x : Nat) : groupOf slots' x = groupOf slots x :=
  h.map (fun _ => rfl) x

theorem Reindexed.connectedOf (h : Reindexed slots slots')
    (x : Nat) : connectedOf slots' x = connectedOf slots x :=
  h.map (fun _ => rfl) x

namespace State

variable {d : Signal} {d' : Option Signal} {i y : Nat}

theorem slotList_of_some (h : s.signals sig = some d) : s.slotList sig = allSlots d.mSlots := by
  rw [slotList, h]

theorem slotList_congr (h : s'.signals = s.signals) : s'.slotList = s.slotList := by
  funext sig
  rw [slotList, slotList, h]

theorem slotList_update {d : Option Signal} (h : s'.signals = update s.signals sig d) :
    s'.slotList =
      update s.slotList sig ((d.map fun d => allSlots d.mSlots).getD []) := by
  funext i
  rw [slotList, h]
  rcases eq_or_ne i sig with rfl | hne
  · rw [update_self, update_self]
    cases d <;> rfl
  · rw [update_of_ne hne, update_of_ne hne]
    rfl

/-! ### Lists -/

structure Lists (s : State) : Prop where
  fresh : ∀ x, s.nextSlot ≤ x → groupOf s.slots x = none
  unborn : ∀ sig, s.nextSignal ≤ sig → s.signals sig = none
  tidy : ∀ sig d, s.signals sig = some d → Tidy s.slots d.mSlots
  apart : ∀ sig sig' x, x ∈ s.slotList sig → x ∈ s.slotList sig' → sig = sig'

theorem Lists.groupOf_isSome (h : s.Lists) (hx : x ∈ s.slotList sig) :
    (groupOf s.slots x).isSome = true := by
  unfold slotList at hx
  split at hx
  · cases hx
  next d hd =>
    obtain ⟨g, hg, hmem⟩ := mem_allSlots.mp hx
    rw [(h.tidy sig d hd).grouped g hg x hmem]
    rfl

theorem Lists.lt_of_some (h : s.Lists) (hx : (groupOf s.slots x).isSome = true) :
    x < s.nextSlot := by
  by_contra hge
  rw [h.fresh x (Nat.le_of_not_lt hge)] at hx
  cases hx

/-- A signal that is there is none of those to come. -/
theorem Lists.ne_of_unborn (h : s.Lists) {i : Nat} (hd : s.signals sig = some d)
    (hi : s.nextSignal ≤ i) : i ≠ sig := by
  rintro rfl
  cases (h.unborn i hi).symm.trans hd

theorem mem_slotList_replace (hd : s.signals sig = some d)
    (hfewer : ∀ e, d' = some e → Fewer s.slots d.mSlots e.mSlots)
    (hsignals : s'.signals = update s.signals sig d') (hy : y ∈ s'.slotList i) :
    y ∈ s.slotList i := by
  rw [slotList_update hsignals] at hy
  rcases eq_or_ne i sig with rfl | hne
  · rw [update_self] at hy
    rw [slotList_of_some hd]
    cases d' with
    | none => cases hy
    | some e => exact (hfewer e rfl).2 hy
  · rwa [update_of_ne hne] at hy

/-- One list is replaced by one that has at most its slots, or goes with its signal. -/
theorem Lists.replace (h : s.Lists) (hd : s.signals sig = some d)
    (hfewer : ∀ e, d' = some e → Fewer s.slots d.mSlots e.mSlots)
    (hsignals : s'.signals = update s.signals sig d')
    (hgroup : ∀ x, groupOf s'.slots x = groupOf s.slots x) (hslot : s'.nextSlot = s.nextSlot)
    (hsignal : s'.nextSignal = s.nextSignal) : s'.Lists := by
  have hsub := fun i y => mem_slotList_replace (i := i) (y := y) hd hfewer hsignals
  refine ⟨?_, ?_, ?_, ?_⟩
  · intro y hy
    rw [hgroup]
    exact h.fresh y (hslot ▸ hy)
  · intro i hi
    rw [hsignal] at hi
    rw [hsignals, update_of_ne (h.ne_of_unborn hd hi)]
    exact h.unborn i hi
  · intro i e he
    rw [hsignals] at he
    rcases eq_or_ne i sig with rfl | hne
    · rw [update_self] at he
      exact (hfewer e he).1.of_groupOf fun y _ => hgroup y
    · rw [update_of_ne hne] at he
      exact (h.tidy i e he).of_groupOf fun y _ => hgroup y
  · intro i i' y hy hy'
    exact h.apart i i' y (hsub i y hy) (hsub i' y hy')

/-! ### Emissions -/

/-- `x` may come before `y`: its group is not greater. -/
def Ascending (slots : Nat → Option Slot) (x y : Nat) : Prop :=
  ∀ a b, groupOf slots x = some a → groupOf slots y = some b → a ≤ b

end State

/-- Every slot of the list at the start has or had one turn, in the order of the groups. -/
structure Emission.Proper (slots : Nat → Option Slot) (e : Emission) : Prop where
  shape : e.turns.map (·.slot) ++ e.rest = e.snapshot
  nodup : e.snapshot.Nodup
  sorted : e.snapshot.Pairwise (State.Ascending slots)
  known : ∀ x ∈ e.snapshot, (groupOf slots x).isSome = true

theorem Emission.Proper.of_groupOf {e : Emission} (h : e.Proper slots)
    (hgroup : ∀ x, (groupOf slots x).isSome = true → groupOf slots' x = groupOf slots x) :
    e.Proper slots' := by
  have hsame : ∀ x ∈ e.snapshot, groupOf slots' x = groupOf slots x :=
    fun x hx => hgroup x (h.known x hx)
  refine ⟨h.shape, h.nodup, ?_, ?_⟩
  · refine h.sorted.imp_of_mem ?_
    intro x y hx hy hascending a b ha hb
    rw [hsame x hx] at ha
    rw [hsame y hy] at hb
    exact hascending a b ha hb
  · intro x hx
    rw [hsame x hx]
    exact h.known x hx

/-- A slot was invoked at its turn exactly if it was not disconnected, not blocked, and its
tracked object alive. -/
def Turn.Exact (turn : Turn) : Prop :=
  turn.invoked = true ↔
    turn.disconnected = false ∧ turn.blocked = false ∧ turn.expired = false

namespace State

/-- How the flags stand to the disconnections made so far. -/
structure Recorded (s : State) : Prop where
  known : ∀ x ∈ s.disconnected, x < s.nextSlot
  flagged : ∀ x, connectedOf s.slots x = some false → x ∈ s.disconnected
  stored : ∀ sig, ∀ x ∈ s.slotList sig, x ∈ s.disconnected → connectedOf s.slots x = some false
  awaited : ∀ e ∈ s.emissions, ∀ x ∈ e.rest, x ∈ s.disconnected →
    connectedOf s.slots x = some false
  turns : ∀ e ∈ s.emissions, ∀ turn ∈ e.turns, turn.Exact

/-- A step that starts no emission, takes no turn and adds no slot; `removed` are the slots
it takes from their list without clearing their flag. -/
structure Change (s s' : State) (removed : List Nat) : Prop where
  emissions : s'.emissions = s.emissions
  nextSlot : s'.nextSlot = s.nextSlot
  group : ∀ x, groupOf s'.slots x = groupOf s.slots x
  flags : ∀ x, connectedOf s'.slots x = connectedOf s.slots x ∨
    (connectedOf s'.slots x = some false ∧ x ∈ s'.disconnected)
  kept : s.disconnected ⊆ s'.disconnected
  record : ∀ x ∈ s'.disconnected, x ∈ s.disconnected ∨ connectedOf s'.slots x = some false ∨
    x ∈ removed
  removed : ∀ x ∈ removed, (groupOf s.slots x).isSome = true ∧ ∀ sig, x ∉ s'.slotList sig
  lists : ∀ sig, ∀ x ∈ s'.slotList sig, ∃ sig', x ∈ s.slotList sig'

variable {removed : List Nat} {slot : Slot} {d : Signal} {gid : Int}

theorem Change.proper (h : Change s s' removed)
    (hproper : ∀ e ∈ s.emissions, e.Proper s.slots) : ∀ e ∈ s'.emissions, e.Proper s'.slots := by
  rw [h.emissions]
  intro e he
  exact (hproper e he).of_groupOf fun x _ => h.group x

theorem Change.recorded (h : Change s s' removed) (hlists : s.Lists)
    (hrecorded : s.Recorded) (hsettled : ∀ x ∈ removed, ∀ e ∈ s.emissions, x ∉ e.rest) :
    s'.Recorded := by
  -- a flag that was clear stays clear
  have hclear : ∀ x, connectedOf s.slots x = some false → connectedOf s'.slots x = some false := by
    intro x hx
    rcases h.flags x with heq | ⟨hfalse, -⟩
    · exact heq.trans hx
    · exact hfalse
  have hsome : ∀ x, connectedOf s'.slots x = some false → (groupOf s.slots x).isSome = true := by
    intro x hx
    rw [← h.group, groupOf]
    rw [connectedOf] at hx
    cases hslot : s'.slots x with
    | none =>
      rw [hslot] at hx
      cases hx
    | some slot => rfl
  refine ⟨?_, ?_, ?_, ?_, ?_⟩
  · intro x hx
    rw [h.nextSlot]
    rcases h.record x hx with hold | hfalse | hgone
    · exact hrecorded.known x hold
    · exact hlists.lt_of_some (hsome x hfalse)
    · exact hlists.lt_of_some (h.removed x hgone).1
  · intro x hx
    rcases h.flags x with heq | ⟨-, hmem⟩
    · exact h.kept (hrecorded.flagged x (heq.symm.trans hx))
    · exact hmem
  · intro sig x hx hmem
    rcases h.record x hmem with hold | hfalse | hgone
    · obtain ⟨sig', hx'⟩ := h.lists sig x hx
      exact hclear x (hrecorded.stored sig' x hx' hold)
    · exact hfalse
    · exact absurd hx ((h.removed x hgone).2 sig)
  · rw [h.emissions]
    intro e he x hx hmem
    rcases h.record x hmem with hold | hfalse | hgone
    · exact hclear x (hrecorded.awaited e he x hx hold)
    · exact hfalse
    · exact absurd hx (hsettled x hgone e he)
  · rw [h.emissions]
    exact hrecorded.turns

/-! ### What the calls change -/

/-- Signals and the groups of the slots stay as they are. -/
theorem Lists.of_same (h : s.Lists) (hsignals : s'.signals = s.signals)
    (hgroup : ∀ x, groupOf s'.slots x = groupOf s.slots x) (hslot : s'.nextSlot = s.nextSlot)
    (hsignal : s'.nextSignal = s.nextSignal) : s'.Lists := by
  refine ⟨?_, ?_, ?_, ?_⟩
  · intro x hx
    rw [hgroup]
    exact h.fresh x (hslot ▸ hx)
  · rw [hsignals, hsignal]
    exact h.unborn
  · rw [hsignals]
    intro sig d hd
    exact (h.tidy sig d hd).of_groupOf fun x _ => hgroup x
  · rw [slotList_congr hsignals]
    exact h.apart

theorem Change.of_reindexed (hslots : Reindexed s.slots s'.slots)
    (hemissions : s'.emissions = s.emissions) (hnext : s'.nextSlot = s.nextSlot)
    (hdisconnected : s'.disconnected = s.disconnected)
    (hlists : ∀ sig, ∀ x ∈ s'.slotList sig, ∃ sig', x ∈ s.slotList sig') : Change s s' [] where
  emissions := hemissions
  nextSlot := hnext
  group := hslots.groupOf
  flags y := .inl (hslots.connectedOf y)
  kept := hdisconnected ▸ List.Subset.refl _
  record _ hx := .inl (hdisconnected ▸ hx)
  removed := nofun
  lists := hlists

theorem map_setSlot {α : Type} {slot' : Slot} (f : Slot → α) (h : s.slots x = some slot)
    (hkeep : f slot' = f slot) (y : Nat) :
    ((s.setSlot x slot').slots y).map f = (s.slots y).map f := by
  simp only [setSlot]
  rcases eq_or_ne y x with rfl | hne
  · rw [update_self, h]
    exact congrArg some hkeep
  · rw [update_of_ne hne]

/-- The slots with the flag of `x` cleared. -/
def cleared (s : State) (x : Nat) (slot : Slot) : Nat → Option Slot :=
  update s.slots x (some { slot with mConnected := false })

theorem cleared_self (s : State) (x : Nat) (slot : Slot) :
    s.cleared x slot x = some { slot with mConnected := false } :=
  update_self ..

theorem cleared_of_ne {y : Nat} (hne : y ≠ x) (slot : Slot) : s.cleared x slot y = s.slots y :=
  update_of_ne hne ..

/-- The state after a slot was disconnected that knows the signal `d`. -/
def cleaned (s : State) (x : Nat) (slot : Slot) (d : Signal) : State :=
  { s with
    signals := update s.signals slot.mCleaner (some { d with
      mSlots := (cleanGroups (s.cleared x slot) x slot.mIndex slot.mGroup d.mSlots).2 })
    slots := (cleanGroups (s.cleared x slot) x slot.mIndex slot.mGroup d.mSlots).1
    disconnected := x :: s.disconnected }

theorem disconnect_eq (hslot : s.slots x = some slot)
    (hconnected : slot.mConnected = true) (hd : s.signals slot.mCleaner = some d) :
    s.disconnect x = some (s.cleaned x slot d) := by
  simp [disconnect, hslot, hconnected, clean, setSlot, setSignal, hd, cleaned, cleared]

/-- **Inversion of `SlotState::disconnect`.** -/
theorem disconnect_inv (h : s.disconnect x = some s') :
    s' = s ∨ ∃ slot d, s.slots x = some slot ∧ s.signals slot.mCleaner = some d ∧
      s.disconnect x = some (s.cleaned x slot d) ∧ s' = s.cleaned x slot d := by
  cases hslot : s.slots x with
  | none => simp [disconnect, hslot] at h
  | some slot =>
    cases hconnected : slot.mConnected with
    | false =>
      simp only [disconnect, hslot, hconnected] at h
      cases h
      exact .inl rfl
    | true =>
      cases hd : s.signals slot.mCleaner with
      | none => simp [disconnect, hslot, hconnected, clean, setSlot, hd] at h
      | some d =>
        have hrun := disconnect_eq hslot hconnected hd
        exact .inr ⟨slot, d, rfl, hd, hrun, Option.some.inj (h.symm.trans hrun)⟩

theorem slotList_cleaned : (s.cleaned x slot d).slotList slot.mCleaner =
      allSlots (cleanGroups (s.cleared x slot) x slot.mIndex slot.mGroup d.mSlots).2 := by
  rw [slotList_update rfl, update_self]
  rfl

/-- A list a slot was cleaned from has no other slots than before. -/
theorem mem_slotList_cleaned {i y : Nat}
    (hd : s.signals slot.mCleaner = some d) (hy : y ∈ (s.cleaned x slot d).slotList i) :
    y ∈ s.slotList i := by
  rcases eq_or_ne i slot.mCleaner with rfl | hne
  · rw [slotList_cleaned] at hy
    rw [slotList_of_some hd]
    exact (cleanGroups_shrinks ..).mem hy
  · rwa [slotList_update rfl, update_of_ne hne] at hy

section

variable (hlists : s.Lists) {blocked : Bool}

include hlists

theorem disconnect_change (h : s.disconnect x = some s') : s'.Lists ∧ Change s s' [] := by
  rcases disconnect_inv h with rfl | ⟨slot, d, hslot, hd, -, rfl⟩
  · exact ⟨hlists, .of_reindexed (.refl _) rfl rfl rfl fun sig x hx => ⟨sig, hx⟩⟩
  · have hclean := cleanGroups_reindexed (s.cleared x slot) x slot.mIndex slot.mGroup d.mSlots
    have hgroup : ∀ y, groupOf (s.cleared x slot) y = groupOf s.slots y :=
      @map_setSlot s x slot _ { slot with mConnected := false } (·.mGroup) hslot rfl
    have hgroups : ∀ y, groupOf (s.cleaned x slot d).slots y = groupOf s.slots y :=
      fun y => (hclean.groupOf y).trans (hgroup y)
    have hflag : connectedOf (s.cleaned x slot d).slots x = some false := by
      refine (hclean.connectedOf x).trans ?_
      rw [connectedOf, cleared_self]
      rfl
    refine ⟨hlists.replace hd ?_ rfl hgroups rfl rfl, rfl, rfl, hgroups, ?_,
      subset_cons_self .., ?_, nofun, ?_⟩
    · rintro e ⟨⟩
      exact (hlists.tidy _ d hd).fewer (cleanGroups_shrinks ..)
    · intro y
      rcases eq_or_ne y x with rfl | hne
      · exact .inr ⟨hflag, mem_cons_self⟩
      · refine .inl ((hclean.connectedOf y).trans ?_)
        rw [connectedOf, connectedOf, cleared_of_ne hne]
    · exact forall_mem_cons.mpr ⟨.inr (.inl hflag), fun _ => .inl⟩
    · exact fun i y hy => ⟨i, mem_slotList_cleaned hd hy⟩

/-- A call that takes the slots in `removed` from the list of `sig`. -/
theorem removal_change {d' : Option Signal}
    (hd : s.signals sig = some d) (hfewer : ∀ e, d' = some e → Fewer s.slots d.mSlots e.mSlots)
    (hsignals : s'.signals = update s.signals sig d')
    (hslots : Reindexed s.slots s'.slots) (hemissions : s'.emissions = s.emissions)
    (hslot : s'.nextSlot = s.nextSlot) (hsignal : s'.nextSignal = s.nextSignal)
    (hdisconnected : s'.disconnected = removed ++ s.disconnected)
    (hmem : ∀ x ∈ removed, x ∈ s.slotList sig)
    (hgone : ∀ x ∈ removed, x ∉ s'.slotList sig) : s'.Lists ∧ Change s s' removed := by
  have hsub := fun i y => mem_slotList_replace (i := i) (y := y) hd hfewer hsignals
  refine ⟨hlists.replace hd hfewer hsignals hslots.groupOf hslot hsignal, ?_⟩
  refine ⟨hemissions, hslot, hslots.groupOf, fun x => .inl (hslots.connectedOf x), ?_, ?_, ?_, ?_⟩
  · rw [hdisconnected]
    exact subset_append_right ..
  · intro x hx
    rw [hdisconnected] at hx
    rcases mem_append.mp hx with hx | hx
    · exact .inr (.inr hx)
    · exact .inl hx
  · intro x hx
    refine ⟨hlists.groupOf_isSome (hmem x hx), ?_⟩
    intro i hi
    have heq := hlists.apart i sig x (hsub i x hi) (hmem x hx)
    exact hgone x hx (heq ▸ hi)
  · exact fun i y hy => ⟨i, hsub i y hy⟩

theorem disconnectIf_change {cond : Nat → Bool} (h : s.disconnectIf sig cond = some s') :
    s'.Lists ∧ Change s s' ((s.slotList sig).filter cond) := by
  unfold disconnectIf at h
  split at h
  · cases h
  next d hd =>
    cases h
    rw [slotList_of_some hd]
    refine removal_change hlists hd ?_ rfl (disconnectGroups_reindexed cond s.slots d.mSlots)
      rfl rfl rfl rfl ?_ ?_
    · rintro e ⟨⟩
      exact (hlists.tidy sig d hd).fewer (disconnectGroups_shrinks cond s.slots d.mSlots)
    · intro x hx
      rw [slotList_of_some hd]
      exact (mem_filter.mp hx).1
    · intro x hx hstill
      rw [slotList_update rfl, update_self] at hstill
      have hfalse := mem_disconnectGroups hstill
      rw [(mem_filter.mp hx).2] at hfalse
      cases hfalse

theorem disconnectGroup_change
    (hd : s.signals sig = some d) (h : s.disconnectGroup sig gid = some s') :
    s'.Lists ∧ Change s s' (groupSlots gid d.mSlots) := by
  simp only [disconnectGroup, hd] at h
  cases h
  refine removal_change hlists hd ?_ rfl (.refl _) rfl rfl rfl rfl ?_ ?_
  · rintro e ⟨⟩
    exact (hlists.tidy sig d hd).fewer (clearGroup_shrinks gid d.mSlots)
  · intro x hx
    obtain ⟨g, hg, -, hmem⟩ := groupSlots_mem hx
    rw [slotList_of_some hd]
    exact mem_allSlots.mpr ⟨g, hg, hmem⟩
  · intro x hx hstill
    rw [slotList_update rfl, update_self] at hstill
    exact mem_clearGroup (hlists.tidy sig d hd) hstill hx

theorem disconnectAll_change (h : s.disconnectAll sig = some s') :
    s'.Lists ∧ Change s s' (s.slotList sig) := by
  unfold disconnectAll at h
  split at h
  · cases h
  next d hd =>
    cases h
    rw [slotList_of_some hd]
    refine removal_change hlists hd ?_ rfl (.refl _) rfl rfl rfl rfl ?_ ?_
    · rintro e ⟨⟩
      exact fewer_nil s.slots d.mSlots
    · exact fun x hx => slotList_of_some hd ▸ hx
    · intro x _ hstill
      rw [slotList_update rfl, update_self] at hstill
      cases hstill

theorem destroy_change (h : s.destroy sig = some s') : s'.Lists ∧ Change s s' (s.slotList sig) := by
  obtain ⟨u, hall, rfl⟩ := map_eq_some_iff.mp h
  unfold disconnectAll at hall
  split at hall
  · cases hall
  next d hd =>
    cases hall
    rw [slotList_of_some hd]
    have hsignals : update (s.setSignal sig { d with mSlots := [] }).signals sig none =
        update s.signals sig none := update_idem ..
    refine removal_change hlists hd ?_ hsignals (.refl _) rfl rfl rfl rfl ?_ ?_
    · rintro e ⟨⟩
    · exact fun x hx => slotList_of_some hd ▸ hx
    · intro x _ hstill
      rw [slotList_update hsignals, update_self] at hstill
      cases hstill

theorem setBlocked_change (h : s.setBlocked x blocked = some s') : s'.Lists ∧ Change s s' [] := by
  unfold setBlocked at h
  split at h
  · cases h
  next slot hslot =>
    cases h
    have hgroup : ∀ y, groupOf (s.setSlot x { slot with mBlocked := blocked }).slots y =
        groupOf s.slots y := map_setSlot (·.mGroup) hslot rfl
    have hflag : ∀ y, connectedOf (s.setSlot x { slot with mBlocked := blocked }).slots y =
        connectedOf s.slots y := map_setSlot (·.mConnected) hslot rfl
    refine ⟨hlists.of_same rfl hgroup rfl rfl, ?_⟩
    exact ⟨rfl, rfl, hgroup, fun y => .inl (hflag y), List.Subset.refl _, fun _ hy => .inl hy,
      nofun, fun sig y hy => ⟨sig, hy⟩⟩

theorem setBlock_change (h : s.setBlock sig blocked = some s') : s'.Lists ∧ Change s s' [] := by
  unfold setBlock at h
  split at h
  · cases h
  next d hd =>
    cases h
    refine removal_change hlists hd ?_ rfl (.refl _) rfl rfl rfl rfl nofun nofun
    rintro e ⟨⟩
    exact (hlists.tidy sig d hd).fewer (Shrinks.refl _)

theorem newSignal_change : s.newSignal.Lists ∧ Change s s.newSignal [] := by
  have hsignals : s.newSignal.signals =
      update s.signals s.nextSignal (some ⟨[], false⟩) := rfl
  have hlist := slotList_update hsignals
  have hsub : ∀ i, ∀ y ∈ s.newSignal.slotList i, y ∈ s.slotList i := by
    intro i y hy
    rw [hlist] at hy
    rcases eq_or_ne i s.nextSignal with rfl | hne
    · rw [update_self] at hy
      cases hy
    · rwa [update_of_ne hne] at hy
  refine ⟨⟨hlists.fresh, ?_, ?_, ?_⟩, ?_⟩
  · intro i hi
    change s.nextSignal + 1 ≤ i at hi
    exact (update_of_ne (by omega) ..).trans (hlists.unborn i (by omega))
  · intro i d hd
    change update s.signals s.nextSignal _ i = some d at hd
    rcases eq_or_ne i s.nextSignal with rfl | hne
    · rw [update_self] at hd
      cases hd
      exact tidy_nil _
    · rw [update_of_ne hne] at hd
      exact hlists.tidy i d hd
  · intro i j y hy hy'
    exact hlists.apart i j y (hsub i y hy) (hsub j y hy')
  · exact .of_reindexed (.refl _) rfl rfl rfl fun i y hy => ⟨i, hsub i y hy⟩

end

/-- Signals `i` and `j` take each other's slots; all else that counts stays. -/
structure Exchanges (s s' : State) (i j : Nat) (d d' : Signal) : Prop where
  first : s.signals i = some d
  second : s.signals j = some d'
  lists : ∀ k, (s'.signals k).map (·.mSlots) = (s.signals (swap i j k)).map (·.mSlots)
  slots : Reindexed s.slots s'.slots
  nextSignal : s'.nextSignal = s.nextSignal
  nextSlot : s'.nextSlot = s.nextSlot
  emissions : s'.emissions = s.emissions
  disconnected : s'.disconnected = s.disconnected

theorem swap_lists {e e' d' : Signal} {j : Nat} (hd : s.signals i = some d)
    (hd' : s.signals j = some d') (hi : s'.signals i = some e) (hj : s'.signals j = some e')
    (he : e.mSlots = d'.mSlots) (he' : e'.mSlots = d.mSlots)
    (hother : ∀ k, k ≠ i → k ≠ j → s'.signals k = s.signals k) (k : Nat) :
    (s'.signals k).map (·.mSlots) = (s.signals (swap i j k)).map (·.mSlots) := by
  rcases eq_or_ne k i with rfl | hki
  · rw [swap_apply_left, hi, hd', map_some, map_some, he]
  · rcases eq_or_ne k j with rfl | hkj
    · rw [swap_apply_right, hj, hd, map_some, map_some, he']
    · rw [swap_apply_of_ne_of_ne hki hkj, hother k hki hkj]

theorem Exchanges.change {j : Nat} {d' : Signal} (hlists : s.Lists)
    (h : Exchanges s s' i j d d') : s'.Lists ∧ Change s s' [] := by
  have hslotList : ∀ k, s'.slotList k = s.slotList (swap i j k) := by
    intro k
    have hk := h.lists k
    unfold slotList
    cases hs' : s'.signals k <;> cases hs : s.signals (swap i j k) <;> simp_all
  refine ⟨⟨fun y hy => ?_, fun k hk => ?_, fun k e he => ?_, fun k k' y hy hy' => ?_⟩, ?_⟩
  · rw [h.slots.groupOf]
    exact hlists.fresh y (h.nextSlot ▸ hy)
  · rw [h.nextSignal] at hk
    have hlist := h.lists k
    rw [swap_apply_of_ne_of_ne (hlists.ne_of_unborn h.first hk) (hlists.ne_of_unborn h.second hk),
      hlists.unborn k hk] at hlist
    exact map_eq_none_iff.mp hlist
  · obtain ⟨e', hs, heq⟩ := map_eq_some_iff.mp ((h.lists k).symm.trans (congrArg _ he))
    rw [show e.mSlots = e'.mSlots from heq.symm]
    exact (hlists.tidy _ e' hs).of_groupOf fun y _ => h.slots.groupOf y
  · rw [hslotList] at hy hy'
    exact (swap i j).injective (hlists.apart _ _ y hy hy')
  · refine .of_reindexed h.slots h.emissions h.nextSlot h.disconnected fun k y hy => ?_
    exact ⟨_, hslotList k ▸ hy⟩

theorem moveAssign_change {from' : Nat} (hlists : s.Lists)
    (h : s.moveAssign sig from' = some s') : s'.Lists ∧ Change s s' [] := by
  unfold moveAssign at h
  split at h
  · cases h
  next hne =>
    split at h
    next d d' hd hd' =>
      cases h
      refine Exchanges.change hlists ⟨hd, hd', swap_lists hd hd' ?_ (update_self ..) rfl rfl ?_,
        ?_, rfl, rfl, rfl, rfl⟩
      · exact (update_of_ne hne ..).trans (update_self ..)
      · exact fun i hi hi' => (update_of_ne hi' ..).trans (update_of_ne hi ..)
      · exact (rerouteSlotsTo_reindexed s.slots (allSlots d'.mSlots) sig).trans
          (rerouteSlotsTo_reindexed _ (allSlots d.mSlots) from')
    · cases h

/-- The move constructor makes a signal without slots and exchanges it for the other. -/
theorem moveConstruct_change (hlists : s.Lists) (h : s.moveConstruct sig = some s') :
    s'.Lists ∧ Change s s' [] := by
  unfold moveConstruct at h
  split at h
  · cases h
  next d hd =>
    have hne : sig ≠ s.nextSignal := (hlists.ne_of_unborn hd (Nat.le_refl _)).symm
    have hd' : s.newSignal.signals sig = some d := (update_of_ne hne ..).trans hd
    obtain ⟨hlists', hnew⟩ := newSignal_change hlists
    suffices hexchanges : Exchanges s.newSignal s' sig s.nextSignal d ⟨[], false⟩ by
      obtain ⟨hdone, hchange⟩ := hexchanges.change hlists'
      refine ⟨hdone, { hchange with lists := fun i y hy => ?_ }⟩
      obtain ⟨k, hk⟩ := hchange.lists i y hy
      exact hnew.lists k y hk
    cases h
    refine ⟨hd', update_self .., swap_lists (e := { d with mSlots := [] }) hd' (update_self ..) ?_
      (update_self ..) rfl rfl ?_, rerouteSlotsTo_reindexed s.slots _ _, rfl, rfl, rfl, rfl⟩
    · exact (update_of_ne hne ..).trans (update_self ..)
    · intro i hi hi'
      exact (update_of_ne hi' ..).trans ((update_of_ne hi ..).trans (update_of_ne hi' ..).symm)

/-! ### Connecting and emitting -/

/-- What `connect` does. -/
structure Connects (s s' : State) (sig : Nat) (gid : Int) (d : Signal) (slot : Slot) : Prop where
  found : s.signals sig = some d
  group : slot.mGroup = gid
  connected : slot.mConnected = true
  slots : s'.slots = update s.slots s.nextSlot (some slot)
  signals : s'.signals = update s.signals sig
    (some { d with mSlots := (addSlot s.nextSlot gid d.mSlots).1 })
  nextSlot : s'.nextSlot = s.nextSlot + 1
  nextSignal : s'.nextSignal = s.nextSignal
  emissions : s'.emissions = s.emissions
  disconnected : s'.disconnected = s.disconnected

variable {callable : Callable} {object : Option Nat} {tracked : Bool}

/-- The new slot records where it was put. -/
theorem connect_place (h : s.connect sig gid callable object tracked = some s') :
    ∃ d slot, Connects s s' sig gid d slot ∧
      slot.mIndex = (addSlot s.nextSlot gid d.mSlots).2 ∧ slot.mCleaner = sig := by
  unfold connect at h
  split at h
  · cases h
  next d hd =>
    cases h
    exact ⟨d, _, ⟨hd, rfl, rfl, rfl, rfl, rfl, rfl, rfl, rfl⟩, rfl, rfl⟩

theorem connect_connects (h : s.connect sig gid callable object tracked = some s') :
    ∃ d slot, Connects s s' sig gid d slot := by
  obtain ⟨d, slot, hc, -, -⟩ := connect_place h
  exact ⟨d, slot, hc⟩

section Connects

variable {y : Nat}

variable (hc : Connects s s' sig gid d slot)
include hc

theorem Connects.groupOf_of_ne (hne : y ≠ s.nextSlot) : groupOf s'.slots y = groupOf s.slots y := by
  rw [groupOf, groupOf, hc.slots, update_of_ne hne]

theorem Connects.connectedOf_of_ne (hne : y ≠ s.nextSlot) :
    connectedOf s'.slots y = connectedOf s.slots y := by
  rw [connectedOf, connectedOf, hc.slots, update_of_ne hne]

theorem Connects.slotList_mem {i : Nat} (hy : y ∈ s'.slotList i) :
    (y = s.nextSlot ∧ i = sig) ∨ y ∈ s.slotList i := by
  rw [slotList_update hc.signals] at hy
  rcases eq_or_ne i sig with rfl | hne
  · rw [update_self] at hy
    rw [slotList_of_some hc.found]
    exact (mem_addSlot.mp hy).imp_left fun heq => ⟨heq, rfl⟩
  · rw [update_of_ne hne] at hy
    exact .inr hy

omit hc in
theorem Lists.ne_nextSlot (h : s.Lists) (hx : (groupOf s.slots x).isSome = true) : x ≠ s.nextSlot :=
  Nat.ne_of_lt (h.lt_of_some hx)

theorem Connects.lists (h : s.Lists) : s'.Lists := by
  have hkeep : ∀ {i y}, y ∈ s.slotList i → groupOf s'.slots y = groupOf s.slots y := by
    intro i y hy
    exact hc.groupOf_of_ne (h.ne_nextSlot (h.groupOf_isSome hy))
  have hnew : ∀ i, s.nextSlot ∉ s.slotList i := by
    intro i hmem
    exact h.ne_nextSlot (h.groupOf_isSome hmem) rfl
  refine ⟨?_, ?_, ?_, ?_⟩
  · intro y hy
    rw [hc.nextSlot] at hy
    rw [hc.groupOf_of_ne (by omega)]
    exact h.fresh y (by omega)
  · intro i hi
    rw [hc.nextSignal] at hi
    rw [hc.signals, update_of_ne (h.ne_of_unborn hc.found hi)]
    exact h.unborn i hi
  · intro i e he
    rw [hc.signals] at he
    rcases eq_or_ne i sig with rfl | hne
    · rw [update_self] at he
      cases he
      have hlist := slotList_of_some hc.found
      have htidy : Tidy s'.slots d.mSlots := (h.tidy i d hc.found).of_groupOf fun y hy =>
        hkeep (hlist ▸ hy)
      refine htidy.addSlot ?_ (hlist ▸ hnew i)
      rw [groupOf, hc.slots, update_self]
      exact congrArg some hc.group
    · rw [update_of_ne hne] at he
      exact (h.tidy i e he).of_groupOf fun y hy => hkeep (slotList_of_some he ▸ hy)
  · intro i j y hy hy'
    rcases hc.slotList_mem hy with ⟨rfl, rfl⟩ | hy <;>
      rcases hc.slotList_mem hy' with ⟨heq, rfl⟩ | hy'
    · rfl
    · exact absurd hy' (hnew j)
    · exact absurd (heq ▸ hy) (hnew i)
    · exact h.apart i j y hy hy'

theorem Connects.proper (hlists : s.Lists) (h : ∀ e ∈ s.emissions, e.Proper s.slots) :
    ∀ e ∈ s'.emissions, e.Proper s'.slots := by
  rw [hc.emissions]
  intro e he
  exact (h e he).of_groupOf fun y hy => hc.groupOf_of_ne (hlists.ne_nextSlot hy)

/-- A new slot is connected, and nothing has disconnected it. -/
theorem Connects.recorded (h : s.Recorded) : s'.Recorded := by
  have hne : ∀ y ∈ s.disconnected, y ≠ s.nextSlot := fun y hy => Nat.ne_of_lt (h.known y hy)
  refine ⟨?_, ?_, ?_, ?_, ?_⟩
  · rw [hc.disconnected, hc.nextSlot]
    exact fun y hy => Nat.lt_succ_of_lt (h.known y hy)
  · intro y hy
    rw [hc.disconnected]
    rcases eq_or_ne y s.nextSlot with rfl | hother
    · rw [connectedOf, hc.slots, update_self, map_some, hc.connected] at hy
      cases hy
    · rw [hc.connectedOf_of_ne hother] at hy
      exact h.flagged y hy
  · rw [hc.disconnected]
    intro i y hy hmem
    rw [hc.connectedOf_of_ne (hne y hmem)]
    rcases hc.slotList_mem hy with ⟨heq, -⟩ | hy
    · exact absurd heq (hne y hmem)
    · exact h.stored i y hy hmem
  · rw [hc.disconnected, hc.emissions]
    intro e he y hy hmem
    rw [hc.connectedOf_of_ne (hne y hmem)]
    exact h.awaited e he y hy hmem
  · rw [hc.emissions]
    exact h.turns

end Connects

/-- An emission starts on a copy of the list. -/
theorem emit_tracked (hlists : s.Lists) (hproper : ∀ e ∈ s.emissions, e.Proper s.slots)
    (h : s.emit sig = some s') :
    s'.Lists ∧ (∀ e ∈ s'.emissions, e.Proper s'.slots) ∧ (s.Recorded → s'.Recorded) := by
  unfold emit at h
  split at h
  · cases h
  next d hd =>
    split at h
    · cases h
      exact ⟨hlists, hproper, id⟩
    · cases h
      have htidy := hlists.tidy sig d hd
      have hlist := slotList_of_some hd
      refine ⟨hlists.of_same rfl (fun _ => rfl) rfl rfl, ?_, ?_⟩
      · refine forall_mem_append.mpr ⟨hproper, forall_mem_singleton.mpr
          ⟨rfl, htidy.allSlots_nodup, htidy.allSlots_sorted, fun y hy => ?_⟩⟩
        have hmem : y ∈ s.slotList sig := hlist ▸ hy
        exact hlists.groupOf_isSome hmem
      · intro hr
        refine ⟨hr.known, hr.flagged, hr.stored, ?_, ?_⟩
        · exact forall_mem_append.mpr ⟨hr.awaited,
            forall_mem_singleton.mpr fun y hy => hr.stored sig y (hlist ▸ hy)⟩
        · exact forall_mem_append.mpr ⟨hr.turns, forall_mem_singleton.mpr nofun⟩

end State

end CxxKit.Signals
