import CxxKit.Kernel.EmissionRuns
import CxxKit.Kernel.SlotPlaces

/-!
The places of slots over whole runs.

`State.Places` is kept by every step: the slots that are stored record where, and are
connected.  From it and the order of the lists follows what `Connection::disconnect` does to
a slot that is stored (`disconnect_stored`): it takes out that slot and no other.

`SignalBaseR` repeats the functions of `SignalBase` that store and remove slots word for word;
it has no `disconnect` by object or group and no slots with an object.  `Kind.offers` says
which actions each kind of signal has.
-/

namespace CxxKit.Signals

open Function List Option State Transition

variable {s s' : State} {sig x : Nat}

/-- `num_slots`: the sizes of the groups, counted up. -/
def State.numSlots (s : State) (sig : Nat) : Nat :=
  match s.signals sig with
  | none => 0
  | some d => d.mSlots.foldl (fun count g => count + g.slts.length) 0

theorem foldl_length (groups : List Group) (count : Nat) :
    groups.foldl (fun count g => count + g.slts.length) count =
      count + (allSlots groups).length := by
  induction groups generalizing count with
  | nil => rfl
  | cons g groups ih =>
    rw [foldl_cons, ih, allSlots_cons, length_append, Nat.add_assoc]

theorem State.numSlots_eq (s : State) (sig : Nat) : s.numSlots sig = (s.slotList sig).length := by
  cases hd : s.signals sig with
  | none => simp [numSlots, slotList, hd]
  | some d => simp [numSlots, slotList, hd, foldl_length]

namespace State

/-- The slots that are stored record where, and are connected. -/
structure Places (s : State) : Prop where
  placed : ∀ sig d, s.signals sig = some d → AllPlaced s.slots sig d.mSlots
  live : ∀ sig, ∀ x ∈ s.slotList sig, connectedOf s.slots x = some true

theorem places_init : init.Places where
  placed := by
    intro sig d h
    cases h
  live := by
    intro sig x h
    cases h

section

variable (h : s.Places)

include h

theorem Places.congr (hsignals : s'.signals = s.signals)
    (hplace : ∀ x, placeOf s'.slots x = placeOf s.slots x)
    (hflag : ∀ x, connectedOf s'.slots x = connectedOf s.slots x) : s'.Places where
  placed := by
    intro sig d hd
    rw [hsignals] at hd
    exact (h.placed sig d hd).congr fun x _ => hplace x
  live := by
    intro sig x hx
    rw [slotList_congr hsignals] at hx
    rw [hflag]
    exact h.live sig x hx

/-- A call that changes the list of one signal, and no slot stored elsewhere. -/
theorem Places.update {d' : Option Signal} (hsignals : s'.signals = update s.signals sig d')
    (hplaced : ∀ e, d' = some e → AllPlaced s'.slots sig e.mSlots)
    (hlive : ∀ x ∈ s'.slotList sig, connectedOf s'.slots x = some true)
    (hother : ∀ i, i ≠ sig → ∀ x ∈ s.slotList i, s'.slots x = s.slots x) : s'.Places where
  placed := by
    intro i d hd
    rw [hsignals] at hd
    rcases eq_or_ne i sig with rfl | hne
    · rw [update_self] at hd
      exact hplaced d hd
    · rw [update_of_ne hne] at hd
      refine (h.placed i d hd).congr fun x hx => placeOf_congr (hother i hne x ?_)
      rw [slotList_of_some hd]
      exact hx
  live := by
    intro i x hx
    rcases eq_or_ne i sig with rfl | hne
    · exact hlive x hx
    · rw [slotList_update hsignals, update_of_ne hne] at hx
      rw [connectedOf, hother i hne x hx]
      exact h.live i x hx

/-- The slots keep their flags, and none is stored that was not. -/
theorem Places.live_of_reindexed (hslots : Reindexed s.slots s'.slots)
    (hmem : ∀ i, ∀ y ∈ s'.slotList i, ∃ j, y ∈ s.slotList j) :
    ∀ i, ∀ y ∈ s'.slotList i, connectedOf s'.slots y = some true := by
  intro i y hy
  obtain ⟨j, hj⟩ := hmem i y hy
  rw [hslots.connectedOf]
  exact h.live j y hj

section

variable (hlists : s.Lists) {gid : Int}
include hlists

theorem Places.stored (hx : x ∈ s.slotList sig) :
    ∃ d g slot, s.signals sig = some d ∧ g ∈ d.mSlots ∧ s.slots x = some slot ∧
      g.slts[slot.mIndex]? = some x ∧ slot.mGroup = g.gid ∧ slot.mCleaner = sig ∧
      slot.mConnected = true := by
  have hlive := h.live sig x hx
  obtain ⟨slot, hslot, hflag⟩ := map_eq_some_iff.mp hlive
  unfold slotList at hx
  split at hx
  · cases hx
  next d hd =>
    obtain ⟨g, hg, hmem⟩ := mem_allSlots.mp hx
    obtain ⟨i, hi⟩ := mem_iff_getElem?.mp hmem
    have hplace := h.placed sig d hd g hg i x hi
    have hgroup := (hlists.tidy sig d hd).grouped g hg x hmem
    rw [placeOf, hslot] at hplace
    rw [groupOf, hslot] at hgroup
    cases hplace
    exact ⟨d, g, slot, hd, hg, hslot, hi, Option.some.inj hgroup, rfl, hflag⟩

/-! ### Connecting -/

theorem connect_places {callable : Callable} {object : Option Nat} {tracked : Bool}
    (hstep : s.connect sig gid callable object tracked = some s') : s'.Places := by
  obtain ⟨d, slot, hc, hindex, hcleaner⟩ := connect_place hstep
  have hself : s'.slots s.nextSlot = some slot := by
    rw [hc.slots, update_self]
  have hkept : ∀ i, ∀ y ∈ s.slotList i, s'.slots y = s.slots y := by
    intro i y hy
    rw [hc.slots, update_of_ne (hlists.ne_nextSlot (hlists.groupOf_isSome hy))]
  refine h.update hc.signals ?_ ?_ fun i _ => hkept i
  · rintro e ⟨⟩
    refine addSlot_placed ((h.placed sig d hc.found).congr fun y hy => ?_) ?_
    · rw [← slotList_of_some hc.found] at hy
      exact placeOf_congr (hkept sig y hy)
    · rw [placeOf, hself, map_some, hindex, hcleaner]
  · intro y hy
    rcases hc.slotList_mem hy with ⟨rfl, -⟩ | hy
    · rw [connectedOf, hself, map_some, hc.connected]
    · rw [connectedOf, hkept sig y hy]
      exact h.live sig y hy

/-! ### Removing -/

theorem disconnectIf_places {cond : Nat → Bool} (hstep : s.disconnectIf sig cond = some s') :
    s'.Places := by
  have hchange := (disconnectIf_change hlists hstep).2
  unfold disconnectIf at hstep
  split at hstep
  · cases hstep
  next d hd =>
    cases hstep
    refine h.update rfl ?_ ?_ ?_
    · rintro e ⟨⟩
      exact disconnectGroups_placed (h.placed sig d hd) (hlists.tidy sig d hd).allSlots_nodup
    · exact h.live_of_reindexed (disconnectGroups_reindexed cond s.slots d.mSlots)
        hchange.lists sig
    · intro i hne y hy
      refine disconnectGroups_other fun hmem => hne (hlists.apart i sig y hy ?_)
      rw [slotList_of_some hd]
      exact hmem

omit hlists in
/-- A call that takes slots from a list without touching any slot. -/
theorem removal_places {d' : Option Signal} {removed : List Nat} (hchange : Change s s' removed)
    (hsignals : s'.signals = update s.signals sig d') (hslots : s'.slots = s.slots)
    (hplaced : ∀ e, d' = some e → AllPlaced s.slots sig e.mSlots) : s'.Places := by
  refine h.update hsignals ?_ ?_ ?_
  · rw [hslots]
    exact hplaced
  · refine h.live_of_reindexed ?_ hchange.lists sig
    rw [hslots]
    exact .refl _
  · intro i _ y _
    rw [hslots]

theorem disconnectGroup_places (hstep : s.disconnectGroup sig gid = some s') : s'.Places := by
  cases hd : s.signals sig with
  | none => simp [disconnectGroup, hd] at hstep
  | some d =>
    have hchange := (disconnectGroup_change hlists hd hstep).2
    simp only [disconnectGroup, hd] at hstep
    cases hstep
    refine removal_places h hchange rfl rfl ?_
    rintro e ⟨⟩
    exact clearGroup_placed (h.placed sig d hd) gid

theorem disconnectAll_places (hstep : s.disconnectAll sig = some s') : s'.Places := by
  have hchange := (disconnectAll_change hlists hstep).2
  unfold disconnectAll at hstep
  split at hstep
  · cases hstep
  · cases hstep
    refine removal_places h hchange rfl rfl ?_
    rintro e ⟨⟩
    exact forall_mem_nil _

theorem destroy_places (hstep : s.destroy sig = some s') : s'.Places := by
  have hchange := (destroy_change hlists hstep).2
  obtain ⟨u, hall, rfl⟩ := map_eq_some_iff.mp hstep
  unfold disconnectAll at hall
  split at hall
  · cases hall
  next d hd =>
    cases hall
    refine removal_places h hchange (update_idem ..) rfl ?_
    rintro e ⟨⟩

/-! ### `Connection::disconnect` -/

/-- **Disconnecting a stored slot** takes out that slot and no other. -/
theorem disconnect_stored (hx : x ∈ s.slotList sig) :
    ∃ s', s.disconnect x = some s' ∧ (x :: s'.slotList sig).Perm (s.slotList sig) ∧
      ∀ i, i ≠ sig → s'.signals i = s.signals i := by
  obtain ⟨d, g, slot, hd, hg, hslot, hindex, hgroup, rfl, hconnected⟩ := h.stored hlists hx
  refine ⟨_, disconnect_eq hslot hconnected hd, ?_, fun i hne => update_of_ne hne ..⟩
  rw [slotList_cleaned, slotList_of_some hd, hgroup]
  exact cleanGroups_perm (hlists.tidy _ d hd).sorted hg hindex

/-- A slot that was disconnected is no longer stored. -/
theorem disconnect_gone {slot : Slot} {d : Signal} (hd : s.signals slot.mCleaner = some d)
    (hrun : s.disconnect x = some (s.cleaned x slot d)) :
    x ∉ (s.cleaned x slot d).slotList slot.mCleaner := by
  intro hmem
  obtain ⟨s', hrun', hperm, -⟩ := disconnect_stored h hlists (mem_slotList_cleaned hd hmem)
  cases hrun'.symm.trans hrun
  have hnodup := (hlists.tidy _ d hd).allSlots_nodup
  rw [← slotList_of_some hd, ← hperm.nodup_iff] at hnodup
  exact (nodup_cons.mp hnodup).1 hmem

theorem disconnect_places (hstep : s.disconnect x = some s') : s'.Places := by
  rcases disconnect_inv hstep with rfl | ⟨slot, d, hslot, hd, hrun, rfl⟩
  · exact h
  · have hmoved := cleanGroups_reindexed (s.cleared x slot) x slot.mIndex slot.mGroup d.mSlots
    have hplace : ∀ y, placeOf (s.cleared x slot) y = placeOf s.slots y := by
      intro y
      rcases eq_or_ne y x with rfl | hne
      · rw [placeOf, placeOf, cleared_self, hslot]
        rfl
      · exact placeOf_congr (cleared_of_ne hne slot)
    refine h.update rfl ?_ ?_ ?_
    · rintro e ⟨⟩
      refine cleanGroups_placed ?_ (hlists.tidy _ d hd).allSlots_nodup
      exact (h.placed _ d hd).congr fun y _ => hplace y
    · intro y hy
      have hne : y ≠ x := by
        rintro rfl
        exact disconnect_gone h hlists hd hrun hy
      refine (hmoved.connectedOf y).trans ?_
      rw [connectedOf, cleared_of_ne hne]
      exact h.live slot.mCleaner y (mem_slotList_cleaned hd hy)
    · intro i hi y hy
      -- a stored slot is stored by the signal it records
      have hne : y ≠ x := by
        rintro rfl
        obtain ⟨-, -, slot', -, -, hslot', -, -, hhome, -⟩ := h.stored hlists hy
        cases hslot.symm.trans hslot'
        exact hi hhome.symm
      refine (cleanGroups_other fun hmem => hi ?_).trans (cleared_of_ne hne slot)
      exact hlists.apart i _ y hy (slotList_of_some hd ▸ hmem)

/-! ### Moving -/

theorem moveConstruct_places (hstep : s.moveConstruct sig = some s') : s'.Places := by
  have hchange := (moveConstruct_change hlists hstep).2
  unfold moveConstruct at hstep
  split at hstep
  · cases hstep
  next d hd =>
    cases hstep
    have hmoved := rerouteSlotsTo_reindexed s.slots (allSlots d.mSlots) s.nextSignal
    refine ⟨?_, h.live_of_reindexed hmoved hchange.lists⟩
    intro i e he
    change update (update s.signals sig _) s.nextSignal _ i = some e at he
    rcases eq_or_ne i s.nextSignal with rfl | hnext
    · rw [update_self] at he
      cases he
      exact rerouteSlotsTo_placed (h.placed sig d hd)
    · rw [update_of_ne hnext] at he
      rcases eq_or_ne i sig with rfl | hi
      · rw [update_self] at he
        cases he
        exact forall_mem_nil _
      · rw [update_of_ne hi] at he
        refine (h.placed i e he).congr fun y hy => placeOf_congr (rerouteSlotsTo_other ?_)
        intro hmem
        rw [← slotList_of_some he] at hy
        rw [← slotList_of_some hd] at hmem
        exact hi (hlists.apart i sig y hy hmem)

theorem moveAssign_places {from' : Nat} (hstep : s.moveAssign sig from' = some s') : s'.Places := by
  have hchange := (moveAssign_change hlists hstep).2
  unfold moveAssign at hstep
  split at hstep
  · cases hstep
  next hne =>
    split at hstep
    next d d' hd hd' =>
      cases hstep
      -- a slot of one signal is in the list of no other
      have happart : ∀ {i j e e' y}, s.signals i = some e → s.signals j = some e' → i ≠ j →
          y ∈ allSlots e.mSlots → y ∉ allSlots e'.mSlots := by
        intro i j e e' y he he' hij hy hmem
        rw [← slotList_of_some he] at hy
        rw [← slotList_of_some he'] at hmem
        exact hij (hlists.apart i j y hy hmem)
      have hmoved := (rerouteSlotsTo_reindexed s.slots (allSlots d'.mSlots) sig).trans
        (rerouteSlotsTo_reindexed _ (allSlots d.mSlots) from')
      refine ⟨?_, h.live_of_reindexed hmoved hchange.lists⟩
      intro i e he
      change update (update s.signals sig _) from' _ i = some e at he
      rcases eq_or_ne i from' with rfl | hi'
      · rw [update_self] at he
        cases he
        refine rerouteSlotsTo_placed ((h.placed sig d hd).congr fun y hy => ?_)
        exact placeOf_congr (rerouteSlotsTo_other (happart hd hd' hne hy))
      · rw [update_of_ne hi'] at he
        rcases eq_or_ne i sig with rfl | hi
        · rw [update_self] at he
          cases he
          refine (rerouteSlotsTo_placed (h.placed from' d' hd')).congr fun y hy => ?_
          exact placeOf_congr (rerouteSlotsTo_other (happart hd' hd (Ne.symm hne) hy))
        · rw [update_of_ne hi] at he
          refine (h.placed i e he).congr fun y hy => ?_
          refine placeOf_congr ((rerouteSlotsTo_other (happart he hd hi hy)).trans ?_)
          exact rerouteSlotsTo_other (happart he hd' hi' hy)
    · cases hstep

end

/-! ### One step -/

theorem newSignal_places : s.newSignal.Places := by
  refine h.update rfl ?_ ?_ ?_
  · rintro e ⟨⟩
    exact forall_mem_nil _
  · intro y hy
    rw [slotList_update rfl, update_self] at hy
    cases hy
  · exact fun _ _ _ _ => rfl

theorem setBlocked_places {blocked : Bool}
    (hstep : s.setBlocked x blocked = some s') : s'.Places := by
  unfold setBlocked at hstep
  split at hstep
  · cases hstep
  next slot hslot =>
    cases hstep
    refine h.congr rfl ?_ (map_setSlot (·.mConnected) hslot rfl)
    intro y
    rcases eq_or_ne y x with rfl | hne
    · have hself : (s.setSlot y { slot with mBlocked := blocked }).slots y =
          some { slot with mBlocked := blocked } := update_self ..
      rw [placeOf, placeOf, hself, hslot]
      rfl
    · exact placeOf_congr (update_of_ne hne ..)

theorem setBlock_places {blocked : Bool}
    (hstep : s.setBlock sig blocked = some s') : s'.Places := by
  unfold setBlock at hstep
  split at hstep
  · cases hstep
  next d hd =>
    cases hstep
    refine h.update rfl ?_ ?_ fun _ _ _ _ => rfl
    · rintro e ⟨⟩
      exact h.placed sig d hd
    · intro y hy
      rw [slotList_update rfl, update_self] at hy
      refine h.live sig y ?_
      rw [slotList_of_some hd]
      exact hy

theorem emit_places (hstep : s.emit sig = some s') : s'.Places := by
  unfold emit at hstep
  split at hstep
  · cases hstep
  · split at hstep
    · cases hstep
      exact h
    · cases hstep
      exact h.congr rfl (fun _ => rfl) fun _ => rfl

theorem turn_places {e : Nat} (hlists : s.Lists) (hstep : s.turn e = some s') : s'.Places := by
  unfold turn at hstep
  split at hstep
  · cases hstep
  · split at hstep
    · cases hstep
    · split at hstep
      · cases hstep
      · dsimp only at hstep
        split at hstep
        · refine disconnect_places ?_ ?_ hstep
          · exact h.congr rfl (fun _ => rfl) fun _ => rfl
          · exact hlists.of_same rfl (fun _ => rfl) rfl rfl
        · cases hstep
          exact h.congr rfl (fun _ => rfl) fun _ => rfl

/-- **One step** leaves every stored slot at the place it records. -/
theorem step_places {a : Action} (hlists : s.Lists) (hstep : s.step a = some s') : s'.Places := by
  cases a with
  | newSignal =>
    cases hstep
    exact newSignal_places h
  | connect sig gid callable object tracked => exact connect_places h hlists hstep
  | disconnect x => exact disconnect_places h hlists hstep
  | disconnectCallable sig c | disconnectObject sig o => exact disconnectIf_places h hlists hstep
  | disconnectBoth sig c o => exact disconnectIf_places h hlists hstep
  | disconnectGroup sig gid => exact disconnectGroup_places h hlists hstep
  | disconnectAll sig => exact disconnectAll_places h hlists hstep
  | setBlocked x blocked => exact setBlocked_places h hstep
  | setBlock sig blocked => exact setBlock_places h hstep
  | emit sig => exact emit_places h hstep
  | turn e => exact turn_places h hlists hstep
  | expire o =>
    cases hstep
    exact h.congr rfl (fun _ => rfl) fun _ => rfl
  | moveConstruct sig => exact moveConstruct_places h hlists hstep
  | moveAssign sig from' => exact moveAssign_places h hlists hstep
  | destroy sig => exact destroy_places h hlists hstep

end

end State

/-! ### Runs -/

/-- `SignalBase`, whose slots return nothing, and `SignalBaseR`. -/
inductive Kind where
  | void
  | result
deriving DecidableEq, Repr

/-- The actions a signal has.  An emission of a `SignalBaseR` runs its combiner; what the slots
do when they are called are actions of their own. -/
def Kind.offers : Kind → Action → Bool
  | .void, _ => true
  | .result, .connect _ _ _ object tracked => object.isNone && !tracked
  | .result, .disconnectObject .. => false
  | .result, .disconnectBoth .. => false
  | .result, .disconnectGroup .. => false
  | .result, .emit _ => false
  | .result, .turn _ => false
  | .result, _ => true

/-- The slot lists of all signals are in order, and `Connection::disconnect` relies on it. -/
structure State.Filed (s : State) : Prop where
  ascending : ∀ sig d, s.signals sig = some d → d.mSlots.Pairwise (·.gid < ·.gid)
  /-- Every stored slot records its position, its group and its signal. -/
  recorded : ∀ sig d, s.signals sig = some d → ∀ g ∈ d.mSlots, ∀ i x, g.slts[i]? = some x →
    ∃ slot, s.slots x = some slot ∧ slot.mIndex = i ∧ slot.mGroup = g.gid ∧ slot.mCleaner = sig
  /-- Disconnecting a stored slot removes that slot, and no other from any signal. -/
  disconnects : ∀ sig, ∀ x ∈ s.slotList sig, ∃ s', s.disconnect x = some s' ∧
    (x :: s'.slotList sig).Perm (s.slotList sig) ∧ x ∉ s'.slotList sig ∧
    s'.numSlots sig + 1 = s.numSlots sig ∧ ∀ i, i ≠ sig → s'.signals i = s.signals i

theorem State.Places.filed (h : s.Places) (hlists : s.Lists) : s.Filed where
  ascending sig d hd := (hlists.tidy sig d hd).sorted
  recorded := by
    intro sig d hd g hg i x hx
    obtain ⟨slot, hslot, hplace⟩ := map_eq_some_iff.mp (h.placed sig d hd g hg i x hx)
    have hgroup := (hlists.tidy sig d hd).grouped g hg x (mem_of_getElem? hx)
    rw [groupOf, hslot] at hgroup
    cases hplace
    exact ⟨slot, hslot, rfl, Option.some.inj hgroup, rfl⟩
  disconnects := by
    intro sig x hx
    obtain ⟨s', hrun, hperm, hother⟩ := disconnect_stored h hlists hx
    have hnodup : (s.slotList sig).Nodup := by
      obtain ⟨d, -, -, hd, -⟩ := h.stored hlists hx
      rw [slotList_of_some hd]
      exact (hlists.tidy sig d hd).allSlots_nodup
    refine ⟨s', hrun, hperm, ?_, ?_, hother⟩
    · exact (nodup_cons.mp (hperm.nodup_iff.mpr hnodup)).1
    · rw [numSlots_eq, numSlots_eq, ← hperm.length_eq, length_cons]

/-- **Slots know their place**, in every state of every run of signals of either kind. A removal
swaps the last slot into the gap and rewrites its index, and a move of a signal rewrites the owner
of every slot. -/
theorem slots_filed (kind : Kind) (run : List Action) :
    (machine.restrict kind.offers).Always State.Filed init run := by
  have hboth : (machine.restrict kind.offers).Always (fun s => s.Tracked ∧ s.Places)
      init run := by
    refine Machine.always_of_step ?_ ⟨tracked_init, places_init⟩ run
    rintro s a s' ⟨htracked, hplaces⟩ hstep
    have hstep : s.step a = some s' := (Machine.restrict_step.mp hstep).2
    exact ⟨step_tracked htracked hstep, step_places hplaces htracked.lists hstep⟩
  exact hboth.mono fun s h => h.2.filed h.1.lists

end CxxKit.Signals
