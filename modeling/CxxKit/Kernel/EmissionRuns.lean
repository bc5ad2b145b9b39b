import CxxKit.Kernel.Emissions

/-!
Emissions over whole runs.

`emissions_in_order`: in every run each emission invokes only slots of the list it started
with, each at most once, in ascending order of the groups.  `emissions_exact`: it also
invokes exactly those that are neither disconnected nor blocked when their turn comes, if
no call takes a slot from its list that an emission still has to come to without clearing
the slot's flag (`Settled`).
-/

namespace CxxKit.Signals

open List State Transition

variable {s s' : State}

def Action.isEmission : Action → Bool
  | .emit _ | .turn _ => true
  | _ => false

namespace State

structure Tracked (s : State) : Prop where
  lists : s.Lists
  proper : ∀ e ∈ s.emissions, e.Proper s.slots

/-- The turn itself, without what a dead tracked object leads to. -/
theorem turn_taken {e x : Nat} {emission : Emission} {rest : List Nat} {slot : Slot}
    (h : s.Tracked) (hemission : s.emissions[e]? = some emission)
    (hrest : emission.rest = x :: rest)
    (hslot : s.slots x = some slot) (dead : Bool) {turn : Turn}
    (hturn : turn = ⟨x, slot.mConnected && !slot.mBlocked && !dead, decide (x ∈ s.disconnected),
      slot.mBlocked, dead⟩) {after : Emission}
    (hafter : after = { emission with rest := rest, turns := emission.turns ++ [turn] }) :
    { s with emissions := s.emissions.set e after }.Tracked ∧
      (s.Recorded → { s with emissions := s.emissions.set e after }.Recorded) := by
  subst hafter
  have hmem : emission ∈ s.emissions := mem_of_getElem? hemission
  have hold := h.proper emission hmem
  have hthis : turn.slot = x := by rw [hturn]
  refine ⟨⟨h.lists.of_same rfl (fun _ => rfl) rfl rfl, ?_⟩, ?_⟩
  · intro e' he'
    rcases mem_or_eq_of_mem_set he' with he' | rfl
    · exact h.proper e' he'
    · refine ⟨?_, hold.nodup, hold.sorted, hold.known⟩
      rw [map_append, append_assoc, ← hold.shape, hrest, map_singleton, hthis]
      rfl
  · intro hr
    refine ⟨hr.known, hr.flagged, hr.stored, ?_, ?_⟩
    · intro e' he' y hy
      rcases mem_or_eq_of_mem_set he' with he' | rfl
      · exact hr.awaited e' he' y hy
      · exact hr.awaited emission hmem y (hrest ▸ mem_cons_of_mem _ hy)
    · intro e' he' turn' hturn'
      rcases mem_or_eq_of_mem_set he' with he' | rfl
      · exact hr.turns e' he' turn' hturn'
      · rcases mem_append.mp hturn' with hturn' | hturn'
        · exact hr.turns emission hmem turn' hturn'
        · rw [mem_singleton.mp hturn', hturn]
          -- the flag says what the record says
          have hflag : slot.mConnected = false ↔ x ∈ s.disconnected := by
            have hview : connectedOf s.slots x = some slot.mConnected := by
              rw [connectedOf, hslot]
              rfl
            constructor
            · intro hfalse
              exact hr.flagged x (hview.trans (congrArg some hfalse))
            · intro hdis
              have hawaited := hr.awaited emission hmem x (hrest ▸ mem_cons_self) hdis
              exact Option.some.inj (hview.symm.trans hawaited)
          cases hconnected : slot.mConnected with
          | false =>
            have hdis := hflag.mp hconnected
            simp [Turn.Exact, hdis]
          | true =>
            have hdis : x ∉ s.disconnected := by
              intro hdis
              rw [hflag.mpr hdis] at hconnected
              cases hconnected
            simp [Turn.Exact, hdis]

theorem turn_tracked {e : Nat} (h : s.Tracked) (hturn : s.turn e = some s') :
    s'.Tracked ∧ (s.Recorded → s'.Recorded) := by
  unfold turn at hturn
  split at hturn
  · cases hturn
  next emission hemission =>
    split at hturn
    · cases hturn
    next x rest hrest =>
      split at hturn
      · cases hturn
      next slot hslot =>
        obtain ⟨htracked, hrecorded⟩ :=
          turn_taken h hemission hrest hslot (slot.expired s.expired) rfl rfl
        dsimp only at hturn
        split at hturn
        · obtain ⟨hlists, hchange⟩ := disconnect_change htracked.lists hturn
          refine ⟨⟨hlists, hchange.proper htracked.proper⟩, ?_⟩
          exact fun hr => hchange.recorded htracked.lists (hrecorded hr) nofun
        · cases hturn
          exact ⟨htracked, hrecorded⟩

/-- The slots a step takes from their list without clearing their flag. -/
def removed (s : State) : Action → List Nat
  | .disconnectCallable sig c =>
    (s.slotList sig).filter (s.matching fun slot => slot.hasFullCallable c)
  | .disconnectObject sig o =>
    (s.slotList sig).filter (s.matching fun slot => slot.hasObject s.expired o)
  | .disconnectBoth sig c o => (s.slotList sig).filter
      (s.matching fun slot => slot.hasObject s.expired o && slot.hasCallable c)
  | .disconnectGroup sig gid =>
    match s.signals sig with
    | none => []
    | some d => groupSlots gid d.mSlots
  | .disconnectAll sig => s.slotList sig
  | .destroy sig => s.slotList sig
  | _ => []

variable {a : Action}

/-- Every call that is not an emission connects a slot or is a change. -/
theorem call_cases (hcall : a.isEmission = false) (hlists : s.Lists) (h : s.step a = some s') :
    (s'.Lists ∧ Change s s' (s.removed a)) ∨ ∃ sig gid d slot, Connects s s' sig gid d slot := by
  cases a with
  | newSignal =>
    cases h
    exact .inl (newSignal_change hlists)
  | connect sig gid callable object tracked =>
    obtain ⟨d, slot, hc⟩ := connect_connects h
    exact .inr ⟨sig, gid, d, slot, hc⟩
  | disconnect x => exact .inl (disconnect_change hlists h)
  | disconnectCallable sig c | disconnectObject sig o => exact .inl (disconnectIf_change hlists h)
  | disconnectBoth sig c o => exact .inl (disconnectIf_change hlists h)
  | disconnectGroup sig gid =>
    cases hd : s.signals sig with
    | none =>
      change s.disconnectGroup sig gid = some s' at h
      rw [disconnectGroup, hd] at h
      cases h
    | some d =>
      rw [removed, hd]
      exact .inl (disconnectGroup_change hlists hd h)
  | disconnectAll sig => exact .inl (disconnectAll_change hlists h)
  | setBlocked x blocked => exact .inl (setBlocked_change hlists h)
  | setBlock sig blocked => exact .inl (setBlock_change hlists h)
  | emit sig | turn e => cases hcall
  | expire o =>
    cases h
    refine .inl ⟨hlists.of_same rfl (fun _ => rfl) rfl rfl, ?_⟩
    exact .of_reindexed (.refl _) rfl rfl rfl fun sig x hx => ⟨sig, hx⟩
  | moveConstruct sig => exact .inl (moveConstruct_change hlists h)
  | moveAssign sig from' => exact .inl (moveAssign_change hlists h)
  | destroy sig => exact .inl (destroy_change hlists h)

/-- Every step that is not a turn, an emission or a new slot is a change. -/
theorem step_cases (hlists : s.Lists) (h : s.step a = some s') :
    (s'.Lists ∧ Change s s' (s.removed a)) ∨ (∃ sig gid d slot, Connects s s' sig gid d slot) ∨
      (∃ sig, s.emit sig = some s') ∨ ∃ e, s.turn e = some s' := by
  cases hcall : a.isEmission with
  | false => exact (call_cases hcall hlists h).imp_right .inl
  | true =>
    cases a with
    | emit sig => exact .inr (.inr (.inl ⟨sig, h⟩))
    | turn e => exact .inr (.inr (.inr ⟨e, h⟩))
    | _ => cases hcall

theorem step_tracked (h : s.Tracked) (hstep : s.step a = some s') : s'.Tracked := by
  rcases step_cases h.lists hstep with ⟨hlists, hchange⟩ | ⟨sig, gid, d, slot, hc⟩ |
    ⟨sig, hemit⟩ | ⟨e, hturn⟩
  · exact ⟨hlists, hchange.proper h.proper⟩
  · exact ⟨hc.lists h.lists, hc.proper h.lists h.proper⟩
  · obtain ⟨hlists, hproper, -⟩ := emit_tracked h.lists h.proper hemit
    exact ⟨hlists, hproper⟩
  · exact (turn_tracked h hturn).1

end State

/-- No slot that an emission still has to come to is taken from its list without its flag
being cleared. -/
def Settled (s : State) (a : Action) : Prop :=
  ∀ x ∈ s.removed a, ∀ e ∈ s.emissions, x ∉ e.rest

namespace State

theorem step_recorded {a : Action} (h : s.Tracked) (hr : s.Recorded) (hsettled : Settled s a)
    (hstep : s.step a = some s') : s'.Recorded := by
  rcases step_cases h.lists hstep with ⟨-, hchange⟩ | ⟨sig, gid, d, slot, hc⟩ |
    ⟨sig, hemit⟩ | ⟨e, hturn⟩
  · exact hchange.recorded h.lists hr hsettled
  · exact hc.recorded hr
  · exact (emit_tracked h.lists h.proper hemit).2.2 hr
  · exact (turn_tracked h hturn).2 hr

theorem tracked_init : init.Tracked where
  lists := ⟨fun _ _ => rfl, fun _ _ => rfl, nofun, nofun⟩
  proper := nofun

theorem recorded_init : init.Recorded :=
  ⟨nofun, nofun, nofun, nofun, nofun⟩

end State

/-! ### Runs -/

/-- The slots an emission has invoked, in order. -/
def Emission.calls (e : Emission) : List Nat := (e.turns.filter (·.invoked)).map (·.slot)

/-- Only slots of the list at the start are invoked, each at most once, in ascending order
of the groups; and each of them has its turn. -/
def InOrder (s : State) : Prop :=
  ∀ e ∈ s.emissions, e.calls ⊆ e.snapshot ∧ e.calls.Nodup ∧
    e.calls.Pairwise (State.Ascending s.slots) ∧ e.turns.map (·.slot) ++ e.rest = e.snapshot

theorem Emission.Proper.calls_sublist {slots : Nat → Option Slot} {e : Emission}
    (h : e.Proper slots) : e.calls.Sublist e.snapshot := by
  rw [← h.shape]
  refine List.Sublist.trans ?_ (sublist_append_left ..)
  exact filter_sublist.map _

theorem State.Tracked.inOrder (h : s.Tracked) : InOrder s := by
  intro e he
  have hproper := h.proper e he
  have hsub := hproper.calls_sublist
  exact ⟨hsub.subset, hproper.nodup.sublist hsub, hproper.sorted.sublist hsub, hproper.shape⟩

theorem tracked_always (run : List Action) : machine.Always State.Tracked init run := by
  apply Machine.always_of_step
  · exact fun s a s' h hstep => step_tracked h hstep
  · exact tracked_init

/-- **The order of emissions**, in every run. The copy is sorted by groups and nothing is added to
it, so no condition on the run is needed. -/
theorem emissions_in_order (run : List Action) : machine.Always InOrder init run :=
  (tracked_always run).mono fun _ h => h.inOrder

/-- In order, and every slot was invoked at its turn exactly if no call had disconnected it,
it was not blocked, and its tracked object, if any, was alive. -/
def ExactEmissions (s : State) : Prop :=
  InOrder s ∧ ∀ e ∈ s.emissions, ∀ turn ∈ e.turns, turn.Exact

/-- **Emissions are exact**, in every state of a settled run. An emission walks a copy of the list
and tests flags, which only `Connection::disconnect` clears; the other ways to disconnect take a
slot from a list that the emission no longer looks at. -/
theorem emissions_exact (run : List Action) (h : machine.Meets Settled init run) :
    machine.Always ExactEmissions init run := by
  have hboth : machine.Always (fun s => s.Tracked ∧ s.Recorded) init run := by
    refine Machine.always_of_meets ?_ ⟨tracked_init, recorded_init⟩ h
    rintro s a s' ⟨htracked, hrecorded⟩ hsettled hstep
    exact ⟨step_tracked htracked hstep, step_recorded htracked hrecorded hsettled hstep⟩
  exact hboth.mono fun s h => ⟨h.1.inOrder, h.2.turns⟩

/-- A free function. -/
def someFunction : Callable := ⟨some 0, 0, false⟩

/-- The slot of group 0, when called, disconnects the one of group 1 through its connection
and emits again; all slots are disconnected when both emissions are through. -/
def recursiveRun : List Action :=
  [.newSignal, .connect 0 1 someFunction none false, .connect 0 0 someFunction none false,
    .emit 0, .turn 0, .disconnect 0, .emit 0, .turn 1, .turn 0, .disconnectAll 0]

theorem emissions_exact_recursive : (machine.run init recursiveRun).isSome = true ∧
      machine.Always ExactEmissions init recursiveRun := by
  refine ⟨rfl, emissions_exact recursiveRun ?_⟩
  rintro s₁ ⟨⟩
  refine ⟨nofun, ?_⟩
  rintro s₂ ⟨⟩
  refine ⟨nofun, ?_⟩
  rintro s₃ ⟨⟩
  refine ⟨nofun, ?_⟩
  rintro s₄ ⟨⟩
  refine ⟨nofun, ?_⟩
  rintro s₅ ⟨⟩
  refine ⟨nofun, ?_⟩
  rintro s₆ ⟨⟩
  refine ⟨nofun, ?_⟩
  rintro s₇ ⟨⟩
  refine ⟨nofun, ?_⟩
  rintro s₈ ⟨⟩
  refine ⟨nofun, ?_⟩
  rintro s₉ ⟨⟩
  refine ⟨nofun, ?_⟩
  rintro s₁₀ ⟨⟩
  refine ⟨?_, trivial⟩
  -- nothing is left of either emission
  intro x _ e he hmem
  rcases mem_cons.mp he with rfl | he
  · cases hmem
  · rw [mem_singleton.mp he] at hmem
    cases hmem

/-- Two slots; the first one disconnects all. -/
def overrunRun : List Action :=
  [.newSignal, .connect 0 0 someFunction none false, .connect 0 0 someFunction none false,
    .emit 0, .turn 0, .disconnectAll 0, .turn 0]

/-- `disconnect_all` does not clear the flags: the second slot is still invoked. -/
theorem disconnected_slot_invoked :
    ∃ s, machine.run init overrunRun = some s ∧ ¬ ExactEmissions s := by
  refine ⟨_, rfl, ?_⟩
  intro h
  have hexact := h.2 _ mem_cons_self ⟨1, true, true, false, false⟩ (by decide)
  exact absurd (hexact.mp rfl).1 (by decide)

end CxxKit.Signals
