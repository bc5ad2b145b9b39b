import CxxKit.Kernel.EmissionRuns

/-!
`connect_once` under concurrent emissions (`kernel/signals.hpp`).

An emission is taken apart here into its atomic accesses and locked sections: the load of
`m_block`, the reference to the slot list, the loads of `mConnected` and `mBlocked`, the
exchange and the `clean` of a disconnection, and the call of the callable.  Any number of
threads take such steps in any order, and a thread inside a callable may emit again.
Every other call on the signals is one step of the sequential model.

`runs` counts how often the callable of a slot made by `connect_once` was started.
-/

namespace CxxKit.Signals.Concurrent

open Function

/-- Where a thread is in its innermost emission; `rest` are the slots still to come.
`wrapped` tells the disconnection `connect_once` makes before it runs its callable from the
one of a slot whose tracked object has died. -/
inductive Point where
  | entered (sig : Nat)
  | unblocked (sig : Nat)
  | visiting (rest : List Nat)
  | connected (x : Nat) (rest : List Nat)
  | calling (x : Nat) (rest : List Nat)
  | held (x : Nat) (rest : List Nat)
  | disconnecting (x : Nat) (rest : List Nat) (wrapped : Bool)
  | cleaning (x : Nat) (rest : List Nat) (wrapped : Bool)
  | firing (x : Nat) (rest : List Nat)
  | running (x : Nat) (rest : List Nat)
deriving DecidableEq, Repr

/-- A thread; the outer emissions are all inside a callable. -/
inductive Thread where
  | idle
  | emitting (point : Point) (outer : List (Nat × List Nat))
deriving DecidableEq, Repr

structure State where
  shared : Signals.State
  once : List Nat
  threads : Nat → Thread
  runs : Nat → Nat

def State.init : State where
  shared := .init
  once := []
  threads := fun _ => .idle
  runs := fun _ => 0

/-- The innermost emission is over. -/
def Thread.below : List (Nat × List Nat) → Thread
  | [] => .idle
  | (x, rest) :: outer => .emitting (.running x rest) outer

namespace State

def setThread (s : State) (tid : Nat) (thread : Thread) : State :=
  { s with threads := update s.threads tid thread }

def goto (s : State) (tid : Nat) (point : Point) (outer : List (Nat × List Nat)) : State :=
  s.setThread tid (.emitting point outer)

/-- `mConnected.exchange(false)` of a connected slot. -/
def exchange (s : State) (x : Nat) (slot : Slot) : State :=
  { s with shared := { (s.shared.setSlot x { slot with mConnected := false }) with
      disconnected := x :: s.shared.disconnected } }

end State

/-- Where a disconnection made inside `call_slot` returns to. -/
def Point.resume (x : Nat) (rest : List Nat) (wrapped : Bool) : Point :=
  if wrapped then .firing x rest else .visiting rest

namespace State

/-- A thread takes the next step of its innermost emission: `SignalBase::operator()`,
`SlotBase::operator()`, `call_slot` and, inside it, `SlotState::disconnect`. -/
def advance (s : State) (tid : Nat) : Option State :=
  match s.threads tid with
  | .idle => none
  | .emitting (.entered sig) outer =>
    match s.shared.signals sig with
    | none => none
    | some d =>
      if d.mBlock then some (s.setThread tid (.below outer))
      else some (s.goto tid (.unblocked sig) outer)
  | .emitting (.unblocked sig) outer =>
    match s.shared.signals sig with
    | none => none
    | some d => some (s.goto tid (.visiting (allSlots d.mSlots)) outer)
  | .emitting (.visiting []) outer => some (s.setThread tid (.below outer))
  | .emitting (.visiting (x :: rest)) outer =>
    match s.shared.slots x with
    | none => none
    | some slot =>
      if slot.mConnected then some (s.goto tid (.connected x rest) outer)
      else some (s.goto tid (.visiting rest) outer)
  | .emitting (.connected x rest) outer =>
    match s.shared.slots x with
    | none => none
    | some slot =>
      if slot.mBlocked then some (s.goto tid (.visiting rest) outer)
      else some (s.goto tid (.calling x rest) outer)
  | .emitting (.calling x rest) outer =>
    if x ∈ s.once then some (s.goto tid (.disconnecting x rest true) outer)
    else
      match s.shared.slots x with
      | none => none
      | some slot =>
        if slot.expired s.shared.expired then
          some (s.goto tid (.disconnecting x rest false) outer)
        else if slot.tracked then some (s.goto tid (.held x rest) outer)
        else some (s.goto tid (.running x rest) outer)
  | .emitting (.held x rest) outer =>
    match s.shared.slots x with
    | none => none
    | some slot =>
      if slot.mConnected then some (s.goto tid (.running x rest) outer)
      else some (s.goto tid (.visiting rest) outer)
  | .emitting (.disconnecting x rest wrapped) outer =>
    match s.shared.slots x with
    | none => none
    | some slot =>
      if slot.mConnected then
        some ((s.exchange x slot).goto tid (.cleaning x rest wrapped) outer)
      else some (s.goto tid (.resume x rest wrapped) outer)
  | .emitting (.cleaning x rest wrapped) outer =>
    match s.shared.clean x with
    | none => none
    | some shared => some ({ s with shared }.goto tid (.resume x rest wrapped) outer)
  | .emitting (.firing x rest) outer =>
    some ({ s with runs := update s.runs x (s.runs x + 1) }.goto tid (.running x rest) outer)
  | .emitting (.running _ rest) outer => some (s.goto tid (.visiting rest) outer)

/-- A thread starts an emission, a recursive one if it is inside a callable. -/
def emit (s : State) (tid sig : Nat) : Option State :=
  match s.threads tid with
  | .idle => some (s.goto tid (.entered sig) [])
  | .emitting (.running x rest) outer => some (s.goto tid (.entered sig) ((x, rest) :: outer))
  | .emitting _ _ => none

/-- `connect_once`; the slot is one of `connect_extended`, which tracks no object. -/
def connectOnce (s : State) (sig : Nat) (gid : Int) (callable : Callable) : Option State :=
  match s.shared.connect sig gid callable none false with
  | none => none
  | some shared => some { s with shared, once := s.shared.nextSlot :: s.once }

end State

inductive Action where
  | call (action : Signals.Action)
  | connectOnce (sig : Nat) (gid : Int) (callable : Callable)
  | emit (tid sig : Nat)
  | advance (tid : Nat)
deriving DecidableEq, Repr

def State.step (s : State) : Action → Option State
  -- an emission is not taken as one step here
  | .call action =>
    if action.isEmission then none
    else match s.shared.step action with
      | none => none
      | some shared => some { s with shared }
  | .connectOnce sig gid callable => s.connectOnce sig gid callable
  | .emit tid sig => s.emit tid sig
  | .advance tid => s.advance tid

def machine : Transition.Machine State Action where
  init := .init
  step := State.step

/-! ### How far a thread is with a slot -/

/-- `before`: the slot was found connected and its flag is not exchanged yet; `after`: the
flag is exchanged and the callable of `connect_once` not started yet. -/
inductive Stage where
  | away | before | after
deriving DecidableEq, Repr

def Point.stage (x : Nat) : Point → Stage
  | .connected y _ | .calling y _ | .disconnecting y _ true => if y = x then .before else .away
  | .cleaning y _ true | .firing y _ => if y = x then .after else .away
  | _ => .away

def Thread.stage (x : Nat) : Thread → Stage
  | .idle => .away
  | .emitting point _ => point.stage x

def State.stage (s : State) (tid x : Nat) : Stage := (s.threads tid).stage x

/-- The thread comes to a slot whose flag it loads next. -/
def State.Arrives (s : State) (tid x : Nat) : Prop :=
  match s.threads tid with
  | .emitting (.visiting (y :: _)) _ => y = x
  | _ => False

variable {s t : State} {tid x : Nat} {slots slots' : Nat → Option Slot}

theorem Point.stage_resume (y : Nat) (rest : List Nat) (wrapped : Bool) :
    (Point.resume y rest wrapped).stage x = (Point.cleaning y rest wrapped).stage x := by
  cases wrapped <;> rfl

theorem Thread.stage_below (outer : List (Nat × List Nat)) : (below outer).stage x = .away := by
  cases outer <;> rfl

theorem State.stage_setThread_self (thread : Thread) :
    (s.setThread tid thread).stage tid x = thread.stage x :=
  congrArg (Thread.stage x) (update_self ..)

theorem State.stage_setThread_of_ne {tid' : Nat} (hne : tid' ≠ tid) (thread : Thread) :
    (s.setThread tid thread).stage tid' x = s.stage tid' x :=
  congrArg (Thread.stage x) (update_of_ne hne ..)

/-- What one step of a thread may do to its stage at a slot, to the flag of the slot and to
the count of its runs. -/
inductive Passes (arrives : Prop) (flag flag' : Option Bool) :
    Stage → Stage → Nat → Nat → Prop where
  | stays (stage : Stage) (n : Nat) : Passes arrives flag flag' stage stage n n
  | enters (n : Nat) : arrives → flag = some true → Passes arrives flag flag' .away .before n n
  | skips (n : Nat) : Passes arrives flag flag' .before .away n n
  | exchanges (n : Nat) : flag' = some false → Passes arrives flag flag' .before .after n n
  | starts (n : Nat) : Passes arrives flag flag' .after .away n (n + 1)

/-- A flag, once clear, stays clear, and no slot goes away. -/
def Fades (slots slots' : Nat → Option Slot) : Prop :=
  ∀ x, connectedOf slots x ≠ none →
    connectedOf slots' x = connectedOf slots x ∨ connectedOf slots' x = some false

theorem Fades.refl (slots : Nat → Option Slot) : Fades slots slots := fun _ _ => .inl rfl

theorem Fades.ne_none (h : Fades slots slots') (hx : connectedOf slots x ≠ none) :
    connectedOf slots' x ≠ none := by
  rcases h x hx with heq | hfalse
  · rwa [heq]
  · rw [hfalse]
    nofun

theorem Fades.clear (h : Fades slots slots') (hx : connectedOf slots x = some false) :
    connectedOf slots' x = some false := by
  rcases h x (by rw [hx]; nofun) with heq | hfalse
  · exact heq.trans hx
  · exact hfalse

/-- What a step of the thread `tid` does. -/
structure Advance (s t : State) (tid : Nat) : Prop where
  once : t.once = s.once
  others : ∀ tid', tid' ≠ tid → ∀ x, t.stage tid' x = s.stage tid' x
  lists : s.shared.Lists → t.shared.Lists
  fades : Fades s.shared.slots t.shared.slots
  passes : ∀ x, Passes (s.Arrives tid x) (connectedOf s.shared.slots x)
    (connectedOf t.shared.slots x) (s.stage tid x) (t.stage tid x) (s.runs x) (t.runs x)

section Advance

variable {thread thread' : Thread} {y : Nat}

/-- The thread moves on and nothing else changes. -/
theorem Advance.moves (hthread : s.threads tid = thread)
    (hpasses : ∀ x, Passes (s.Arrives tid x) (connectedOf s.shared.slots x)
      (connectedOf s.shared.slots x) (thread.stage x) (thread'.stage x) (s.runs x) (s.runs x)) :
    Advance s (s.setThread tid thread') tid where
  once := rfl
  others _ hne _ := State.stage_setThread_of_ne hne _
  lists := id
  fades := .refl _
  passes x := by
    rw [State.stage_setThread_self, State.stage, hthread]
    exact hpasses x

section Passes

variable {arrives : Prop} {flag flag' : Option Bool} {stage stage' : Stage} {n : Nat}

theorem Passes.of_eq (h : stage' = stage) : Passes arrives flag flag' stage stage' n n := by
  subst h
  exact .stays ..

/-- Away from the slot worked on nothing passes. -/
theorem Passes.at_slot (hself : y = x → Passes arrives flag flag' stage stage' n n) :
    Passes arrives flag flag' (if y = x then stage else .away)
      (if y = x then stage' else .away) n n := by
  by_cases hx : y = x
  · rw [if_pos hx, if_pos hx]
    exact hself hx
  · rw [if_neg hx, if_neg hx]
    exact .stays ..

end Passes

theorem Advance.stays (hthread : s.threads tid = thread)
    (hstage : ∀ x, thread'.stage x = thread.stage x) :
    Advance s (s.setThread tid thread') tid :=
  .moves hthread fun x => .of_eq (hstage x)

/-- The thread is done with a slot it found connected. -/
theorem Advance.skips (hthread : s.threads tid = thread)
    (hbefore : ∀ x, thread.stage x = if y = x then .before else .away)
    (haway : ∀ x, thread'.stage x = .away) : Advance s (s.setThread tid thread') tid := by
  refine .moves hthread fun x => ?_
  rw [hbefore, haway]
  by_cases hx : y = x
  · rw [if_pos hx]
    exact .skips _
  · rw [if_neg hx]
    exact .stays ..

theorem connectedOf_of_some {slots : Nat → Option Slot} {slot : Slot} (h : slots y = some slot) :
    connectedOf slots y = some slot.mConnected := by
  rw [connectedOf, h]
  rfl

theorem exchange_flags (slot : Slot) (x : Nat) : connectedOf (s.exchange y slot).shared.slots x =
      if x = y then some false else connectedOf s.shared.slots x := by
  by_cases hx : x = y
  · subst hx
    rw [if_pos rfl]
    exact connectedOf_of_some (update_self ..)
  · rw [if_neg hx]
    exact congrArg (Option.map Slot.mConnected) (update_of_ne hx ..)

theorem exchange_lists {slot : Slot} (hslot : s.shared.slots y = some slot)
    (h : s.shared.Lists) : (s.exchange y slot).shared.Lists :=
  h.of_same rfl (State.map_setSlot (·.mGroup) hslot rfl) rfl rfl

/-- `clean` moves slots about and takes one from its list. -/
theorem clean_effect {u v : Signals.State} (h : u.clean y = some v) :
    Reindexed u.slots v.slots ∧ (u.Lists → v.Lists) := by
  unfold Signals.State.clean at h
  split at h
  · cases h
  next slot hslot =>
    split at h
    · cases h
    next d hd =>
      cases h
      have hmoved := cleanGroups_reindexed u.slots y slot.mIndex slot.mGroup d.mSlots
      refine ⟨hmoved, fun hlists => hlists.replace hd ?_ rfl hmoved.groupOf rfl rfl⟩
      rintro e ⟨⟩
      exact (hlists.tidy _ d hd).fewer (cleanGroups_shrinks ..)

end Advance

namespace State

theorem stage_of_thread {thread : Thread} (h : s.threads tid = thread) :
    s.stage tid x = thread.stage x :=
  congrArg (Thread.stage x) h

variable {y sig : Nat} {slot : Slot} {rest : List Nat} {wrapped : Bool}
  {outer : List (Nat × List Nat)}

theorem exchange_advance (hthread : s.threads tid = .emitting (.disconnecting y rest wrapped) outer)
    (hslot : s.shared.slots y = some slot) :
    Advance s ((s.exchange y slot).goto tid (.cleaning y rest wrapped) outer) tid := by
  have hflags := exchange_flags (s := s) (y := y) slot
  refine ⟨rfl, fun tid' hne x => stage_setThread_of_ne hne _, exchange_lists hslot, ?_, ?_⟩
  · intro x _
    by_cases hx : x = y
    · exact .inr ((hflags x).trans (if_pos hx))
    · exact .inl ((hflags x).trans (if_neg hx))
  · intro x
    rw [goto, stage_setThread_self, stage_of_thread hthread]
    cases wrapped with
    | false => exact .stays ..
    | true =>
      refine .at_slot fun hx => .exchanges _ ?_
      exact (hflags x).trans (if_pos hx.symm)

/-- The exchange on a slot whose flag is clear already. -/
theorem vain_exchange_advance
    (hthread : s.threads tid = .emitting (.disconnecting y rest wrapped) outer)
    (hslot : s.shared.slots y = some slot) (hclear : slot.mConnected = false) :
    Advance s (s.goto tid (.resume y rest wrapped) outer) tid := by
  refine .moves hthread fun x => ?_
  cases wrapped with
  | false => exact .stays ..
  | true =>
    refine .at_slot fun hx => .exchanges _ ?_
    rw [← hx, connectedOf_of_some hslot, hclear]

theorem clean_advance
    {shared : Signals.State} (hthread : s.threads tid = .emitting (.cleaning y rest wrapped) outer)
    (hclean : s.shared.clean y = some shared) :
    Advance s ({ s with shared }.goto tid (.resume y rest wrapped) outer) tid := by
  obtain ⟨hmoved, hlists⟩ := clean_effect hclean
  refine ⟨rfl, fun tid' hne x => stage_setThread_of_ne hne _, hlists,
    fun x _ => .inl (hmoved.connectedOf x), fun x => ?_⟩
  rw [goto, stage_setThread_self, stage_of_thread hthread]
  exact .of_eq (Point.stage_resume y rest wrapped)

theorem fire_advance (hthread : s.threads tid = .emitting (.firing y rest) outer) :
    Advance s ({ s with runs := update s.runs y (s.runs y + 1) }.goto tid
      (.running y rest) outer) tid := by
  refine ⟨rfl, fun tid' hne x => stage_setThread_of_ne hne _, id, .refl _, fun x => ?_⟩
  rw [goto, stage_setThread_self, stage_of_thread hthread]
  by_cases hx : y = x
  · subst hx
    change Passes _ _ _ (if y = y then .after else .away) .away (s.runs y)
      (update s.runs y (s.runs y + 1) y)
    rw [if_pos rfl, update_self]
    exact .starts _
  · change Passes _ _ _ (if y = x then .after else .away) .away (s.runs x)
      (update s.runs y (s.runs y + 1) x)
    rw [if_neg hx, update_of_ne (Ne.symm hx)]
    exact .stays ..

/-- A slot is entered only with its flag set. -/
theorem enter_advance (hthread : s.threads tid = .emitting (.visiting (y :: rest)) outer)
    (hslot : s.shared.slots y = some slot) (hconnected : slot.mConnected = true) :
    Advance s (s.goto tid (.connected y rest) outer) tid := by
  refine .moves hthread fun x => ?_
  by_cases hx : y = x
  · subst hx
    have hflag : connectedOf s.shared.slots y = some true := by
      rw [connectedOf_of_some hslot, hconnected]
    have harrives : s.Arrives tid y := by
      rw [Arrives, hthread]
    simpa [Thread.stage, Point.stage] using Passes.enters (s.runs y) harrives hflag
  · exact .of_eq (if_neg hx)

theorem advance_effect (h : s.advance tid = some t) : Advance s t tid := by
  unfold advance at h
  split at h
  case h_1 => cases h
  case h_2 sig outer hthread =>
    split at h
    · cases h
    · split at h <;> cases h
      · exact .stays hthread fun x => Thread.stage_below outer
      · exact .stays hthread fun x => rfl
  case h_3 sig outer hthread =>
    split at h <;> cases h
    exact .stays hthread fun x => rfl
  case h_4 outer hthread =>
    cases h
    exact .stays hthread fun x => Thread.stage_below outer
  case h_5 y rest outer hthread =>
    split at h
    · cases h
    next slot hslot =>
      split at h <;> cases h
      next hconnected =>
        exact enter_advance hthread hslot hconnected
      · exact .stays hthread fun x => rfl
  case h_6 y rest outer hthread =>
    split at h
    · cases h
    · split at h <;> cases h
      · exact .skips hthread (fun x => rfl) fun x => rfl
      · exact .stays hthread fun x => rfl
  case h_7 y rest outer hthread =>
    split at h
    · cases h
      exact .stays hthread fun x => rfl
    · split at h
      · cases h
      · split at h
        · cases h
          exact .skips hthread (fun x => rfl) fun x => rfl
        · split at h <;> cases h
          · exact .skips hthread (fun x => rfl) fun x => rfl
          · exact .skips hthread (fun x => rfl) fun x => rfl
  case h_8 y rest outer hthread =>
    split at h
    · cases h
    · split at h <;> cases h
      · exact .stays hthread fun x => rfl
      · exact .stays hthread fun x => rfl
  case h_9 y rest wrapped outer hthread =>
    split at h
    · cases h
    next slot hslot =>
      split at h <;> cases h
      · exact exchange_advance hthread hslot
      next hclear =>
        exact vain_exchange_advance hthread hslot (eq_false_of_ne_true hclear)
  case h_10 y rest wrapped outer hthread =>
    split at h
    · cases h
    next shared hclean =>
      cases h
      exact clean_advance hthread hclean
  case h_11 y rest outer hthread =>
    cases h
    exact fire_advance hthread
  case h_12 y rest outer hthread =>
    cases h
    exact .stays hthread fun x => rfl

/-! ### At most once -/

/-- The callable of every `connect_once` has run at most once. -/
def RunsOnce (s : State) : Prop := ∀ x ∈ s.once, s.runs x ≤ 1

/-- Where the threads are at a slot made by `connect_once`, with its flag and how often its callable
was started: one thread at most has checked the slot, the flag is clear from its exchange on, and
the callable is started by the thread that leaves the slot for good. -/
inductive Phase : (Nat → Stage) → Option Bool → Nat → Prop where
  | waiting (flag : Option Bool) : Phase (fun _ => .away) flag 0
  | checked (tid : Nat) (flag : Option Bool) : Phase (update (fun _ => .away) tid .before) flag 0
  | exchanged (tid : Nat) : Phase (update (fun _ => .away) tid .after) (some false) 0
  | ran : Phase (fun _ => .away) (some false) 1

structure Sound (s : State) : Prop where
  lists : s.shared.Lists
  fresh : ∀ x, connectedOf s.shared.slots x = none →
    (∀ tid, s.stage tid x = .away) ∧ s.runs x = 0
  phases : ∀ x ∈ s.once, Phase (s.stage · x) (connectedOf s.shared.slots x) (s.runs x)

/-- A slot made by `connect_once` is checked only while no other thread is between its own
check of that slot and its exchange of the flag. -/
def Undisturbed (s : State) : Action → Prop
  | .advance tid => ∀ x ∈ s.once, s.Arrives tid x → ∀ tid', tid' ≠ tid → s.stage tid' x ≠ .before
  | _ => True

namespace Phase

variable {stages : Nat → Stage} {stage : Stage} {flag flag' : Option Bool} {n n' : Nat}
  {arrives : Prop}

theorem fade (h : Phase stages flag n) (hclear : flag = some false → flag' = some false) :
    Phase stages flag' n := by
  cases h with
  | waiting => exact .waiting flag'
  | checked tid => exact .checked tid flag'
  | exchanged tid =>
    rw [hclear rfl]
    exact .exchanged tid
  | ran =>
    rw [hclear rfl]
    exact .ran

/-- A thread that is at the slot is the only one there. -/
theorem alone (h : Phase stages flag n) (hat : stages tid = stage) (hne : stage ≠ .away) :
    stages = update (fun _ => .away) tid stage ∧ n = 0 ∧ (stage = .after → flag = some false) := by
  cases h with
  | waiting => exact absurd hat.symm hne
  | ran => exact absurd hat.symm hne
  | checked tid' =>
    rcases eq_or_ne tid tid' with rfl | hother
    · rw [update_self] at hat
      exact ⟨by rw [hat], rfl, fun hafter => nomatch hat.trans hafter⟩
    · rw [update_of_ne hother] at hat
      exact absurd hat.symm hne
  | exchanged tid' =>
    rcases eq_or_ne tid tid' with rfl | hother
    · rw [update_self] at hat
      exact ⟨by rw [hat], rfl, fun _ => rfl⟩
    · rw [update_of_ne hother] at hat
      exact absurd hat.symm hne

theorem pass (h : Phase stages flag n) (hpasses : Passes arrives flag flag' (stages tid) stage n n')
    (hundisturbed : arrives → ∀ tid', tid' ≠ tid → stages tid' ≠ .before)
    (hclear : flag = some false → flag' = some false) :
    Phase (update stages tid stage) flag' n' := by
  generalize hat : stages tid = current at hpasses
  cases hpasses with
  | stays =>
    rw [← hat, update_eq_self]
    exact h.fade hclear
  | enters _ harrives hflag =>
    cases h with
    | waiting => exact .checked tid flag'
    | checked tid' =>
      have hne : tid' ≠ tid := by
        rintro rfl
        rw [update_self] at hat
        cases hat
      exact absurd (update_self ..) (hundisturbed harrives tid' hne)
    | exchanged => cases hflag
    | ran => cases hflag
  | skips =>
    obtain ⟨rfl, rfl, -⟩ := h.alone hat nofun
    rw [update_idem, update_eq_self]
    exact .waiting flag'
  | exchanges _ hflag =>
    obtain ⟨rfl, rfl, -⟩ := h.alone hat nofun
    rw [update_idem, hflag]
    exact .exchanged tid
  | starts =>
    obtain ⟨rfl, rfl, hspent⟩ := h.alone hat nofun
    rw [update_idem, update_eq_self, hclear (hspent rfl)]
    exact .ran

theorem runs_le (h : Phase stages flag n) : n ≤ 1 := by
  cases h with
  | ran => exact Nat.le_refl 1
  | _ => exact Nat.zero_le 1

end Phase

section

variable (h : s.Sound)

include h

theorem Sound.runsOnce : s.RunsOnce := fun x hx => (h.phases x hx).runs_le

theorem Sound.advance (hadvance : Advance s t tid) (hundisturbed : s.Undisturbed (.advance tid)) :
    t.Sound := by
  have hstages : ∀ x, (t.stage · x) = update (s.stage · x) tid (t.stage tid x) := by
    intro x
    funext tid'
    rcases eq_or_ne tid' tid with rfl | hne
    · rw [update_self]
    · rw [update_of_ne hne, hadvance.others tid' hne]
  refine ⟨hadvance.lists h.lists, fun x hnone => ?_, fun x hx => ?_⟩
  · have hbefore : connectedOf s.shared.slots x = none := by
      by_contra hne
      exact hadvance.fades.ne_none hne hnone
    obtain ⟨haway, hruns⟩ := h.fresh x hbefore
    have hpasses := hadvance.passes x
    rw [haway, hruns, hbefore] at hpasses
    have hstage := hstages x
    generalize t.stage tid x = stage, t.runs x = n at hpasses hstage ⊢
    cases hpasses with
    | stays =>
      rw [← haway tid, update_eq_self] at hstage
      exact ⟨fun tid' => (congrFun hstage tid').trans (haway tid'), rfl⟩
    | enters _ _ hflag => cases hflag
  · rw [hadvance.once] at hx
    rw [hstages]
    exact (h.phases x hx).pass (hadvance.passes x) (hundisturbed x hx) hadvance.fades.clear

/-- A step that moves no thread along a slot and starts no callable. -/
theorem Sound.quiet (hstage : ∀ tid x, t.stage tid x = s.stage tid x) (hruns : t.runs = s.runs)
    (honce : ∀ x ∈ t.once, x ∈ s.once ∨ connectedOf s.shared.slots x = none)
    (hlists : t.shared.Lists) (hfades : Fades s.shared.slots t.shared.slots) : t.Sound := by
  refine ⟨hlists, fun x hnone => ?_, fun x hx => ?_⟩
  · simp only [hstage, hruns]
    refine h.fresh x ?_
    by_contra hne
    exact hfades.ne_none hne hnone
  · simp only [hstage, hruns]
    rcases honce x hx with hold | hnew
    · exact (h.phases x hold).fade hfades.clear
    · obtain ⟨haway, hzero⟩ := h.fresh x hnew
      rw [hzero, funext haway]
      exact .waiting _

end

/-! ### The other steps -/

section Calls

variable {u v : Signals.State} {gid : Int}

theorem connectedOf_fresh (hlists : u.Lists) : connectedOf u.slots u.nextSlot = none := by
  have hgroup := hlists.fresh u.nextSlot (Nat.le_refl _)
  rw [groupOf, Option.map_eq_none_iff] at hgroup
  rw [connectedOf, hgroup]
  rfl

theorem connects_fades {d : Signal} {slot : Slot} (hlists : u.Lists)
    (hc : Signals.State.Connects u v sig gid d slot) : Fades u.slots v.slots := by
  intro x hx
  refine .inl (hc.connectedOf_of_ne ?_)
  rintro rfl
  exact hx (connectedOf_fresh hlists)

theorem call_effect {action : Signals.Action} (hcall : action.isEmission = false)
    (hlists : u.Lists) (h : u.step action = some v) : v.Lists ∧ Fades u.slots v.slots := by
  rcases Signals.State.call_cases hcall hlists h with ⟨hafter, hchange⟩ | ⟨sig, gid, d, slot, hc⟩
  · exact ⟨hafter, fun x _ => (hchange.flags x).imp_right And.left⟩
  · exact ⟨hc.lists hlists, connects_fades hlists hc⟩

end Calls

theorem Sound.call {action : Signals.Action} (h : s.Sound)
    (hstep : s.step (.call action) = some t) : t.Sound := by
  simp only [step] at hstep
  split at hstep
  · cases hstep
  next hcall =>
    split at hstep
    · cases hstep
    next shared hshared =>
      cases hstep
      obtain ⟨hlists, hfades⟩ := call_effect (eq_false_of_ne_true hcall) h.lists hshared
      exact h.quiet (fun _ _ => rfl) rfl (fun x hx => .inl hx) hlists hfades

theorem Sound.connectOnce {gid : Int} {callable : Callable} (h : s.Sound)
    (hstep : s.connectOnce sig gid callable = some t) : t.Sound := by
  unfold State.connectOnce at hstep
  split at hstep
  · cases hstep
  next shared hshared =>
    cases hstep
    obtain ⟨d, slot, hc⟩ := Signals.State.connect_connects hshared
    refine h.quiet (fun _ _ => rfl) rfl ?_ (hc.lists h.lists) (connects_fades h.lists hc)
    exact List.forall_mem_cons.mpr ⟨.inr (connectedOf_fresh h.lists), fun _ => .inl⟩

/-- A thread that starts an emission is at no slot before or after. -/
theorem emit_effect (h : s.emit tid sig = some t) :
    ∃ thread, t = s.setThread tid thread ∧ ∀ tid' x, t.stage tid' x = s.stage tid' x := by
  have hmove : ∀ {thread thread'}, s.threads tid = thread → (∀ x, thread.stage x = .away) →
      (∀ x, thread'.stage x = .away) →
      ∀ tid' x, (s.setThread tid thread').stage tid' x = s.stage tid' x := by
    intro thread thread' hthread haway haway' tid' x
    by_cases heq : tid' = tid
    · rw [heq, stage_setThread_self, stage_of_thread hthread, haway, haway']
    · exact stage_setThread_of_ne heq _
  unfold State.emit at h
  split at h
  next hthread =>
    cases h
    exact ⟨_, rfl, hmove hthread (fun _ => rfl) fun _ => rfl⟩
  next hthread =>
    cases h
    exact ⟨_, rfl, hmove hthread (fun _ => rfl) fun _ => rfl⟩
  · cases h

theorem Sound.emit (h : s.Sound) (hstep : s.emit tid sig = some t) : t.Sound := by
  obtain ⟨thread, rfl, hstage⟩ := emit_effect hstep
  exact h.quiet hstage rfl (fun x hx => .inl hx) h.lists (.refl _)

theorem Sound.step {a : Action} (h : s.Sound) (hundisturbed : s.Undisturbed a)
    (hstep : s.step a = some t) : t.Sound := by
  cases a with
  | call action => exact h.call hstep
  | connectOnce sig gid callable => exact h.connectOnce hstep
  | emit tid sig => exact h.emit hstep
  | advance tid => exact h.advance (advance_effect hstep) hundisturbed

theorem sound_init : State.init.Sound where
  lists := Signals.State.tracked_init.lists
  fresh _ _ := ⟨fun _ => rfl, rfl⟩
  phases := nofun

end State

open Transition

/-- **At most once**, in every run in which no thread checks a slot of `connect_once` while
another one is between its check and its exchange. -/
theorem connect_once_runs_once (run : List Action)
    (h : machine.Meets State.Undisturbed State.init run) :
    machine.Always State.RunsOnce State.init run := by
  have hsound : machine.Always State.Sound State.init run := by
    refine Machine.always_of_meets ?_ State.sound_init h
    exact fun s a t hsound hundisturbed hstep => hsound.step hundisturbed hstep
  exact hsound.mono fun s h => h.runsOnce

/-! ### One emitting thread -/

/-- The thread that takes the step, if it is one of an emission. -/
def Action.thread : Action → Option Nat
  | .emit tid _ | .advance tid => some tid
  | _ => none

theorem State.step_stage {a : Action} {tid' : Nat} (h : s.step a = some t)
    (hne : a.thread ≠ some tid') : t.stage tid' x = s.stage tid' x := by
  cases a with
  | call action =>
    simp only [step] at h
    split at h
    · cases h
    · split at h <;> cases h
      rfl
  | connectOnce sig gid callable =>
    simp only [step, connectOnce] at h
    split at h <;> cases h
    rfl
  | emit tid sig =>
    obtain ⟨-, -, hstage⟩ := emit_effect h
    exact hstage tid' x
  | advance tid =>
    exact (advance_effect h).others tid' (fun heq => hne (congrArg some heq.symm)) x

/-- **Recursion is no disturbance**: if only one thread emits, however deep its emissions
are nested, every step is undisturbed. -/
theorem undisturbed_of_one_thread (tid : Nat) {run : List Action}
    (h : ∀ a ∈ run, ∀ tid', tid' ≠ tid → a.thread ≠ some tid')
    (haway : ∀ tid', tid' ≠ tid → ∀ x, s.stage tid' x = .away) :
    machine.Meets State.Undisturbed s run := by
  induction run generalizing s with
  | nil => trivial
  | cons a run ih =>
    intro t hstep
    have hmine := h a List.mem_cons_self
    refine ⟨?_, ih (fun b hb => h b (List.mem_cons_of_mem a hb)) ?_⟩
    · cases a with
      | advance tid' =>
        have heq : tid' = tid := by
          by_contra hne
          exact hmine tid' hne rfl
        intro x _ _ tid'' hne
        rw [haway tid'' (heq ▸ hne)]
        nofun
      | _ => trivial
    · intro tid' hne x
      rw [State.step_stage hstep (hmine tid' hne)]
      exact haway tid' hne x

/-- The callable, when it runs, emits the signal again. -/
def recursiveRun : List Action :=
  [.call .newSignal, .connectOnce 0 0 someFunction, .emit 0 0, .advance 0, .advance 0, .advance 0,
    .advance 0, .advance 0, .advance 0, .advance 0, .advance 0, .emit 0 0, .advance 0, .advance 0]

theorem connect_once_recursive :
    (machine.run State.init recursiveRun).map (fun s => s.runs 0) = some 1 ∧
      machine.Always State.RunsOnce State.init recursiveRun := by
  refine ⟨rfl, connect_once_runs_once recursiveRun ?_⟩
  refine undisturbed_of_one_thread 0 ?_ fun _ _ _ => rfl
  intro a ha tid' hne hthread
  have hzero : ∀ a ∈ recursiveRun, a.thread = none ∨ a.thread = some 0 := by decide
  rcases hzero a ha with hnone | hsome
  · rw [hnone] at hthread
    cases hthread
  · exact hne (Option.some.inj (hthread.symm.trans hsome))

/-- Two threads emit; both find the slot connected before either exchanges its flag. -/
def racingRun : List Action :=
  [.call .newSignal, .connectOnce 0 0 someFunction, .emit 0 0, .emit 1 0,
    .advance 0, .advance 0, .advance 0, .advance 1, .advance 1, .advance 1,
    .advance 0, .advance 0, .advance 0, .advance 0, .advance 0,
    .advance 1, .advance 1, .advance 1, .advance 1]

/-- The callable runs in both threads: the result of `self.disconnect()` is not looked at. -/
theorem connect_once_runs_twice :
    ∃ s, machine.run State.init racingRun = some s ∧ ¬ s.RunsOnce := by
  refine ⟨_, rfl, fun h => ?_⟩
  exact absurd (h 0 List.mem_cons_self) (by decide)

end CxxKit.Signals.Concurrent
