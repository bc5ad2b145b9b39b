import CxxKit.Kernel.PostedOrder

/-!
A queued connection with a receiver (`connect_queued`, receiver form).

The slot runs on the emitting thread: if the loop's token is alive, it posts a closure with
copies of the arguments.  The closure runs as a posted task: it reads the receiver's token and,
if that is alive, calls the function.  The loop is the one of `CxxKit.PostedTasks`, and all the
other things done with it are steps of their own.  The reading of the receiver's token and the
call of the function are two steps, so another thread may destroy the receiver in between.

Emissions are numbered in the order in which they reach the slot.  What each emission and each
call of the function saw is recorded; the source stores none of this.
-/

namespace CxxKit.ConnectQueued

open List Option PostedTasks

/-- The bound closure: which task it is, and the emission it was made for. -/
structure Closure (α : Type) where
  task : Nat
  emission : Nat
  args : α
deriving DecidableEq, Repr

/-- A call of the slot, with the token it found and the task it posted. -/
structure Emission (α : Type) where
  args : α
  loopAlive : Bool
  posted : Option Nat
deriving DecidableEq, Repr

/-- A closure, run by a call of the loop, that has found the receiver's token alive. -/
structure Checked (α : Type) where
  round : Nat
  closure : Closure α
deriving DecidableEq, Repr

/-- A call of the function. -/
structure Invocation (α : Type) where
  closure : Closure α
  receiverAlive : Bool
deriving DecidableEq, Repr

/-- How far the destructor of the receiver has got: the token is cleared first, then the
connections are disconnected, and the token expires with the private part. -/
inductive Receiver where
  | alive | cleared | disconnected | freed
deriving DecidableEq, Repr

structure State (α : Type) where
  loop : PostedTasks.State
  receiver : Receiver
  connected : Bool
  reached : List α
  emissions : List (Emission α)
  closures : List (Closure α)
  checked : List (Checked α)
  invoked : List (Invocation α)

inductive Action (α : Type) where
  | loop (action : PostedTasks.Action)
  | emit (args : α)
  | slot (i : Nat)
  | invoke (i : Nat)
  | disconnect
  | destruct
deriving DecidableEq, Repr

/-- `token_alive` of the receiver's token: it is cleared, or it has expired. -/
def Receiver.tokenAlive (receiver : Receiver) : Bool := receiver = .alive

namespace State

variable {α : Type}

def init : State α := ⟨.init, .alive, true, [], [], [], [], []⟩

variable (s : State α)

/-- `token_alive` of the loop's token, which expires with the private part of the loop. -/
def loopTokenAlive : Bool := s.loop.life ≠ .dead

/-- The signal calls the slot of a connection that it finds connected. -/
def emit (args : α) : State α :=
  if s.connected then { s with reached := s.reached ++ [args] } else s

/-- The slot. -/
def slot (i : Nat) : Option (State α) :=
  match s.reached[i]? with
  | none => none
  | some args =>
    if s.loopTokenAlive then
      some { s with
        reached := s.reached.eraseIdx i
        loop := s.loop.post
        emissions := s.emissions ++ [⟨args, s.loopTokenAlive, some s.loop.posted⟩]
        closures := s.closures ++ [⟨s.loop.posted, s.emissions.length, args⟩] }
    else
      some { s with
        reached := s.reached.eraseIdx i
        emissions := s.emissions ++ [⟨args, s.loopTokenAlive, none⟩] }

/-- The closure that a step of the loop starts. -/
def starts : PostedTasks.Action → Option (Checked α)
  | .advance r =>
    match s.loop.upcoming r with
    | none => none
    | some t => (s.closures.find? (·.task = t)).map (⟨r, ·⟩)
  | _ => none

/-- The step is one of a thread that is about to call the function. -/
def busy : PostedTasks.Action → Bool
  | .advance r => s.checked.any (·.round = r)
  | .processEvents thread | .destroy thread =>
    s.checked.any fun c => (s.loop.rounds[c.round]?).any (·.thread = thread)
  | _ => false

/-- A step of the loop; a closure that it starts reads the receiver's token. -/
def runLoop (a : PostedTasks.Action) : Option (State α) :=
  if s.busy a then none
  else match s.loop.step a with
    | none => none
    | some loop =>
      match s.starts a with
      | none => some { s with loop }
      | some c =>
        if s.receiver.tokenAlive then some { s with loop, checked := s.checked ++ [c] }
        else some { s with loop }

def invoke (i : Nat) : Option (State α) :=
  match s.checked[i]? with
  | none => none
  | some c => some { s with
      checked := s.checked.eraseIdx i
      invoked := s.invoked ++ [⟨c.closure, s.receiver.tokenAlive⟩] }

/-- The next step of the destructor of the receiver. -/
def destruct : Option (State α) :=
  match s.receiver with
  | .alive => some { s with receiver := .cleared }
  | .cleared => some { s with receiver := .disconnected, connected := false }
  | .disconnected => some { s with receiver := .freed }
  | .freed => none

def step : Action α → Option (State α)
  | .loop a => s.runLoop a
  | .emit args => some (s.emit args)
  | .slot i => s.slot i
  | .invoke i => s.invoke i
  | .disconnect => some { s with connected := false }
  | .destruct => s.destruct

end State

open State

/-- A connection that was just made, its loop and its receiver. -/
def machine (α : Type) : Transition.Machine (State α) (Action α) where
  init := .init
  step := step

variable {α : Type}

/-- The function is called in the order of the emissions, so at most once for each, with the
arguments of the emission and only while the receiver's token is alive; an emission that finds
the loop dead posts nothing. -/
structure State.Proper (s : State α) : Prop where
  inOrder : (s.invoked.map (·.closure.emission)).Pairwise (· < ·)
  copied : ∀ c ∈ s.invoked, ∃ e, s.emissions[c.closure.emission]? = some e ∧
    e.args = c.closure.args ∧ e.posted = some c.closure.task
  alive : ∀ c ∈ s.invoked, c.receiverAlive = true
  posted : ∀ e ∈ s.emissions, e.loopAlive = false → e.posted = none

def State.isClosure (s : State α) (t : Nat) : Prop := ∃ c ∈ s.closures, c.task = t

/-- When a closure is started, none is between its check and its call, and no other call of
the loop holds an earlier closure; the token is not cleared between a check and a call. -/
def Steady (s : State α) : Action α → Prop
  | .loop (.advance r) => ∀ t, s.loop.upcoming r = some t → s.isClosure t →
      s.checked = [] ∧ ∀ (i : Nat) (round : PostedTasks.Round), s.loop.rounds[i]? = some round →
        i ≠ r → ∀ u ∈ round.tasks, s.isClosure u → t < u
  | .destruct => s.receiver = .alive → s.checked = []
  | _ => True

/-! ### What a step does -/

section Steps

variable {s s' : State α} {a : PostedTasks.Action} {c : Checked α} {i : Nat}

theorem starts_eq_some (h : s.starts a = some c) :
    ∃ r, a = .advance r ∧ s.loop.upcoming r = some c.closure.task ∧ c.closure ∈ s.closures := by
  unfold starts at h
  split at h
  next r =>
    split at h
    · cases h
    next t hnext =>
      obtain ⟨closure, hfind, rfl⟩ := map_eq_some_iff.mp h
      have htask : closure.task = t := by simpa using find?_some hfind
      exact ⟨r, rfl, htask ▸ hnext, mem_of_find?_eq_some hfind⟩
  · cases h

theorem runLoop_eq_some (h : s.runLoop a = some s') :
    ∃ loop, s.loop.step a = some loop ∧ (s' = { s with loop } ∨
      ∃ c, s.starts a = some c ∧ s.receiver.tokenAlive = true ∧
        s' = { s with loop, checked := s.checked ++ [c] }) := by
  unfold runLoop at h
  split at h
  · cases h
  · split at h
    · cases h
    next loop hloop =>
      refine ⟨loop, hloop, ?_⟩
      split at h
      · cases h
        exact .inl rfl
      next c hstarts =>
        split at h
        next htoken =>
          cases h
          exact .inr ⟨c, hstarts, htoken, rfl⟩
        · cases h
          exact .inl rfl

theorem slot_eq_some (h : s.slot i = some s') : ∃ args, s.reached[i]? = some args ∧
      (s.loopTokenAlive = true ∧ s' = { s with
          reached := s.reached.eraseIdx i
          loop := s.loop.post
          emissions := s.emissions ++ [⟨args, s.loopTokenAlive, some s.loop.posted⟩]
          closures := s.closures ++ [⟨s.loop.posted, s.emissions.length, args⟩] } ∨
        s.loopTokenAlive = false ∧ s' = { s with
          reached := s.reached.eraseIdx i
          emissions := s.emissions ++ [⟨args, s.loopTokenAlive, none⟩] }) := by
  unfold slot at h
  split at h
  · cases h
  next args hargs =>
    refine ⟨args, hargs, ?_⟩
    split at h
    next halive =>
      cases h
      exact .inl ⟨halive, rfl⟩
    next hdead =>
      cases h
      exact .inr ⟨eq_false_of_ne_true hdead, rfl⟩

end Steps

/-! ### Emissions, closures and calls -/

/-- The closures that have called the function or are about to. -/
def State.ran (s : State α) : List (Closure α) :=
  s.invoked.map (·.closure) ++ s.checked.map (·.closure)

/-- Every closure belongs to the emission it was made for, whatever the run. -/
structure State.Sound (s : State α) : Prop where
  loop : s.loop.Sound
  sorted : s.closures.Pairwise fun a b => a.task < b.task ∧ a.emission < b.emission
  bounded : ∀ c ∈ s.closures, c.task < s.loop.posted
  copied : ∀ c ∈ s.closures, ∃ e, s.emissions[c.emission]? = some e ∧ e.args = c.args ∧
    e.posted = some c.task
  made : ∀ c ∈ s.ran, c ∈ s.closures
  posted : ∀ e ∈ s.emissions, e.loopAlive = false → e.posted = none

/-- In a steady run the closures run in the order of their tasks, one at a time. -/
structure State.Ordered (s : State α) : Prop where
  sorted : (s.ran.map (·.task)).Pairwise (· < ·)
  ahead : ∀ c ∈ s.closures, c.task ∉ s.loop.started → ∀ d ∈ s.ran, d.task < c.task
  single : s.checked.length ≤ 1
  token : s.checked ≠ [] → s.receiver.tokenAlive = true
  alive : ∀ c ∈ s.invoked, c.receiverAlive = true

section Invariants

variable {s s' : State α} {a : PostedTasks.Action} {i : Nat}

theorem State.Sound.emission_lt (h : s.Sound) {c d : Closure α} (hc : c ∈ s.closures)
    (hd : d ∈ s.closures) (hlt : c.task < d.task) : c.emission < d.emission := by
  obtain ⟨i, hi, rfl⟩ := mem_iff_getElem.mp hc
  obtain ⟨j, hj, rfl⟩ := mem_iff_getElem.mp hd
  have hsorted := pairwise_iff_getElem.mp h.sorted
  rcases Nat.lt_trichotomy i j with hij | rfl | hij
  · exact (hsorted i j hi hj hij).2
  · exact absurd hlt (Nat.lt_irrefl _)
  · exact absurd hlt (Nat.lt_asymm (hsorted j i hj hi hij).1)

theorem State.Sound.proper (h : s.Sound) (hordered : s.Ordered) : s.Proper where
  inOrder := by
    have hinvoked : (s.invoked.map (·.closure)).Pairwise fun a b => a.task < b.task :=
      (pairwise_append.mp (pairwise_map.mp hordered.sorted)).1
    rw [← Function.comp_def, ← List.map_map]
    refine pairwise_map.mpr (hinvoked.imp_of_mem fun ha hb hlt => ?_)
    exact h.emission_lt (h.made _ (mem_append_left _ ha))
      (h.made _ (mem_append_left _ hb)) hlt
  copied := by
    intro c hc
    exact h.copied c.closure
      (h.made _ (mem_append_left _ (mem_map_of_mem hc)))
  alive := hordered.alive
  posted := h.posted

/-- An emission is recorded behind the others, so the numbers of those stand. -/
theorem State.Sound.record (h : s.Sound) {e : Emission α}
    (hposted : e.loopAlive = false → e.posted = none) :
    State.Sound { s with emissions := s.emissions ++ [e] } where
  loop := h.loop
  sorted := h.sorted
  bounded := h.bounded
  copied c hc := by
    obtain ⟨e, he, hcopied⟩ := h.copied c hc
    exact ⟨e, (getElem?_append_left (List.getElem?_eq_some_iff.mp he).1).trans he, hcopied⟩
  made := h.made
  posted := forall_mem_append.mpr ⟨h.posted, forall_mem_singleton.mpr hposted⟩

theorem State.Sound.slot (h : s.Sound) (hslot : s.slot i = some s') : s'.Sound := by
  obtain ⟨args, -, ⟨halive, rfl⟩ | ⟨hdead, rfl⟩⟩ := slot_eq_some hslot
  · have hnext := h.record (e := ⟨args, s.loopTokenAlive, some s.loop.posted⟩)
      fun hdead => nomatch halive.symm.trans hdead
    refine ⟨h.loop.post, ?_, ?_, ?_, fun c hc => mem_append_left _ (h.made c hc), hnext.posted⟩
    · refine pairwise_append.mpr ⟨h.sorted, pairwise_singleton _ _, fun c hc => ?_⟩
      obtain ⟨e, he, -⟩ := h.copied c hc
      exact forall_mem_singleton.mpr
        ⟨h.bounded c hc, (List.getElem?_eq_some_iff.mp he).1⟩
    · exact forall_mem_append.mpr ⟨fun c hc => Nat.lt_succ_of_lt (h.bounded c hc),
        forall_mem_singleton.mpr (Nat.lt_succ_self _)⟩
    · exact forall_mem_append.mpr ⟨hnext.copied,
        forall_mem_singleton.mpr ⟨_, getElem?_concat_length, rfl, rfl⟩⟩
  · exact { h.record fun _ => rfl with }

theorem State.Sound.runLoop (h : s.Sound) (hrun : s.runLoop a = some s') : s'.Sound := by
  obtain ⟨loop, hloop, hcases⟩ := runLoop_eq_some hrun
  have hsound := h.loop.effect (step_effect hloop)
  have hbounded : ∀ c ∈ s.closures, c.task < loop.posted := fun c hc =>
    Nat.lt_of_lt_of_le (h.bounded c hc) (step_started hloop).1
  rcases hcases with rfl | ⟨c, hstarts, -, rfl⟩
  · exact { h with loop := hsound, bounded := hbounded }
  · obtain ⟨r, -, -, hmem⟩ := starts_eq_some hstarts
    refine { h with loop := hsound, bounded := hbounded, made := ?_ }
    rw [ran, map_append, ← append_assoc]
    exact forall_mem_append.mpr ⟨h.made, forall_mem_singleton.mpr hmem⟩

theorem State.Ordered.runLoop (hsound : s.Sound) (h : s.Ordered)
    (hsteady : Steady s (.loop a)) (hrun : s.runLoop a = some s') : s'.Ordered := by
  obtain ⟨loop, hloop, hcases⟩ := runLoop_eq_some hrun
  have hahead : ∀ c ∈ s.closures, c.task ∉ loop.started → ∀ d ∈ s.ran, d.task < c.task :=
    fun c hc hnot => h.ahead c hc fun ht => hnot (step_started_subset hloop ht)
  rcases hcases with rfl | ⟨c, hstarts, htoken, rfl⟩
  · exact { h with ahead := hahead }
  · obtain ⟨r, rfl, hnext, hmem⟩ := starts_eq_some hstarts
    obtain ⟨hunstarted, -, hlater⟩ := hsound.loop.upcoming hnext
    obtain ⟨hnone, hothers⟩ := hsteady _ hnext ⟨c.closure, hmem, rfl⟩
    have hran : ran { s with loop, checked := s.checked ++ [c] } = s.ran ++ [c.closure] := by
      rw [ran, map_append, ← append_assoc]
      rfl
    refine ⟨?_, ?_, ?_, fun _ => htoken, h.alive⟩
    · rw [hran, map_append]
      refine pairwise_append.mpr ⟨h.sorted, pairwise_singleton _ _, ?_⟩
      intro t ht u hu
      obtain ⟨d, hd, rfl⟩ := mem_map.mp ht
      rw [mem_singleton.mp hu]
      exact h.ahead c.closure hmem hunstarted d hd
    · intro d hd hnot e he
      rw [hran] at he
      rcases mem_append.mp he with he | he
      · exact hahead d hd hnot e he
      -- a closure that is not started yet, and is not this one, is a later one
      rw [mem_singleton.mp he]
      rw [step_upcoming hloop hnext, mem_append, not_or] at hnot
      have hne : d.task ≠ c.closure.task := fun heq => hnot.2 (mem_singleton.mpr heq)
      rcases hlater d.task (hsound.bounded d hd) hnot.1 hne with hlt | ⟨i, round, hi, hir, hu⟩
      · exact hlt
      · exact hothers i round hi hir d.task hu ⟨d, hd, rfl⟩
    · rw [hnone]
      exact Nat.le_refl _

theorem State.Ordered.slot (hsound : s.Sound) (h : s.Ordered) (hslot : s.slot i = some s') :
    s'.Ordered := by
  obtain ⟨args, -, ⟨-, rfl⟩ | ⟨-, rfl⟩⟩ := slot_eq_some hslot
  · refine { h with ahead := forall_mem_append.mpr ⟨h.ahead, forall_mem_singleton.mpr ?_⟩ }
    exact fun _ d hd => hsound.bounded d (hsound.made d hd)
  · exact { h with }

/-- The one closure that is past its check calls the function. -/
theorem invoke_eq_some (hsingle : s.checked.length ≤ 1) (h : s.invoke i = some s') :
    ∃ c, s.checked = [c] ∧ s' = { s with
      checked := [], invoked := s.invoked ++ [⟨c.closure, s.receiver.tokenAlive⟩] } := by
  unfold State.invoke at h
  split at h
  · cases h
  next c hc =>
    cases h
    obtain ⟨hi, hget⟩ := List.getElem?_eq_some_iff.mp hc
    obtain rfl : i = 0 := by omega
    obtain ⟨d, hd⟩ := length_eq_one_iff.mp (Nat.le_antisymm hsingle hi)
    rw [hd] at hc
    cases hc
    refine ⟨c, hd, ?_⟩
    rw [hd]
    rfl

theorem State.Sound.invoke (h : s.Sound) (hinvoke : s.invoke i = some s') : s'.Sound := by
  unfold State.invoke at hinvoke
  split at hinvoke
  · cases hinvoke
  next c hc =>
    cases hinvoke
    refine ⟨h.loop, h.sorted, h.bounded, h.copied, fun d hd => h.made d ?_, h.posted⟩
    unfold ran at hd ⊢
    rw [map_append, append_assoc] at hd
    rcases mem_append.mp hd with hd | hd
    · exact mem_append_left _ hd
    refine mem_append_right _ ?_
    rcases mem_cons.mp hd with rfl | hd
    · exact mem_map_of_mem (mem_of_getElem? hc)
    · exact ((eraseIdx_sublist _ _).map _).subset hd

theorem State.Ordered.invoke (h : s.Ordered) (hinvoke : s.invoke i = some s') : s'.Ordered := by
  obtain ⟨c, hc, rfl⟩ := invoke_eq_some h.single hinvoke
  have hran : ran { s with
      checked := [], invoked := s.invoked ++ [⟨c.closure, s.receiver.tokenAlive⟩] } = s.ran := by
    rw [ran, ran, hc, map_append, map_nil, append_nil]
    rfl
  refine ⟨?_, ?_, Nat.zero_le 1, absurd rfl, ?_⟩
  · rw [hran]
    exact h.sorted
  · intro d hd hnot e he
    rw [hran] at he
    exact h.ahead d hd hnot e he
  · exact forall_mem_append.mpr
      ⟨h.alive, forall_mem_singleton.mpr (h.token (by rw [hc]; exact cons_ne_nil _ _))⟩

theorem State.Ordered.destruct (h : s.Ordered) (hsteady : Steady s .destruct)
    (hdestruct : s.destruct = some s') : s'.Ordered := by
  have hnone : s.checked = [] := by
    by_contra hne
    exact hne (hsteady (of_decide_eq_true (h.token hne)))
  unfold State.destruct at hdestruct
  split at hdestruct <;> cases hdestruct <;> exact { h with token := absurd hnone }

theorem State.Sound.destruct (h : s.Sound) (hdestruct : s.destruct = some s') : s'.Sound := by
  unfold State.destruct at hdestruct
  split at hdestruct <;> cases hdestruct <;> exact { h with }

/-- The signal and the connection do not matter to what has been posted. -/
theorem kept_connection (h : s.Sound ∧ s.Ordered) (reached : List α) (connected : Bool) :
    State.Sound { s with reached, connected } ∧ State.Ordered { s with reached, connected } :=
  ⟨{ h.1 with }, { h.2 with }⟩

theorem step_kept {action : Action α} (h : s.Sound ∧ s.Ordered) (hsteady : Steady s action)
    (hstep : s.step action = some s') : s'.Sound ∧ s'.Ordered := by
  obtain ⟨hsound, hordered⟩ := h
  cases action with
  | loop a => exact ⟨hsound.runLoop hstep, hordered.runLoop hsound hsteady hstep⟩
  | emit args =>
    cases hstep
    unfold emit
    split
    · exact kept_connection ⟨hsound, hordered⟩ _ _
    · exact ⟨hsound, hordered⟩
  | slot i => exact ⟨hsound.slot hstep, hordered.slot hsound hstep⟩
  | invoke i => exact ⟨hsound.invoke hstep, hordered.invoke hstep⟩
  | disconnect =>
    cases hstep
    exact kept_connection ⟨hsound, hordered⟩ _ _
  | destruct => exact ⟨hsound.destruct hstep, hordered.destruct hsteady hstep⟩

end Invariants

theorem init_kept : (init : State α).Sound ∧ (init : State α).Ordered :=
  ⟨⟨init_sound, .nil, nofun, nofun, nofun, nofun⟩,
    ⟨.nil, nofun, Nat.zero_le 1, absurd rfl, nofun⟩⟩

/-- **Queued connections.** In every steady run of emissions, steps of the loop, disconnections
and destructors of the receiver and of the loop, the function is called at most once for each
emission, in the order of the emissions, with their arguments and only while the receiver's
token is alive, and no emission posts to a dead loop. -/
theorem queued_calls_proper (as : List (Action α)) (h : (machine α).Meets Steady .init as) :
    (machine α).Always State.Proper .init as := by
  have hkept : (machine α).Always (fun s => s.Sound ∧ s.Ordered) .init as :=
    Transition.Machine.always_of_meets
      (fun _ _ _ hkept hsteady hstep => step_kept hkept hsteady hstep) init_kept h
  exact hkept.mono fun s hs => hs.1.proper hs.2

/-- Each closure that runs is a task that was started for it. -/
structure State.Once (s : State α) : Prop where
  sound : s.Sound
  ran : s.ran.map (·.task) <+~ s.loop.started

section Once

variable {s s' : State α} (h : s.Once)
include h

theorem State.Once.runLoop {a : PostedTasks.Action} (hrun : s.runLoop a = some s') : s'.Once := by
  refine ⟨h.sound.runLoop hrun, ?_⟩
  obtain ⟨loop, hloop, rfl | ⟨c, hstarts, -, rfl⟩⟩ := runLoop_eq_some hrun
  · obtain ⟨-, ⟨hsame, -⟩ | ⟨r, t, -, -, hmore⟩⟩ := step_started hloop
    · exact hsame ▸ h.ran
    · exact hmore ▸ h.ran.trans (sublist_append_left _ _).subperm
  · obtain ⟨r, rfl, hnext, -⟩ := starts_eq_some hstarts
    rw [step_upcoming hloop hnext]
    simpa [State.ran] using (subperm_append_right [c.closure.task]).mpr h.ran

theorem State.Once.invoke {i : Nat} (hinvoke : s.invoke i = some s') : s'.Once := by
  refine ⟨h.sound.invoke hinvoke, ?_⟩
  unfold State.invoke at hinvoke
  split at hinvoke <;> cases hinvoke
  next c hc =>
    obtain ⟨hi, rfl⟩ := List.getElem?_eq_some_iff.mp hc
    -- the closure goes from one list to the other
    have hperm := ((getElem_cons_eraseIdx_perm hi).map (·.closure.task)).append_left
      (s.invoked.map (·.closure.task))
    refine Subperm.trans (Perm.subperm ?_) h.ran
    simpa [State.ran, Function.comp_def] using hperm

theorem State.Once.nodup : (s.invoked.map (·.closure.emission)).Nodup := by
  have hstarted := (nodup_append.mp (h.sound.loop.placed.nodup_iff.mpr nodup_range)).1
  obtain ⟨l, hperm, hsub⟩ := h.ran
  have hran : (s.ran.map (·.task)).Nodup := hperm.nodup_iff.mp (hstarted.sublist hsub)
  rw [State.ran, map_append, List.map_map] at hran
  refine pairwise_map.mpr ((pairwise_map.mp (nodup_append.mp hran).1).imp_of_mem ?_)
  intro c d hc hd hne
  have hmade {c} (hc : c ∈ s.invoked) := h.sound.made _ (mem_append_left _ (mem_map_of_mem hc))
  rcases Nat.lt_or_gt_of_ne hne with hlt | hlt
  · exact Nat.ne_of_lt (h.sound.emission_lt (hmade hc) (hmade hd) hlt)
  · exact Nat.ne_of_gt (h.sound.emission_lt (hmade hd) (hmade hc) hlt)

end Once

/-- **At most once.** In every run, steady or not, the function is called at most once for each
emission. -/
theorem queued_calls_once (as : List (Action α)) : (machine α).Always
    (fun s => (s.invoked.map (·.closure.emission)).Nodup) .init as := by
  have honce : (machine α).Always State.Once .init as := by
    refine Transition.Machine.always_of_step (fun s action t h hstep => ?_)
      ⟨init_kept.1, nil_subperm⟩ as
    cases action with
    | loop a => exact h.runLoop hstep
    | invoke i => exact h.invoke hstep
    | slot i =>
      refine ⟨h.sound.slot hstep, ?_⟩
      obtain ⟨_, -, ⟨-, rfl⟩ | ⟨-, rfl⟩⟩ := slot_eq_some hstep <;> exact h.ran
    | destruct =>
      refine ⟨h.sound.destruct hstep, ?_⟩
      change s.destruct = some t at hstep
      unfold State.destruct at hstep
      split at hstep <;> cases hstep <;> exact h.ran
    | emit args =>
      cases hstep
      unfold emit
      split <;> exact ⟨{ h.sound with }, h.ran⟩
    | disconnect =>
      cases hstep
      exact ⟨{ h.sound with }, h.ran⟩
  exact honce.mono fun s h => h.nodup

/-- The only call of the loop there has been is not disturbed. -/
theorem steady_of_only {s : State α} (hchecked : s.checked = [])
    (honly : s.loop.rounds.length ≤ 1) : Steady s (.loop (.advance 0)) := by
  intro t _ _
  refine ⟨hchecked, fun i round hi hne => ?_⟩
  have hlt := (List.getElem?_eq_some_iff.mp hi).1
  omega

/-- Two emissions, of which the second is still queued when the receiver dies. -/
theorem queued_calls_emitted_twice : (machine Nat).Always State.Proper .init
      [.emit 7, .slot 0, .emit 8, .slot 0, .loop (.processEvents 0), .loop (.advance 0),
        .invoke 0, .loop (.advance 0), .destruct, .loop (.advance 0)] := by
  apply queued_calls_proper
  iterate 5
    rintro _ ⟨⟩
    refine ⟨trivial, ?_⟩
  rintro _ ⟨⟩
  refine ⟨steady_of_only rfl (by decide), ?_⟩
  rintro _ ⟨⟩
  refine ⟨trivial, ?_⟩
  rintro _ ⟨⟩
  refine ⟨steady_of_only rfl (by decide), ?_⟩
  rintro _ ⟨⟩
  refine ⟨fun _ => rfl, ?_⟩
  rintro _ ⟨⟩
  exact ⟨steady_of_only rfl (by decide), trivial⟩

/-- The function, called for the first of two emissions, emits a third time and calls
`process_events`: it is called for the third emission before the second. -/
theorem nested_call_out_of_order : ∃ s, (machine Nat).run .init [.emit 7, .slot 0, .emit 8, .slot 0,
        .loop (.processEvents 0), .loop (.advance 0), .invoke 0, .emit 9, .slot 0,
        .loop (.processEvents 0), .loop (.advance 1), .invoke 0,
        .loop (.advance 1), .loop (.advance 1), .loop (.advance 1), .loop (.advance 0),
        .loop (.advance 0), .invoke 0] = some s ∧
      s.invoked.map (·.closure.args) = [7, 9, 8] ∧ ¬ s.Proper := by
  refine ⟨_, rfl, rfl, fun h => ?_⟩
  have := h.inOrder
  revert this
  decide

end CxxKit.ConnectQueued
