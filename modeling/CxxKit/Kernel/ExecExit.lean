import CxxKit.Lib.Transition
import Mathlib.Logic.Function.Basic

/-!
# `EventLoop::exec` and `EventLoop::exit`

The two functions (`kernel/event_loop.cpp`) as threads over the fields of `EventLoopPrivate` that
they share.  Each load and each store of an atomic is one step, and the steps of the thread that
runs `exec` interleave with those of any number of threads that call `exit`.  What
`process_events` does is of no interest here but for its answer; a callback that calls `exit` is
one more thread, and one that calls `exec` is refused by `mInExec`.

`exec` tests for an exit that was made before it, and then clears the flag: an exit in between is
forgotten (`exit_forgotten`).  `exit_heeded` says that nothing else can go wrong.
-/

namespace CxxKit.ExecExit

open Function Transition

/-- Where the thread that runs `exec` is. -/
inductive ExecPc where
  /-- not in `exec` -/
  | idle
  /-- before `mExit.load()` of the test for a preset exit -/
  | loadExit
  /-- before `mHasExitCode.load()` of that test -/
  | loadHasExitCode
  /-- before `return mRetCode.load()` of a preset exit -/
  | returnPreset
  /-- before `mInExec = true` -/
  | enter
  /-- before `mExit.store(false)` -/
  | clear
  /-- before `mExit.load()` of the loop condition -/
  | test
  /-- in `process_events` -/
  | process
  /-- before `mExit.load()` behind `process_events` -/
  | recheck
  /-- before `mInExec = false` -/
  | leave
  /-- before `return mRetCode.load()` -/
  | returnCode
  deriving DecidableEq, Repr

/-- Where a thread that calls `exit` is. -/
inductive ExitPc where
  | idle
  /-- before `mRetCode.store(retCode)` -/
  | storeCode (retCode : Int)
  /-- before `mHasExitCode.store(true)` -/
  | storeHasExitCode
  /-- before `mExit.store(true)` -/
  | storeExit
  /-- before `mDispatcher->wake_up()` -/
  | wake
  deriving DecidableEq, Repr

/-- The shared fields and the threads, and what `exec` returned last.  `completed` records that an
`exit` has made its stores and that `exec` has not returned since; no code reads it. -/
structure State where
  mExit : Bool
  mHasExitCode : Bool
  mRetCode : Int
  mInExec : Bool
  exec : ExecPc
  exits : Nat → ExitPc
  returned : Option Int
  completed : Bool

/-- A loop that was just constructed. -/
def fresh : State where
  mExit := true
  mHasExitCode := false
  mRetCode := -1
  mInExec := false
  exec := .idle
  exits := fun _ => .idle
  returned := none
  completed := false

/-- The steps: a call of `exec` or of `exit` by thread `t`, and one load or store of either.
`worked` is the answer of `process_events` where the step is its return. -/
inductive Label where
  | callExec
  | exec (worked : Bool)
  | callExit (t : Nat) (retCode : Int)
  | exit (t : Nat)
  deriving DecidableEq, Repr

section

variable (s : State)

/-- `exec` is called, by the thread that runs it or by a callback of it: it returns at once while
`mInExec`. -/
def callExec : Option State :=
  if s.exec = .idle ∨ s.exec = .process then
    some (if s.mInExec then { s with returned := some (-1) } else { s with exec := .loadExit })
  else none

/-- `exec` returns `mRetCode.load()`. -/
def State.returnCode : State :=
  { s with exec := .idle, returned := some s.mRetCode, completed := false }

/-- The next load or store of `exec`. -/
def execStep (worked : Bool) : Option State :=
  match s.exec with
  | .idle => none
  | .loadExit => some { s with exec := if s.mExit then .loadHasExitCode else .enter }
  | .loadHasExitCode => some { s with exec := if s.mHasExitCode then .returnPreset else .enter }
  | .returnPreset => some s.returnCode
  | .enter => some { s with mInExec := true, exec := .clear }
  | .clear => some { s with mExit := false, exec := .test }
  | .test => some { s with exec := if s.mExit then .leave else .process }
  | .process => some { s with exec := if worked then .test else .recheck }
  | .recheck => some { s with exec := if s.mExit then .leave else .test }
  | .leave => some { s with mInExec := false, exec := .returnCode }
  | .returnCode => some s.returnCode

/-- Thread `t` goes on to `pc`. -/
def State.move (t : Nat) (pc : ExitPc) : State :=
  { s with exits := update s.exits t pc }

def callExit (t : Nat) (retCode : Int) : Option State :=
  if s.exits t = .idle then some (s.move t (.storeCode retCode)) else none

/-- The next store of the `exit` of thread `t`. -/
def exitStep (t : Nat) : Option State :=
  match s.exits t with
  | .idle => none
  | .storeCode retCode => some { s.move t .storeHasExitCode with mRetCode := retCode }
  | .storeHasExitCode => some { s.move t .storeExit with mHasExitCode := true }
  | .storeExit => some { s.move t .wake with mExit := true, completed := true }
  | .wake => some (s.move t .idle)

def machine : Machine State Label where
  init := fresh
  step s
    | .callExec => callExec s
    | .exec worked => execStep s worked
    | .callExit t retCode => callExit s t retCode
    | .exit t => exitStep s t

/-- **No exit is lost**: once an `exit` has made its stores, the flag is set until `exec`
returns. -/
def Heeded : Prop := s.completed = true → s.mExit = true

/-- `exec` has tested for a preset exit and not yet cleared the flag. -/
def ExecPc.inWindow : ExecPc → Bool
  | .enter => true
  | .clear => true
  | _ => false

/-- The condition on a step: the flag is not set between that test and the clearing. -/
def OutsideWindow : Label → Prop
  | .exit t => s.exits t = .storeExit → s.exec.inWindow = false
  | _ => True

/-! ### The invariant -/

/-- A thread that has stored the code says so in `mHasExitCode`, which is never cleared; an exit
that has completed is seen in both flags, so that `exec` does not go into the window behind it. -/
structure Sound : Prop where
  storing : ∀ t, s.exits t = .storeExit → s.mHasExitCode = true
  heeded : s.completed = true → s.mExit = true ∧ s.mHasExitCode = true
  window : s.exec.inWindow = true → s.completed = false

end

theorem fresh_sound : Sound fresh where
  storing := by rintro t ⟨⟩
  heeded := by rintro ⟨⟩
  window := fun _ => rfl

variable {s t u : State}

/-- A step of `exec` that leaves the flags alone, and does not go into the window with an exit
completed. -/
theorem Sound.goto (h : Sound s) (pc : ExecPc) (inExec : Bool)
    (hpc : pc.inWindow = true → s.completed = false) :
    Sound { s with exec := pc, mInExec := inExec } :=
  ⟨h.storing, h.heeded, hpc⟩

theorem Sound.returnCode (h : Sound s) : Sound s.returnCode :=
  ⟨h.storing, by rintro ⟨⟩, fun _ => rfl⟩

theorem callExec_sound (h : Sound s) (hstep : callExec s = some t) : Sound t := by
  unfold callExec at hstep
  split at hstep
  case isTrue =>
    cases hstep
    split
    · exact ⟨h.storing, h.heeded, h.window⟩
    · exact h.goto .loadExit s.mInExec (by rintro ⟨⟩)
  case isFalse => cases hstep

theorem execStep_sound {worked : Bool} (h : Sound s) (hstep : execStep s worked = some t) :
    Sound t := by
  unfold execStep at hstep
  cases hpc : s.exec <;> rw [hpc] at hstep <;> cases hstep
  case loadExit =>
    refine h.goto _ s.mInExec fun hwindow => ?_
    cases hexit : s.mExit with
    | true =>
      rw [hexit] at hwindow
      cases hwindow
    | false =>
      -- the flag read as clear: no exit is completed
      exact Bool.eq_false_iff.mpr fun hc => absurd (hexit.symm.trans (h.heeded hc).1) (by simp)
  case loadHasExitCode =>
    refine h.goto _ s.mInExec fun hwindow => ?_
    cases hcode : s.mHasExitCode with
    | true =>
      rw [hcode] at hwindow
      cases hwindow
    | false =>
      exact Bool.eq_false_iff.mpr fun hc => absurd (hcode.symm.trans (h.heeded hc).2) (by simp)
  case returnPreset =>
    exact h.returnCode
  case enter =>
    exact h.goto .clear true fun _ => h.window (by rw [hpc]; rfl)
  case clear =>
    -- no exit is completed here, so that none is forgotten
    have hnone := h.window (by rw [hpc]; rfl)
    exact ⟨h.storing, fun hc => absurd (hnone.symm.trans hc) (by simp), by rintro ⟨⟩⟩
  case test =>
    refine h.goto _ s.mInExec ?_
    cases s.mExit <;> rintro ⟨⟩
  case process =>
    refine h.goto _ s.mInExec ?_
    cases worked <;> rintro ⟨⟩
  case recheck =>
    refine h.goto _ s.mInExec ?_
    cases s.mExit <;> rintro ⟨⟩
  case leave =>
    exact h.goto .returnCode false (by rintro ⟨⟩)
  case returnCode =>
    exact h.returnCode

/-- A thread that moves on, to its store of the flag only when `mHasExitCode` is set. -/
theorem Sound.move (h : Sound s) (t : Nat) (pc : ExitPc)
    (hpc : pc = .storeExit → s.mHasExitCode = true) : Sound (s.move t pc) := by
  refine ⟨fun u hu => ?_, h.heeded, h.window⟩
  have hmoved : update s.exits t pc u = .storeExit := hu
  rcases eq_or_ne u t with rfl | hne
  · rw [update_self] at hmoved
    exact hpc hmoved
  · rw [update_of_ne hne] at hmoved
    exact h.storing u hmoved

theorem callExit_sound {t : Nat} {retCode : Int} (h : Sound s)
    (hstep : callExit s t retCode = some u) : Sound u := by
  unfold callExit at hstep
  split at hstep
  case isTrue =>
    cases hstep
    exact h.move t _ (by rintro ⟨⟩)
  case isFalse => cases hstep

theorem exitStep_sound {t : Nat} (h : Sound s) (houtside : OutsideWindow s (.exit t))
    (hstep : exitStep s t = some u) : Sound u := by
  unfold exitStep at hstep
  cases hpc : s.exits t <;> rw [hpc] at hstep <;> cases hstep
  case storeCode retCode =>
    have hmoved := h.move t .storeHasExitCode (by rintro ⟨⟩)
    exact ⟨hmoved.storing, hmoved.heeded, hmoved.window⟩
  case storeHasExitCode =>
    exact ⟨fun _ _ => rfl, fun hc => ⟨(h.heeded hc).1, rfl⟩, h.window⟩
  case storeExit =>
    have hmoved := h.move t .wake (by rintro ⟨⟩)
    exact ⟨hmoved.storing, fun _ => ⟨rfl, h.storing t hpc⟩,
      fun hwindow => absurd (hwindow.symm.trans (houtside hpc)) (by simp)⟩
  case wake =>
    exact h.move t _ (by rintro ⟨⟩)

theorem step_sound (s : State) (a : Label) (t : State) (h : Sound s) (houtside : OutsideWindow s a)
    (hstep : machine.step s a = some t) : Sound t := by
  cases a with
  | callExec => exact callExec_sound h hstep
  | exec worked => exact execStep_sound h hstep
  | callExit t retCode => exact callExit_sound h hstep
  | exit t => exact exitStep_sound h houtside hstep

/-! ### Whole runs -/

/-- **Exits are heeded** in every interleaving in which no exit sets the flag between the test of
`exec` for a preset exit and its clearing of the flag. -/
theorem exit_heeded (steps : List Label) (h : machine.Meets OutsideWindow machine.init steps) :
    machine.Always Heeded machine.init steps :=
  (Machine.always_of_meets step_sound fresh_sound h).mono fun _ hs hc => (hs.heeded hc).1

/-- An exit before `exec`, which returns its code at once. -/
theorem exit_heeded_preset :
    machine.Always Heeded machine.init [.callExit 1 7, .exit 1, .exit 1, .exit 1, .callExec,
      .exec true, .exec true] := by
  apply exit_heeded
  rintro _ ⟨⟩
  refine ⟨trivial, ?_⟩
  iterate 3
    rintro _ ⟨⟩
    refine ⟨fun _ => rfl, ?_⟩
  rintro _ ⟨⟩
  refine ⟨trivial, ?_⟩
  rintro _ ⟨⟩
  refine ⟨trivial, ?_⟩
  rintro _ ⟨⟩
  exact ⟨trivial, trivial⟩

/-- An exit between the test for a preset exit and the clearing of the flag: all its stores are
made, and `exec` is in its loop with the flag clear. -/
theorem exit_forgotten :
    ∃ s, machine.run machine.init [.callExec, .exec true, .exec true, .callExit 1 0, .exit 1,
        .exit 1, .exit 1, .exec true, .exec true, .exec true] = some s ∧
      s.exec = .process ∧ s.mExit = false ∧ ¬ Heeded s := by
  refine ⟨_, rfl, rfl, rfl, fun h => ?_⟩
  exact absurd (h rfl) Bool.false_ne_true

end CxxKit.ExecExit
