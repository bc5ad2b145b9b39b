import CxxKit.Lib.Transition
import CxxKit.Units.TimeUnits

/-!
Repeating tasks (`RepeatingTaskClosure`, `RepeatingTaskHandle`).

A task is posted again and again by its own call operator, each time with a delay that makes up
for the time lost so far.  The underlying queue runs it at any time from the one it was requested
for; the clock moves in between, also while the closure runs.  The closure returns a finite delay
that is not negative, or infinity; `stop` is called on the task's own queue, so not between the
test of the flag and the call of the closure.

The log says what happened, the latest first.  `requested` records for when the task was posted
and when that was; `defined` records that no sum or difference of times has overflowed, after
which C++ promises nothing.
-/

namespace CxxKit.RepeatingTask

open CxxKit.Units Option TimeDelta

inductive Point where
  | queued | running | finished
deriving DecidableEq, Repr

inductive Happening where
  | ran
  | returned (delay : Option Micros)
  | stopped
  | requested (time now : Int)
deriving DecidableEq

structure State where
  now : Micros
  point : Point
  mNextRunTime : Timestamp
  aliveFlag : Bool
  handle : Bool
  requestedFor : Int
  defined : Bool
  log : List Happening

inductive Action where
  | clock (now : Micros)
  | run
  | ret (delay : Option Micros)
  | stop

/-- What the closure returned, `none` for infinity. -/
def toDelay : Option Micros → TimeDelta
  | none => .plusInfinity
  | some delay => delay.toTimeDelta

namespace State

variable (s : State)

/-- `delayed_start`, and `start` for a first delay of zero. -/
def init (start firstDelay : Micros) : State where
  now := start
  point := .queued
  mNextRunTime := start.toTimestamp.add firstDelay.toTimeDelta
  aliveFlag := true
  handle := true
  requestedFor := start.us + firstDelay.us
  defined := start.toTimestamp.AddFits firstDelay.toTimeDelta
  log := []

/-- The call operator up to the closure. -/
def run : State :=
  if s.aliveFlag then { s with point := .running, log := .ran :: s.log }
  else { s with point := .finished }

/-- The call operator after the closure. -/
def ret (returned : Option Micros) : State :=
  let delay := toDelay returned
  if delay.isPlusInfinity || !s.aliveFlag then
    { s with point := .finished, log := .returned returned :: s.log }
  else
    let lostTime := s.now.toTimestamp.sub s.mNextRunTime
    let posted := (delay.sub lostTime).max .zero
    { s with
      point := .queued
      mNextRunTime := s.mNextRunTime.add delay
      requestedFor := s.now.us + posted.us
      defined := s.defined && (s.now.toTimestamp.SubFits s.mNextRunTime : Bool) &&
        (s.mNextRunTime.AddFits delay : Bool) && (delay.SubFits lostTime : Bool)
      log := .requested (s.now.us + posted.us) s.now.us :: .returned returned :: s.log }

def stop : State :=
  { s with
    aliveFlag := s.aliveFlag && !s.handle
    handle := false
    log := .stopped :: s.log }

def step : Action → Option State
  | .clock now => if s.now.us ≤ now.us then some { s with now } else none
  | .run => if s.point = .queued ∧ s.requestedFor ≤ s.now.us then some s.run else none
  | .ret delay => if s.point = .running then some (s.ret delay) else none
  | .stop => some s.stop

end State

open State

/-- A repeating task on its queue. -/
def machine (start firstDelay : Micros) : Transition.Machine State Action where
  init := .init start firstDelay
  step := step

section Nominal

variable (start firstDelay : Micros)

/-- The start time plus the first delay plus all delays returned so far. -/
def nominal : List Happening → Int
  | [] => start.us + firstDelay.us
  | .returned (some delay) :: log => nominal log + delay.us
  | _ :: log => nominal log

/-- Each next run is requested for its nominal time, or for now if that has passed, and the
closure is not run after it returned infinity or the task was stopped. -/
structure OnSchedule (log : List Happening) : Prop where
  onTime : ∀ time now earlier, .requested time now :: earlier <:+ log →
    time = max (nominal start firstDelay earlier) now
  notAfter : ∀ earlier, .ran :: earlier <:+ log → .stopped ∉ earlier ∧ .returned none ∉ earlier

/-- The task keeps to its schedule and no arithmetic of it has overflowed. -/
def State.Punctual (s : State) : Prop :=
  s.defined = true ∧ OnSchedule start firstDelay s.log

/-- The nominal time of the next run is a value of `int64_t`. -/
def Representable (s : State) : Action → Prop
  | .ret (some delay) => s.aliveFlag = true →
      nominal start firstDelay s.log + delay.us ≤ plusInfinityVal
  | _ => True

end Nominal

/-! ### The next run -/

section Next

variable {s : State} {n : Int}

section

variable (delay : Micros)

theorem isPlusInfinity_toTimeDelta : delay.toTimeDelta.isPlusInfinity = false := by
  have hfinite := (isFinite_iff.mp delay.isFinite_toTimeDelta).1
  simpa [isPlusInfinity] using hfinite

/-- The lateness of a run whose nominal time was reached. -/
theorem lostTime_eq (hnext : s.mNextRunTime.us = n) (hnonneg : 0 ≤ n) (hreached : n ≤ s.now.us) :
    s.mNextRunTime.isFinite = true ∧ s.now.toTimestamp.SubFits s.mNextRunTime ∧
      (s.now.toTimestamp.sub s.mNextRunTime).us = s.now.us - n ∧
      (s.now.toTimestamp.sub s.mNextRunTime).isFinite = true := by
  have hnow := s.now.finite
  have hfits : Fits (s.now.us - n) := by
    unfold Fits plusInfinityVal minusInfinityVal at *
    omega
  have hfinite : s.mNextRunTime.isFinite = true := by
    rw [Timestamp.isFinite_iff]
    unfold plusInfinityVal minusInfinityVal at *
    omega
  have hlost : (s.now.toTimestamp.sub s.mNextRunTime).us = s.now.us - n := by
    rw [Timestamp.us_sub s.now.isFinite_toTimestamp hfinite, hnext]
    exact wrap_of_fits hfits
  refine ⟨hfinite, fun _ => ?_, hlost, ?_⟩
  · rw [hnext]
    exact hfits
  · rw [isFinite_iff]
    unfold plusInfinityVal minusInfinityVal at *
    omega

/-- What is left of a delay after the lateness was taken off. -/
theorem posted_eq {lostTime : TimeDelta} {late : Int} (hlost : lostTime.us = late)
    (hfinite : lostTime.isFinite = true) (hnonneg : 0 ≤ late) (hlate : late < plusInfinityVal) :
    delay.toTimeDelta.SubFits lostTime ∧
      ((delay.toTimeDelta.sub lostTime).max .zero).us = max (delay.us - late) 0 := by
  have h₁ := delay.nonneg
  have h₂ := delay.finite
  have hfits : Fits (delay.us - late) := by
    unfold Fits plusInfinityVal minusInfinityVal at *
    omega
  refine ⟨fun _ => ?_, ?_⟩
  · rw [hlost]
    exact hfits
  · rw [us_max, us_sub delay.isFinite_toTimeDelta hfinite, hlost]
    exact congrArg (max · 0) (wrap_of_fits hfits)

/-- The next run time and the delay can be added if the nominal time can be represented. -/
theorem addFits_iff {t : Timestamp} (hnext : t.us = n) (hfinite : t.isFinite = true)
    (hnonneg : 0 ≤ n) : t.AddFits delay.toTimeDelta ↔ n + delay.us ≤ plusInfinityVal := by
  have h₁ := delay.nonneg
  have hsum : Fits (n + delay.us) ↔ n + delay.us ≤ plusInfinityVal := by
    unfold Fits plusInfinityVal minusInfinityVal at *
    omega
  rw [← hsum, ← hnext]
  exact ⟨fun h => h ⟨hfinite, delay.isFinite_toTimeDelta⟩, fun h _ => h⟩

/-- After a finite delay the task is posted for the sum of the nominal time and the delay, or for
now, and only this sum can overflow. -/
theorem ret_some {delay : Micros} (hnext : s.mNextRunTime.us = n) (hnonneg : 0 ≤ n)
    (hreached : n ≤ s.now.us) (halive : s.aliveFlag = true) : s.ret (some delay) = { s with
      point := .queued
      mNextRunTime := s.mNextRunTime.add delay.toTimeDelta
      requestedFor := max (n + delay.us) s.now.us
      defined := s.defined && decide (n + delay.us ≤ plusInfinityVal)
      log := .requested (max (n + delay.us) s.now.us) s.now.us ::
        .returned (some delay) :: s.log } := by
  have hnow := s.now.finite
  obtain ⟨hfinite, hsub, hlost, hlostFinite⟩ := lostTime_eq hnext hnonneg hreached
  obtain ⟨hleft, hposted⟩ := posted_eq delay hlost hlostFinite (by omega) (by omega)
  have htime : s.now.us + max (delay.us - (s.now.us - n)) 0 = max (n + delay.us) s.now.us := by
    omega
  unfold ret toDelay
  simp only [isPlusInfinity_toTimeDelta, halive, Bool.not_true, Bool.or_self, Bool.false_eq_true,
    if_false, hposted, htime, hsub, hleft, addFits_iff delay hnext hfinite hnonneg, decide_true,
    Bool.and_true]

/-- The shape of a state after the task was posted again, also after an overflow. -/
theorem ret_posted (halive : s.aliveFlag = true) : ∃ time next ok, s.ret (some delay) = { s with
      point := .queued
      mNextRunTime := next
      requestedFor := time
      defined := s.defined && ok
      log := .requested time s.now.us :: .returned (some delay) :: s.log } := by
  unfold ret toDelay
  simp only [isPlusInfinity_toTimeDelta, halive, Bool.not_true, Bool.or_self, Bool.false_eq_true,
    if_false, Bool.and_assoc]
  exact ⟨_, _, _, rfl⟩

end

theorem ret_stopped {returned : Option Micros} (hstopped : s.aliveFlag = false) :
    s.ret returned = { s with point := .finished, log := .returned returned :: s.log } := by
  unfold ret
  rw [hstopped]
  exact if_pos (Bool.or_true _)

end Next

/-! ### Runs -/

section Schedule

variable {start firstDelay : Micros} {log : List Happening} {x : Happening}

theorem OnSchedule.cons (h : OnSchedule start firstDelay log)
    (htime : ∀ time now, x = .requested time now → time = max (nominal start firstDelay log) now)
    (hran : x = .ran → .stopped ∉ log ∧ .returned none ∉ log) :
    OnSchedule start firstDelay (x :: log) where
  onTime := by
    intro time now earlier hsuffix
    rcases List.suffix_cons_iff.mp hsuffix with heq | hsuffix
    · cases heq
      exact htime time now rfl
    · exact h.onTime time now earlier hsuffix
  notAfter := by
    intro earlier hsuffix
    rcases List.suffix_cons_iff.mp hsuffix with heq | hsuffix
    · cases heq
      exact hran rfl
    · exact h.notAfter earlier hsuffix

theorem onSchedule_nil : OnSchedule start firstDelay [] where
  onTime := fun _ _ _ h => nomatch List.suffix_nil.mp h
  notAfter := fun _ h => nomatch List.suffix_nil.mp h

end Schedule

/-- What a run keeps: up to an overflow the next run time is the nominal one, and a run does not
begin before it. -/
structure State.Sound (start firstDelay : Micros) (s : State) : Prop where
  nonneg : 0 ≤ nominal start firstDelay s.log
  next : s.defined = true → s.point ≠ .finished →
    s.mNextRunTime.us = nominal start firstDelay s.log
  awaited : s.defined = true → s.point = .queued →
    nominal start firstDelay s.log ≤ s.requestedFor
  reached : s.defined = true → s.point = .running → nominal start firstDelay s.log ≤ s.now.us
  held : s.aliveFlag = true → s.handle = true
  stopped : .stopped ∈ s.log → s.aliveFlag = false
  infinite : s.point ≠ .finished → .returned none ∉ s.log

section Runs

variable {start firstDelay : Micros} {s s' : State}

theorem defined_init : (init start firstDelay).defined = true ↔
      start.us + firstDelay.us ≤ plusInfinityVal :=
  decide_eq_true_iff.trans
    (addFits_iff firstDelay rfl start.isFinite_toTimestamp start.nonneg)

theorem init_sound : (init start firstDelay).Sound start firstDelay where
  nonneg := Int.add_nonneg start.nonneg firstDelay.nonneg
  next := by
    intro hdefined _
    have hfits : start.toTimestamp.AddFits firstDelay.toTimeDelta := of_decide_eq_true hdefined
    have hadd := Timestamp.us_add start.isFinite_toTimestamp firstDelay.isFinite_toTimeDelta
    exact hadd.trans (wrap_of_fits
      (hfits ⟨start.isFinite_toTimestamp, firstDelay.isFinite_toTimeDelta⟩))
  awaited := fun _ _ => Int.le_refl _
  reached := nofun
  held := fun _ => rfl
  stopped := nofun
  infinite := nofun

section

variable (h : s.Sound start firstDelay)

include h

theorem State.Sound.run (hpoint : s.point = .queued)
    (hdue : s.requestedFor ≤ s.now.us) : s.run.Sound start firstDelay := by
  have hlive : s.point ≠ .finished := by
    rw [hpoint]
    nofun
  unfold State.run
  split
  · refine ⟨h.nonneg, fun hdefined _ => h.next hdefined hlive, nofun, fun hdefined _ => ?_,
      h.held, ?_, fun _ => ?_⟩
    · exact Int.le_trans (h.awaited hdefined hpoint) hdue
    · exact fun hmem => h.stopped (by simpa using hmem)
    · simpa using h.infinite hlive
  · exact ⟨h.nonneg, fun _ hne => absurd rfl hne, nofun, nofun, h.held, h.stopped,
      fun hne => absurd rfl hne⟩

theorem State.Sound.nominal_returned (returned : Option Micros) :
    0 ≤ nominal start firstDelay (.returned returned :: s.log) := by
  cases returned with
  | none => exact h.nonneg
  | some delay => exact Int.add_nonneg h.nonneg delay.nonneg

/-- The task is not posted again. -/
theorem State.Sound.finish (returned : Option Micros) : State.Sound start firstDelay
      { s with point := .finished, log := .returned returned :: s.log } where
  nonneg := h.nominal_returned returned
  next := fun _ hne => absurd rfl hne
  awaited := nofun
  reached := nofun
  held := h.held
  stopped := fun hmem => h.stopped (by simpa using hmem)
  infinite := fun hne => absurd rfl hne

theorem State.Sound.posted {delay : Micros}
    (hpoint : s.point = .running) (halive : s.aliveFlag = true) :
    (s.ret (some delay)).Sound start firstDelay := by
  have hlive : s.point ≠ .finished := by
    rw [hpoint]
    nofun
  have hstopped : .stopped ∉ s.log := fun hmem => by
    rw [h.stopped hmem] at halive
    cases halive
  have hinfinite := h.infinite hlive
  cases hdefined : s.defined with
  | false =>
    -- after an overflow nothing is claimed about the times
    obtain ⟨time, next, ok, heq⟩ := ret_posted delay halive
    rw [heq, hdefined]
    exact ⟨h.nominal_returned (some delay), nofun, nofun, nofun, h.held,
      fun hmem => absurd (by simpa using hmem) hstopped, fun _ => by simpa using hinfinite⟩
  | true =>
    have hnext := h.next hdefined hlive
    have hreached := h.reached hdefined hpoint
    have hfinite := (lostTime_eq hnext h.nonneg hreached).1
    rw [ret_some hnext h.nonneg hreached halive]
    refine ⟨h.nominal_returned (some delay), fun hfits _ => ?_, fun _ _ => Int.le_max_left _ _,
      nofun, h.held, fun hmem => absurd (by simpa using hmem) hstopped,
      fun _ => by simpa using hinfinite⟩
    rw [hdefined, Bool.true_and, decide_eq_true_iff] at hfits
    have hadd := (addFits_iff delay hnext hfinite h.nonneg).mpr hfits
    have hsum := hadd ⟨hfinite, delay.isFinite_toTimeDelta⟩
    rw [Timestamp.us_add hfinite delay.isFinite_toTimeDelta, wrap_of_fits hsum, hnext]
    rfl

theorem State.Sound.ret {returned : Option Micros}
    (hpoint : s.point = .running) : (s.ret returned).Sound start firstDelay := by
  cases returned with
  | none =>
    exact h.finish none
  | some delay =>
    cases halive : s.aliveFlag with
    | false =>
      rw [ret_stopped halive]
      exact h.finish (some delay)
    | true => exact h.posted hpoint halive

theorem State.Sound.stop : s.stop.Sound start firstDelay := by
  have hdead : (s.aliveFlag && !s.handle) = false := by
    cases halive : s.aliveFlag with
    | false => rfl
    | true => rw [h.held halive]; rfl
  refine ⟨h.nonneg, h.next, h.awaited, h.reached, ?_, fun _ => hdead, ?_⟩
  · unfold State.stop
    rw [hdead]
    nofun
  · exact fun hne => by simpa [State.stop] using h.infinite hne

end

theorem step_cases {a : Action} (hstep : s.step a = some s') :
    (∃ now, a = .clock now ∧ s.now.us ≤ now.us ∧ s' = { s with now }) ∨
    (a = .run ∧ s.point = .queued ∧ s.requestedFor ≤ s.now.us ∧ s' = s.run) ∨
    (∃ returned, a = .ret returned ∧ s.point = .running ∧ s' = s.ret returned) ∨
    (a = .stop ∧ s' = s.stop) := by
  cases a with
  | clock now =>
    obtain ⟨hle, heq⟩ := ite_none_right_eq_some.mp hstep
    exact .inl ⟨now, rfl, hle, (some.inj heq).symm⟩
  | run =>
    obtain ⟨hready, heq⟩ := ite_none_right_eq_some.mp hstep
    exact .inr (.inl ⟨rfl, hready.1, hready.2, (some.inj heq).symm⟩)
  | ret returned =>
    obtain ⟨hpoint, heq⟩ := ite_none_right_eq_some.mp hstep
    exact .inr (.inr (.inl ⟨returned, rfl, hpoint, (some.inj heq).symm⟩))
  | stop => exact .inr (.inr (.inr ⟨rfl, (some.inj hstep).symm⟩))

section

variable (h : s.Sound start firstDelay) {a : Action}

include h

theorem State.Sound.step (hstep : s.step a = some s') : s'.Sound start firstDelay := by
  obtain ⟨now, rfl, hle, rfl⟩ | ⟨rfl, hpoint, hdue, rfl⟩ | ⟨returned, rfl, hpoint, rfl⟩ |
    ⟨rfl, rfl⟩ := step_cases hstep
  · exact ⟨h.nonneg, h.next, h.awaited,
      fun hdefined hpoint => Int.le_trans (h.reached hdefined hpoint) hle, h.held, h.stopped,
      h.infinite⟩
  · exact h.run hpoint hdue
  · exact h.ret hpoint
  · exact h.stop

variable (hp : s.Punctual start firstDelay)
include hp

theorem punctual_run (hpoint : s.point = .queued) : s.run.Punctual start firstDelay := by
  unfold State.run
  split
  next halive =>
    refine ⟨hp.1, hp.2.cons nofun fun _ => ⟨fun hmem => ?_, h.infinite ?_⟩⟩
    · rw [h.stopped hmem] at halive
      cases halive
    · rw [hpoint]
      nofun
  · exact hp

/-- A task that is posted again stays punctual exactly when its nominal time can be
represented. -/
theorem punctual_ret_iff {returned : Option Micros} (hpoint : s.point = .running) :
    (s.ret returned).Punctual start firstDelay ↔
      Representable start firstDelay s (.ret returned) := by
  obtain ⟨hdefined, hlog⟩ := hp
  have hreturned : OnSchedule start firstDelay (.returned returned :: s.log) :=
    hlog.cons nofun nofun
  cases returned with
  | none =>
    exact iff_of_true ⟨hdefined, hreturned⟩ trivial
  | some delay =>
    cases halive : s.aliveFlag with
    | false =>
      rw [ret_stopped halive]
      refine iff_of_true ⟨hdefined, hreturned⟩ fun h => ?_
      rw [halive] at h
      cases h
    | true =>
      have hnext := h.next hdefined (by rw [hpoint]; nofun)
      have honTime : OnSchedule start firstDelay
          (.requested (max (nominal start firstDelay s.log + delay.us) s.now.us) s.now.us ::
            .returned (some delay) :: s.log) := by
        refine hreturned.cons ?_ nofun
        rintro _ _ ⟨⟩
        rfl
      rw [ret_some hnext h.nonneg (h.reached hdefined hpoint) halive]
      unfold State.Punctual Representable
      rw [hdefined, Bool.true_and, decide_eq_true_iff]
      exact ⟨fun hp _ => hp.1, fun hfits => ⟨hfits halive, honTime⟩⟩

/-- A step keeps a punctual task punctual exactly when the next nominal time can be represented. -/
theorem punctual_iff (hstep : s.step a = some s') :
    s'.Punctual start firstDelay ↔ Representable start firstDelay s a := by
  obtain ⟨now, rfl, hle, rfl⟩ | ⟨rfl, hpoint, hdue, rfl⟩ | ⟨returned, rfl, hpoint, rfl⟩ |
    ⟨rfl, rfl⟩ := step_cases hstep
  · exact iff_of_true hp trivial
  · exact iff_of_true (punctual_run h hp hpoint) trivial
  · exact punctual_ret_iff h hp hpoint
  · exact iff_of_true ⟨hp.1, hp.2.cons nofun nofun⟩ trivial

end

end Runs

/-- **Repeating tasks.** For every closure that returns finite delays or infinity, every clock that
does not go back and every lateness of the queue: each next run is requested for the later of its
nominal time and now, the closure is not run after infinity or `stop`, and no arithmetic
overflows, exactly when every nominal time is a value of `int64_t`. -/
theorem repeating_punctual_iff (start firstDelay : Micros) (as : List Action) :
    (machine start firstDelay).Always (State.Punctual start firstDelay)
        (.init start firstDelay) as ↔
      start.us + firstDelay.us ≤ plusInfinityVal ∧
        (machine start firstDelay).Meets (Representable start firstDelay)
          (.init start firstDelay) as := by
  have hexact (hfirst : (init start firstDelay).defined = true) :=
    Transition.Machine.always_iff_meets (M := machine start firstDelay)
      (fun _ _ _ hs hstep => State.Sound.step hs hstep)
      (fun _ _ _ hs hp hstep => punctual_iff hs hp hstep)
      init_sound ⟨hfirst, onSchedule_nil⟩ as
  constructor
  · intro h
    have hfirst := h.head.1
    exact ⟨defined_init.mp hfirst, (hexact hfirst).mp h⟩
  · rintro ⟨hfirst, hmeets⟩
    exact (hexact (defined_init.mpr hfirst)).mpr hmeets

/-- The closure is not run after it returned infinity or the task was stopped. -/
def Silent (log : List Happening) : Prop :=
  ∀ earlier, .ran :: earlier <:+ log → .stopped ∉ earlier ∧ .returned none ∉ earlier

theorem Silent.cons {log : List Happening} {x : Happening} (h : Silent log)
    (hran : x = .ran → .stopped ∉ log ∧ .returned none ∉ log) : Silent (x :: log) := by
  intro earlier hsuffix
  rcases List.suffix_cons_iff.mp hsuffix with heq | hsuffix
  · cases heq
    exact hran rfl
  · exact h earlier hsuffix

/-- **Stopped tasks stay stopped**, also after an overflow: the flag is read in front of every run,
and nothing sets it again. -/
theorem repeating_silent (start firstDelay : Micros) (as : List Action) :
    (machine start firstDelay).Always (fun s => s.Sound start firstDelay ∧ Silent s.log)
      (.init start firstDelay) as := by
  refine Transition.Machine.always_of_step ?_
    ⟨init_sound, fun _ h => nomatch List.suffix_nil.mp h⟩ as
  rintro s a t ⟨hs, hsilent⟩ hstep
  refine ⟨hs.step hstep, ?_⟩
  obtain ⟨now, -, -, rfl⟩ | ⟨-, hpoint, -, rfl⟩ | ⟨returned, -, -, rfl⟩ | ⟨-, rfl⟩ :=
    step_cases hstep
  · exact hsilent
  · unfold State.run
    split
    next halive =>
      refine hsilent.cons fun _ => ⟨fun hmem => ?_, hs.infinite (by rw [hpoint]; nofun)⟩
      rw [hs.stopped hmem] at halive
      cases halive
    · exact hsilent
  · unfold State.ret
    dsimp only
    split
    · exact hsilent.cons nofun
    · refine .cons (.cons hsilent ?_) ?_ <;> nofun
  · exact hsilent.cons nofun

/-- A closure that returns the largest finite delay when the clock stands at two microseconds. -/
theorem largest_delay_overflows :
    ∃ s, (machine ⟨2, by decide, by decide⟩ ⟨0, by decide, by decide⟩).run
        (.init ⟨2, by decide, by decide⟩ ⟨0, by decide, by decide⟩)
        [.run, .ret (some ⟨plusInfinityVal - 1, by decide, by decide⟩)] = some s ∧
      s.mNextRunTime = .minusInfinity ∧
      ¬ s.Punctual ⟨2, by decide, by decide⟩ ⟨0, by decide, by decide⟩ := by
  refine ⟨_, rfl, rfl, fun h => ?_⟩
  have hdefined := h.1
  revert hdefined
  decide

end CxxKit.RepeatingTask
