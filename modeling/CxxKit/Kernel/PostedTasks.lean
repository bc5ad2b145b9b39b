import CxxKit.Kernel.EventQueue
import CxxKit.Lib.Indexed
import CxxKit.Lib.Transition

/-!
The posted tasks of a loop (`EventLoop::post`, `EventLoop::process_events`, `~EventLoop`).

A call of `process_events` takes the whole posted queue in one step and runs it outside the
lock, then takes the event entries one by one; the destructor drains the posted queue in the
same way.  While a task, a handler or the dispatcher runs, its thread may call
`process_events` again, and posts and calls from other threads happen at any time.  So several
calls may be under way at once, each with its own snapshot; of the calls of one thread only the
innermost moves.

Tasks are numbered in the order they are posted.  A call records the snapshot it took and how
many tasks had been posted before, and the log what was started and dispatched by which call;
the source stores none of this.  A loop whose destructor has returned has no steps.
-/

namespace CxxKit.PostedTasks

open Indexed List

open Kernel (EventEntry)

/-- Where a call stands: at the test of the loop over the tasks, in a task, at
`pop_event_entry`, in `send_event`, or in the dispatcher. -/
inductive Point where
  | tasks | task | events | event | polling | returned
deriving DecidableEq, Repr

/-- Code of the user may be running. -/
def Point.calling : Point → Bool
  | .task | .event | .polling => true
  | _ => false

inductive Call where
  | processEvents | destructor
deriving DecidableEq, Repr

structure Round where
  thread : Nat
  call : Call
  point : Point
  tasks : List Nat
  hadPost : Bool
  hadEvent : Bool
  snapshot : List Nat
  postedBefore : Nat
deriving DecidableEq, Repr

inductive Happening where
  | started (round task : Nat)
  | dispatched (round : Nat) (entry : EventEntry)
deriving DecidableEq, Repr

inductive Life where
  | alive | destroying | dead
deriving DecidableEq, Repr

structure State where
  life : Life
  mPostQueue : List Nat
  mEventQueue : List EventEntry
  rounds : List Round
  posted : Nat
  log : List Happening
deriving DecidableEq, Repr

inductive Action where
  | post
  | enqueueEvent (entry : EventEntry)
  | removePendingEvents (receiver : Nat)
  | processEvents (thread : Nat)
  | destroy (thread : Nat)
  | advance (round : Nat)
deriving DecidableEq, Repr

def Happening.round : Happening → Nat
  | .started r _ => r
  | .dispatched r _ => r

def Happening.task : Happening → Option Nat
  | .started _ t => some t
  | .dispatched _ _ => none

def Happening.taskOf (r : Nat) : Happening → Option Nat
  | .started r' t => if r' = r then some t else none
  | .dispatched _ _ => none

namespace State

def init : State := ⟨.alive, [], [], [], 0, []⟩

variable (s : State)

/-- The tasks that were started, in that order. -/
def started : List Nat := s.log.filterMap Happening.task

/-- The tasks a call has started. -/
def startedBy (r : Nat) : List Nat := s.log.filterMap (Happening.taskOf r)

/-- A thread calls the loop from outside or from code that a call of it runs. -/
def mayCall (thread : Nat) : Bool :=
  s.rounds.all fun round =>
    round.thread ≠ thread || round.point = .returned || round.point.calling

/-- No later call of the same thread is under way. -/
def innermost (r thread : Nat) : Bool :=
  (s.rounds.drop (r + 1)).all fun later => later.thread ≠ thread || later.point = .returned

def setRound (r : Nat) (round : Round) : State :=
  { s with rounds := s.rounds.set r round }

def post : State :=
  { s with mPostQueue := s.mPostQueue ++ [s.posted], posted := s.posted + 1 }

def enqueueEvent (entry : EventEntry) : State :=
  if Kernel.EventQueue.compresses s.mEventQueue entry.mReceiver entry.mEvent.type then s
  else { s with mEventQueue := Kernel.EventQueue.insertEntry entry s.mEventQueue }

def removePendingEvents (receiver : Nat) : State :=
  { s with mEventQueue := (Kernel.EventQueue.takeEventsFor receiver s.mEventQueue).2 }

/-- `take_post_queue`, at the begin of a call. -/
def takePostQueue (thread : Nat) (call : Call) : State :=
  { s with
    mPostQueue := []
    rounds := s.rounds ++
      [⟨thread, call, .tasks, s.mPostQueue, false, false, s.mPostQueue, s.posted⟩] }

/-- A task leaves the snapshot of a call and is run. -/
def startTask (r : Nat) (round : Round) (t : Nat) (tasks : List Nat) : State :=
  { s with
    rounds := s.rounds.set r { round with point := .task, tasks := tasks }
    log := s.log ++ [.started r t] }

/-- What a call does next. -/
def advance (r : Nat) (round : Round) : Option State :=
  match round.point, round.tasks with
  | .tasks, [] => some (s.setRound r { round with point := .events })
  | .tasks, t :: tasks => some (s.startTask r round t tasks)
  | .task, _ => some (s.setRound r { round with point := .tasks, hadPost := true })
  | .events, _ =>
    match round.call, s.mEventQueue with
    | .destructor, _ =>
      some { s.setRound r { round with point := .returned } with
        mEventQueue := [], life := .dead }
    | .processEvents, [] =>
      some (s.setRound r { round with
        point := if round.hadPost || round.hadEvent then .returned else .polling })
    | .processEvents, entry :: queue =>
      some { s.setRound r { round with point := .event } with
        mEventQueue := queue, log := s.log ++ [.dispatched r entry] }
  | .event, _ => some (s.setRound r { round with point := .events, hadEvent := true })
  | .polling, _ => some (s.setRound r { round with point := .returned })
  | .returned, _ => none

def step (a : Action) : Option State :=
  if s.life = .dead then none
  else match a with
    | .post => some s.post
    | .enqueueEvent entry => some (s.enqueueEvent entry)
    | .removePendingEvents receiver => some (s.removePendingEvents receiver)
    | .processEvents thread =>
      if s.mayCall thread then some (s.takePostQueue thread .processEvents) else none
    | .destroy thread =>
      if s.life = .alive ∧ s.mayCall thread then
        some { s.takePostQueue thread .destructor with life := .destroying }
      else none
    | .advance r =>
      match s.rounds[r]? with
      | none => none
      | some round => if s.innermost r round.thread then s.advance r round else none

/-- The task that a call is about to start. -/
def upcoming (r : Nat) : Option Nat :=
  match s.rounds[r]? with
  | none => none
  | some round => if round.point = .tasks then round.tasks.head? else none

end State

open State

/-- The loop with every thread that posts to it or calls it. -/
def machine : Transition.Machine State Action where
  init := .init
  step := step

/-! ### What a step does -/

/-- The tasks of a call are run before it gets to the events. -/
def Round.Staged (round : Round) : Prop :=
  round.point = .tasks ∨ round.point = .task ∨ round.tasks = []

/-- The effect of a step on the posted tasks. -/
inductive Effect (s : State) : Action → State → Prop where
  | post : Effect s .post s.post
  | other {a : Action} {queue : List EventEntry} (hidle : ∀ r, a ≠ .advance r) :
      Effect s a { s with mEventQueue := queue }
  | take {a : Action} {life : Life} (thread : Nat) (call : Call) (hidle : ∀ r, a ≠ .advance r) :
      Effect s a { s.takePostQueue thread call with life := life }
  | move {r : Nat} {round round' : Round} {queue : List EventEntry} {life : Life}
      (hround : s.rounds[r]? = some round) (htasks : round'.tasks = round.tasks)
      (hsnapshot : round'.snapshot = round.snapshot)
      (hbefore : round'.postedBefore = round.postedBefore)
      (hstaged : round.Staged → round'.Staged) (hnone : s.upcoming r = none) :
      Effect s (.advance r) { s.setRound r round' with mEventQueue := queue, life := life }
  | start {r t : Nat} {round : Round} {tasks : List Nat} (hround : s.rounds[r]? = some round)
      (htasks : round.tasks = t :: tasks) (hnext : s.upcoming r = some t) :
      Effect s (.advance r) (s.startTask r round t tasks)
  | dispatch {r : Nat} {round : Round} {entry : EventEntry} {queue : List EventEntry}
      (hround : s.rounds[r]? = some round) (hpoint : round.point = .events) :
      Effect s (.advance r) { s.setRound r { round with point := .event } with
        mEventQueue := queue, log := s.log ++ [.dispatched r entry] }

variable {s : State} {r t : Nat} {round : Round} {a : Action}

theorem State.upcoming_eq (h : s.rounds[r]? = some round) :
    s.upcoming r = if round.point = .tasks then round.tasks.head? else none := by
  rw [upcoming, h]

theorem State.upcoming_eq_some (h : s.upcoming r = some t) :
    ∃ round tasks, s.rounds[r]? = some round ∧ round.tasks = t :: tasks := by
  unfold upcoming at h
  split at h
  · cases h
  next round hround =>
    split at h
    · exact ⟨round, _, hround, head?_eq_some_iff.mp h |>.choose_spec⟩
    · cases h

theorem Round.Staged.tasks_eq_nil (h : round.Staged)
    (htasks : round.point ≠ .tasks) (htask : round.point ≠ .task) : round.tasks = [] := by
  rcases h with hpoint | hpoint | hnil
  · exact absurd hpoint htasks
  · exact absurd hpoint htask
  · exact hnil

/-- A call that has left the loop over its tasks only moves to another point. -/
theorem Effect.later {point : Point} {hadEvent : Bool}
    {queue : List EventEntry} {life : Life} (hround : s.rounds[r]? = some round)
    (htasks : round.point ≠ .tasks) (htask : round.point ≠ .task) :
    Effect s (.advance r)
      { s.setRound r { round with point := point, hadEvent := hadEvent } with
        mEventQueue := queue, life := life } :=
  .move hround rfl rfl rfl (fun h => .inr (.inr (h.tasks_eq_nil htasks htask)))
    (by rw [upcoming_eq hround, if_neg htasks])

variable {s' : State}

theorem advance_effect (hround : s.rounds[r]? = some round) (h : s.advance r round = some s') :
    Effect s (.advance r) s' := by
  have hnext := upcoming_eq hround
  have hother {p : Point} (hpoint : round.point = p) (h₁ : p ≠ .tasks) (h₂ : p ≠ .task) :
      round.point ≠ .tasks ∧ round.point ≠ .task := by
    rw [hpoint]
    exact ⟨h₁, h₂⟩
  unfold advance at h
  split at h
  case h_1 hpoint htasks =>
    cases h
    rw [if_pos hpoint, htasks] at hnext
    exact .move hround rfl rfl rfl (fun _ => .inr (.inr htasks)) hnext
  case h_2 hpoint htasks =>
    cases h
    rw [if_pos hpoint, htasks] at hnext
    exact .start hround htasks hnext
  case h_3 hpoint =>
    cases h
    rw [hpoint] at hnext
    exact .move hround rfl rfl rfl (fun _ => .inl rfl) hnext
  case h_4 hpoint =>
    obtain ⟨h₁, h₂⟩ := hother hpoint nofun nofun
    split at h
    · cases h
      exact .later hround h₁ h₂
    · cases h
      exact .later hround h₁ h₂
    · cases h
      exact .dispatch hround hpoint
  case h_5 hpoint =>
    obtain ⟨h₁, h₂⟩ := hother hpoint nofun nofun
    cases h
    exact .later hround h₁ h₂
  case h_6 hpoint =>
    obtain ⟨h₁, h₂⟩ := hother hpoint nofun nofun
    cases h
    exact .later hround h₁ h₂
  case h_7 => cases h

theorem step_effect (h : s.step a = some s') : Effect s a s' := by
  unfold step at h
  split at h
  · cases h
  · cases a with
    | post =>
      cases h
      exact .post
    | enqueueEvent entry =>
      cases h
      unfold enqueueEvent
      split
      · exact .other nofun
      · exact .other nofun
    | removePendingEvents receiver =>
      cases h
      exact .other nofun
    | processEvents thread =>
      dsimp only at h
      split at h
      · cases h
        exact .take thread .processEvents nofun
      · cases h
    | destroy thread =>
      dsimp only at h
      split at h
      · cases h
        exact .take thread .destructor nofun
      · cases h
    | advance r =>
      dsimp only at h
      split at h
      · cases h
      next round hround =>
        split at h
        · exact advance_effect hround h
        · cases h

/-! ### Where the tasks are -/

section Log

variable {entry : EventEntry}

theorem mem_startedBy : t ∈ s.startedBy r ↔ .started r t ∈ s.log := by
  unfold startedBy
  rw [mem_filterMap]
  constructor
  · rintro ⟨x, hx, hxt⟩
    cases x with
    | started r' t' =>
      obtain ⟨rfl, rfl⟩ : r' = r ∧ t' = t := by simpa [Happening.taskOf] using hxt
      exact hx
    | dispatched r' entry => cases hxt
  · intro h
    exact ⟨_, h, if_pos rfl⟩

@[simp] theorem started_log_started (rounds : List Round) :
    started { s with rounds := rounds, log := s.log ++ [.started r t] } =
      s.started ++ [t] := by
  simp [started, Happening.task]

@[simp] theorem started_log_dispatched :
    started { s with log := s.log ++ [.dispatched r entry] } = s.started := by
  simp [started, Happening.task]

@[simp] theorem startedBy_log_started (rounds : List Round) (r' : Nat) :
    startedBy { s with rounds := rounds, log := s.log ++ [.started r t] } r' =
      s.startedBy r' ++ if r = r' then [t] else [] := by
  unfold startedBy
  split <;> simp [Happening.taskOf, *]

@[simp] theorem startedBy_log_dispatched (r' : Nat) :
    startedBy { s with log := s.log ++ [.dispatched r entry] } r' = s.startedBy r' := by
  simp [startedBy, Happening.taskOf]

end Log

/-- What a step starts is the task the call was about to start. -/
theorem step_started (h : s.step a = some s') : s.posted ≤ s'.posted ∧
      (s'.started = s.started ∧ (∀ r, a = .advance r → s.upcoming r = none) ∨
        ∃ r t, a = .advance r ∧ s.upcoming r = some t ∧ s'.started = s.started ++ [t]) := by
  cases step_effect h with
  | post => exact ⟨Nat.le_succ _, .inl ⟨rfl, nofun⟩⟩
  | other hidle => exact ⟨Nat.le_refl _, .inl ⟨rfl, fun r hr => absurd hr (hidle r)⟩⟩
  | take thread call hidle =>
    exact ⟨Nat.le_refl _, .inl ⟨rfl, fun r hr => absurd hr (hidle r)⟩⟩
  | move hround htasks hsnapshot hbefore hstaged hnone =>
    refine ⟨Nat.le_refl _, .inl ⟨rfl, ?_⟩⟩
    rintro _ ⟨⟩
    exact hnone
  | start hround htasks hnext =>
    exact ⟨Nat.le_refl _, .inr ⟨_, _, rfl, hnext, started_log_started _⟩⟩
  | dispatch hround hpoint =>
    refine ⟨Nat.le_refl _, .inl ⟨started_log_dispatched, ?_⟩⟩
    rintro _ ⟨⟩
    rw [upcoming_eq hround, hpoint]
    rfl

theorem step_upcoming (h : s.step (.advance r) = some s')
    (hnext : s.upcoming r = some t) : s'.started = s.started ++ [t] := by
  obtain ⟨-, ⟨-, hnone⟩ | ⟨r', t', hr, hnext', hstarted⟩⟩ := step_started h
  · rw [hnone r rfl] at hnext
    cases hnext
  · cases hr
    cases hnext.symm.trans hnext'
    exact hstarted

theorem step_started_subset (h : s.step a = some s') (ht : t ∈ s.started) : t ∈ s'.started := by
  obtain ⟨-, ⟨hsame, -⟩ | ⟨r, u, -, -, hmore⟩⟩ := step_started h
  · rwa [hsame]
  · rw [hmore]
    exact mem_append_left _ ht

/-- A call has started the tasks of its snapshot up to those it has left, and took them
before any later post. -/
structure Round.Sound (round : Round) (started : List Nat) : Prop where
  split : round.snapshot = started ++ round.tasks
  sorted : round.snapshot.Pairwise (· < ·)
  before : ∀ t ∈ round.snapshot, t < round.postedBefore
  staged : round.Staged

theorem Round.Sound.tasks_eq_nil {started : List Nat}
    (h : round.Sound started) (hpoint : round.point = .events) : round.tasks = [] := by
  refine h.staged.tasks_eq_nil ?_ ?_
  · rw [hpoint]
    nofun
  · rw [hpoint]
    nofun

/-- Every posted task is at one place: started, left in a call, or in the queue. -/
structure State.Sound (s : State) : Prop where
  placed : (s.started ++ (s.rounds.flatMap Round.tasks ++ s.mPostQueue)).Perm
    (List.range s.posted)
  rounds : ∀ (r : Nat) (round : Round), s.rounds[r]? = some round →
    round.Sound (s.startedBy r)
  queued : s.mPostQueue.Pairwise (· < ·)
  marks : (s.rounds.map Round.postedBefore).Pairwise (· ≤ ·)
  later : ∀ mark ∈ s.rounds.map Round.postedBefore,
    mark ≤ s.posted ∧ ∀ t ∈ s.mPostQueue, mark ≤ t
  known : ∀ x ∈ s.log, x.round < s.rounds.length

theorem init_sound : init.Sound where
  placed := .refl _
  rounds := by intro r round h; cases h
  queued := .nil
  marks := .nil
  later := by intro mark h; cases h
  known := by intro x h; cases h

namespace State.Sound

section

variable (h : s.Sound)

include h

theorem startedBy_length : s.startedBy s.rounds.length = [] := by
  apply eq_nil_iff_forall_not_mem.mpr
  intro t ht
  exact Nat.lt_irrefl _ (h.known _ (mem_startedBy.mp ht))

theorem queued_lt (ht : t ∈ s.mPostQueue) : t < s.posted := by
  have hmem := h.placed.mem_iff.mp (mem_append_right _ (mem_append_right _ ht))
  exact mem_range.mp hmem

theorem withEvents (queue : List EventEntry) (life : Life) :
    State.Sound { s with mEventQueue := queue, life := life } :=
  ⟨h.placed, h.rounds, h.queued, h.marks, h.later, h.known⟩

theorem post : s.post.Sound where
  placed := by
    have hplaced := h.placed.append_right [s.posted]
    rw [← range_succ, append_assoc, append_assoc] at hplaced
    exact hplaced
  rounds := h.rounds
  queued := pairwise_append.mpr ⟨h.queued, pairwise_singleton _ _, by
    intro t ht u hu
    rw [mem_singleton.mp hu]
    exact h.queued_lt ht⟩
  marks := h.marks
  later := by
    intro mark hmark
    obtain ⟨hle, hqueue⟩ := h.later mark hmark
    exact ⟨Nat.le_succ_of_le hle, forall_mem_append.mpr ⟨hqueue, forall_mem_singleton.mpr hle⟩⟩
  known := h.known

theorem takePostQueue (thread : Nat) (call : Call) : (s.takePostQueue thread call).Sound where
  placed := by
    unfold State.takePostQueue
    rw [flatMap_append, flatMap_singleton, append_nil]
    exact h.placed
  rounds := by
    intro r round hround
    rcases Nat.lt_trichotomy r s.rounds.length with hr | rfl | hr
    · rw [State.takePostQueue, getElem?_append_left hr] at hround
      exact h.rounds r round hround
    · rw [State.takePostQueue, getElem?_concat_length] at hround
      cases hround
      have hnone : (s.takePostQueue thread call).startedBy s.rounds.length = [] :=
        h.startedBy_length
      rw [hnone]
      exact ⟨rfl, h.queued, fun t ht => h.queued_lt ht, .inl rfl⟩
    · rw [State.takePostQueue, getElem?_eq_none (by simp; omega)] at hround
      cases hround
  queued := .nil
  marks := by
    unfold State.takePostQueue
    rw [map_append]
    refine pairwise_append.mpr ⟨h.marks, pairwise_singleton _ _, ?_⟩
    intro mark hmark mark' hmark'
    rw [mem_singleton.mp hmark']
    exact (h.later mark hmark).1
  later := by
    intro mark hmark
    refine ⟨?_, fun t ht => by cases ht⟩
    unfold State.takePostQueue at hmark
    rw [map_append] at hmark
    rcases mem_append.mp hmark with hmark | hmark
    · exact (h.later mark hmark).1
    · exact Nat.le_of_eq (mem_singleton.mp hmark)
  known := by
    intro x hlog
    rw [State.takePostQueue, length_append]
    exact Nat.lt_add_right _ (h.known x hlog)

/-- A call moves on without starting a task. -/
theorem setRound {round' : Round} (hround : s.rounds[r]? = some round)
    (htasks : round'.tasks = round.tasks) (hsnapshot : round'.snapshot = round.snapshot)
    (hbefore : round'.postedBefore = round.postedBefore)
    (hstaged : round.Staged → round'.Staged) : (s.setRound r round').Sound where
  placed := by
    rw [State.setRound, flatMap_def, map_set_of_eq hround htasks]
    exact h.placed
  rounds := by
    intro i round'' hi
    obtain ⟨rfl, rfl⟩ | ⟨-, hi⟩ := getElem?_set_cases hi
    · have hsound := h.rounds i round hround
      refine ⟨?_, ?_, ?_, hstaged hsound.staged⟩
      · rw [hsnapshot, htasks]
        exact hsound.split
      · rw [hsnapshot]
        exact hsound.sorted
      · rw [hsnapshot, hbefore]
        exact hsound.before
    · exact h.rounds i round'' hi
  queued := h.queued
  marks := by
    rw [State.setRound, map_set_of_eq hround hbefore]
    exact h.marks
  later := by
    rw [State.setRound, map_set_of_eq hround hbefore]
    exact h.later
  known := by
    rw [State.setRound, length_set]
    exact h.known

theorem dispatched (hr : r < s.rounds.length) (entry : EventEntry) :
    State.Sound { s with log := s.log ++ [.dispatched r entry] } where
  placed := by
    rw [started_log_dispatched]
    exact h.placed
  rounds := by
    intro i round hround
    rw [startedBy_log_dispatched]
    exact h.rounds i round hround
  queued := h.queued
  marks := h.marks
  later := h.later
  known := by
    exact forall_mem_append.mpr ⟨h.known, forall_mem_singleton.mpr hr⟩

theorem startTask {tasks : List Nat} (hround : s.rounds[r]? = some round)
    (htasks : round.tasks = t :: tasks) : (s.startTask r round t tasks).Sound := by
  have hsound := h.rounds r round hround
  have hmarks : (s.startTask r round t tasks).rounds.map Round.postedBefore =
      s.rounds.map Round.postedBefore := map_set_of_eq hround rfl
  refine ⟨?_, ?_, h.queued, ?_, ?_, ?_⟩
  · have hperm := flatMap_perm_set
      (b := { round with point := .task, tasks := tasks }) hround htasks
    rw [State.startTask, started_log_started, append_assoc]
    refine .trans (.append_left _ ?_) h.placed
    exact (hperm.append_right _).symm
  · intro i round' hi
    rw [State.startTask, startedBy_log_started]
    obtain ⟨rfl, rfl⟩ | ⟨hir, hi⟩ := getElem?_set_cases hi
    · refine ⟨?_, hsound.sorted, hsound.before, .inr (.inl rfl)⟩
      rw [if_pos rfl, append_assoc]
      exact hsound.split.trans (by rw [htasks]; rfl)
    · rw [if_neg hir.symm, append_nil]
      exact h.rounds i round' hi
  · rw [hmarks]
    exact h.marks
  · rw [hmarks]
    exact h.later
  · intro x hlog
    rw [State.startTask, length_set]
    rcases mem_append.mp hlog with hlog | hlog
    · exact h.known x hlog
    · rw [mem_singleton.mp hlog]
      exact (List.getElem?_eq_some_iff.mp hround).1

theorem effect {s' : State} {a : Action} (heffect : Effect s a s') : s'.Sound := by
  cases heffect with
  | post => exact h.post
  | other => exact h.withEvents _ _
  | take thread call => exact (h.takePostQueue thread call).withEvents _ _
  | move hround htasks hsnapshot hbefore hstaged =>
    exact (h.setRound hround htasks hsnapshot hbefore hstaged).withEvents _ _
  | start hround htasks => exact h.startTask hround htasks
  | @dispatch r round entry queue hround hpoint =>
    have hempty := (h.rounds r round hround).tasks_eq_nil hpoint
    have hmoved : (s.setRound r { round with point := .event }).Sound :=
      h.setRound hround rfl rfl rfl fun _ => .inr (.inr hempty)
    refine (hmoved.withEvents queue s.life).dispatched ?_ entry
    rw [State.setRound, length_set]
    exact (List.getElem?_eq_some_iff.mp hround).1

end

end State.Sound

/-- No task is lost while the loop lives, and none is at two places. Whether the tasks run in order
is another matter, and depends on the run. -/
theorem always_sound (as : List Action) : machine.Always State.Sound .init as :=
  Transition.Machine.always_of_step (fun _ _ _ h hstep => h.effect (step_effect hstep))
    init_sound as

end CxxKit.PostedTasks
