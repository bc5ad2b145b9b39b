import CxxKit.Thread.PoolThreads

/-!
What the steps of the pool do, case by case.

`Placed` lists the ways in which the pool finds a place for a task and `Turn`
what a worker does between two points at which it gives up the mutex.  The
theorems at the end say that every step is one of these, or a call that touches
neither the threads nor the lists.  The invariants are proved over the cases.
-/

namespace CxxKit.ThreadPool

open State

open List Option

variable {s t : State} {tid : Nat} {th : Thread} {task : Task} {a : Label}

/-! ### Placing a task -/

/-- The branches of `try_start` that succeed. -/
inductive Started (s : State) (task : Task) : State → Prop where
  | startThread (h : s.mAllThreads = [] ∨ s.activeThreadCount < s.mMaxThreadCount) :
      Started s task (s.startThread task)
  | recycleThread {tid : Nat} {rest : List Nat} (below : s.activeThreadCount < s.mMaxThreadCount)
      (waiting : s.mWaitingThreads = tid :: rest) : Started s task (s.recycleThread task)
  | restartThread {tid : Nat} {rest : List Nat} (below : s.activeThreadCount < s.mMaxThreadCount)
      (expired : s.mExpiredThreads = tid :: rest) : Started s task (s.restartThread tid task)

/-- The branches of `start`. -/
inductive Placed (s : State) (task : Task) : State → Prop where
  | started {t : State} (h : Started s task t) : Placed s task t
  | handOver {tid : Nat} {rest : List Nat} (all : s.mAllThreads ≠ [])
      (limit : s.mMaxThreadCount ≤ s.activeThreadCount)
      (waiting : s.mWaitingThreads = tid :: rest) :
      Placed s task (setTask { s with mWaitingThreads := rest } tid task)
  | enqueue (priority : Priority) (all : s.mAllThreads ≠ [])
      (limit : s.mMaxThreadCount ≤ s.activeThreadCount) (waiting : s.mWaitingThreads = []) :
      Placed s task (s.enqueueTask task priority)

theorem tryStart_started (h : s.tryStart task = some t) : Started s task t := by
  unfold tryStart at h
  split at h
  next hall =>
    cases h
    exact .startThread (.inl (isEmpty_iff.mp hall))
  · split at h
    · cases h
    next hlimit =>
      have hbelow := Int.not_le.mp hlimit
      split at h
      next hwaiting =>
        obtain ⟨tid, rest, heq⟩ := exists_cons_of_ne_nil hwaiting
        cases h
        exact .recycleThread hbelow heq
      · split at h
        next heq =>
          cases h
          exact .restartThread hbelow heq
        · cases h
          exact .startThread (.inr hbelow)

theorem tryStart_refused (h : s.tryStart task = none) :
    s.mAllThreads ≠ [] ∧ s.mMaxThreadCount ≤ s.activeThreadCount := by
  unfold tryStart at h
  split at h
  · cases h
  next hall =>
    rw [List.isEmpty_iff] at hall
    split at h
    next hlimit =>
      exact ⟨hall, hlimit⟩
    · split at h
      · cases h
      · split at h <;> cases h

theorem start_placed (object : Nat) (priority : Priority) :
    Placed { s with calls := s.calls + 1 } (s.newTask object) (s.start object priority) := by
  unfold start
  dsimp only
  split
  next hstart =>
    exact .started (tryStart_started hstart)
  next hrefused =>
    obtain ⟨hall, hlimit⟩ := tryStart_refused hrefused
    unfold handOver
    split
    next hwaiting =>
      exact .handOver hall hlimit hwaiting
    next hwaiting =>
      exact .enqueue priority hall hlimit hwaiting

theorem tryStartNow_started (object : Nat) : s.tryStartNow object = s ∨
    Started { s with calls := s.calls + 1 } (s.newTask object) (s.tryStartNow object) := by
  unfold tryStartNow
  split
  · exact .inl rfl
  · split
    next hstart =>
      exact .inr (tryStart_started hstart)
    · exact .inl rfl

/-- **Rule for the loop of `try_to_start_more_threads`.** What a round keeps that places the
first task and pops it, the loop keeps. -/
theorem startMore_induct {P : State → Prop}
    (hround : ∀ s task t, P s → s.mTaskQueue.first = some task → Started s task t →
      P { t with mTaskQueue := t.mTaskQueue.pop.2 })
    (rounds : Nat) {s : State} (h : P s) : P (startMore rounds s) := by
  induction rounds generalizing s with
  | zero => exact h
  | succ rounds ih =>
    rw [startMore]
    split
    · exact h
    next task hfirst =>
      split
      · exact h
      next t hstart =>
        exact ih (hround s task t h hfirst (tryStart_started hstart))

/-! ### A worker's turn -/

/-- The count with the thread in it, whether or not it was counted before. -/
def State.counting (s : State) (th : Thread) : State :=
  { s with mActiveThreadCount := s.mActiveThreadCount + (!th.isActive).toNat }

theorem State.counting_of_active (h : th.isActive = true) : s.counting th = s := by
  simp [counting, h]

theorem State.counting_of_waiting (h : th.isActive = false) :
    s.counting th = { s with mActiveThreadCount := s.mActiveThreadCount + 1 } := by
  simp [counting, h]

/-- The thread is where it looks for a task. -/
def Thread.Seeking (th : Thread) : Prop :=
  th.place = .entering ∨ th.place = .ran ∨ th.place = .waiting

/-- What the thread `tid` does in one step of its own. -/
inductive Turn (s : State) (tid : Nat) (th : Thread) : State → Prop where
  | enters (place : th.place = .created) :
      Turn s tid th (s.setThread tid { th with mExit := false, place := .entering })
  /-- It runs the task that was put in its slot. -/
  | own (task : Task) (seeking : th.Seeking) (all : tid ∈ s.mAllThreads)
      (waiting : tid ∉ s.mWaitingThreads) (slot : th.mTask = some task) :
      Turn s tid th ((s.counting th).beginTask tid { th with mTask := none } task)
  /-- It runs the first task of the queue. -/
  | popped (task : Task) (seeking : th.Seeking) (all : tid ∈ s.mAllThreads)
      (waiting : tid ∉ s.mWaitingThreads) (slot : th.mTask = none)
      (few : s.isTooManyThreadsActive = false)
      (first : s.mTaskQueue.first = some task) :
      Turn s tid th (beginTask
        { s.counting th with mTaskQueue := s.mTaskQueue.pop.2 } tid th task)
  | waits (seeking : th.Seeking) (all : tid ∈ s.mAllThreads)
      (waiting : tid ∉ s.mWaitingThreads) (slot : th.mTask = none)
      (few : s.isTooManyThreadsActive = false) (empty : s.mTaskQueue.mTasks = []) :
      Turn s tid th ((s.counting th).waitForTask tid th)
  | expires (seeking : th.Seeking) (all : tid ∈ s.mAllThreads)
      (waiting : tid ∉ s.mWaitingThreads) (slot : th.mTask = none)
      (many : s.isTooManyThreadsActive = true) :
      Turn s tid th ((s.counting th).expire tid th)
  /-- Its expiry timeout ran out. -/
  | timesOut (place : th.place = .waiting) (waiting : tid ∈ s.mWaitingThreads) :
      Turn s tid th (expire { s with
        mActiveThreadCount := s.mActiveThreadCount + 1
        mWaitingThreads := s.mWaitingThreads.erase tid } tid th)
  /-- `reset` has taken it out of the pool. -/
  | leaves (place : th.place = .waiting) (all : tid ∉ s.mAllThreads) :
      Turn s tid th (setThread (registerThreadInactive { s with
        mActiveThreadCount := s.mActiveThreadCount + 1
        mWaitingThreads := s.mWaitingThreads.erase tid }) tid { th with place := .exited })
  | returns (task : Task) (place : th.place = .running task) :
      Turn s tid th { s.setThread tid { th with place := .ran } with
        finished := s.finished ++ [task.call] }

/-- A thread that goes through the inner loop with no task in hand. -/
theorem takeNextTask_turn (hexit : th.mExit = false) (hseeking : th.Seeking)
    (hall : tid ∈ s.mAllThreads) (hwaiting : tid ∉ s.mWaitingThreads) (hslot : th.mTask = none) :
    Turn s tid th ((s.counting th).takeNextTask tid th) := by
  unfold takeNextTask leaveTaskLoop
  rw [hexit]
  split
  next hmany =>
    rw [if_pos (by rw [hmany]; rfl)]
    exact .expires hseeking hall hwaiting hslot hmany
  next hfew =>
    have hfew : s.isTooManyThreadsActive = false := Bool.eq_false_iff.mpr hfew
    cases hfirst : s.mTaskQueue.first with
    | none =>
      have hpop : (s.counting th).mTaskQueue.pop = (none, s.mTaskQueue) := by
        change s.mTaskQueue.pop = _
        rw [TaskQueue.pop, hfirst]
      have hsame : (s.counting th).isTooManyThreadsActive = s.isTooManyThreadsActive := rfl
      rw [hpop]
      rw [hsame, hfew]
      exact .waits hseeking hall hwaiting hslot hfew (TaskQueue.first_eq_none.mp hfirst)
    | some task =>
      have hpop : (s.counting th).mTaskQueue.pop = (some task, s.mTaskQueue.pop.2) := by
        change s.mTaskQueue.pop = _
        rw [TaskQueue.pop_of_first hfirst]
      rw [hpop]
      exact .popped task hseeking hall hwaiting hslot hfew hfirst

/-- A thread of the pool at the head of the outer loop. -/
theorem runLoop_turn (hexit : th.mExit = false) (hseeking : th.Seeking)
    (hall : tid ∈ s.mAllThreads) (hwaiting : tid ∉ s.mWaitingThreads) :
    Turn s tid th ((s.counting th).runLoop tid th) := by
  rw [runLoop, if_neg (by simp [hexit])]
  cases hslot : th.mTask with
  | some task => exact .own task hseeking hall hwaiting hslot
  | none => exact takeNextTask_turn hexit hseeking hall hwaiting hslot

theorem wakeUp_turn (h : s.Sound) (hth : s.threads[tid]? = some th) (hplace : th.place = .waiting) :
    Turn s tid th (s.wakeUp tid th) := by
  have hfits := h.fits tid th hth
  rw [Thread.Fits, hplace] at hfits
  unfold wakeUp
  split
  next hall =>
    exact .leaves hplace hall
  next hall =>
    have hall : tid ∈ s.mAllThreads := not_not.mp hall
    split
    next hwaiting =>
      exact .timesOut hplace hwaiting
    next hwaiting =>
      rw [erase_of_not_mem hwaiting]
      have hidle : th.isActive = false := by simp [Thread.isActive, hplace]
      have hturn := runLoop_turn (hfits.2.2 hall) (.inr (.inr hplace)) hall hwaiting
      rw [counting_of_waiting hidle] at hturn
      exact hturn

theorem lock_turn (h : s.Sound) (hth : s.threads[tid]? = some th) (hplace : th.place = .entering) :
    Turn s tid th (s.runLoop tid th) := by
  have hfits := h.fits tid th hth
  rw [Thread.Fits, hplace] at hfits
  have hactive : th.isActive = true := by simp [Thread.isActive, hplace]
  have hturn := runLoop_turn hfits.2.2.2 (.inl hplace) hfits.1 hfits.2.1
  rw [counting_of_active hactive] at hturn
  exact hturn

theorem relock_turn (h : s.Sound) (hth : s.threads[tid]? = some th) (hplace : th.place = .ran) :
    Turn s tid th (s.takeNextTask tid th) := by
  have hfits := h.fits tid th hth
  rw [Thread.Fits, hplace] at hfits
  have hactive : th.isActive = true := by simp [Thread.isActive, hplace]
  have hturn := takeNextTask_turn hfits.2.2.2.1 (.inr (.inl hplace)) hfits.1 hfits.2.1
    hfits.2.2.2.2
  rw [counting_of_active hactive] at hturn
  exact hturn

/-! ### Every step -/

/-- The labels of the workers' steps. -/
def Label.isTurn : Label → Bool
  | .enterRun _ | .lock _ | .taskReturns _ | .relock _ | .wakeUp _ => true
  | _ => false

/-- What a step of the pool does. -/
inductive Effect (s : State) : Label → State → Prop where
  | start {t : State} (object : Nat) (priority : Priority)
      (placed : Placed { s with calls := s.calls + 1 } (s.newTask object) t) :
      Effect s (.start object priority) t
  | tryStartNow {t : State} (object : Nat)
      (started : Started { s with calls := s.calls + 1 } (s.newTask object) t) :
      Effect s (.tryStartNow object) t
  | refused (object : Nat) : Effect s (.tryStartNow object) s
  | cancel (object : Nat) : Effect s (.cancel object) (s.cancel object)
  | clear : Effect s .clear s.clear
  | setMaxThreadCount (count : Int) :
      Effect s (.setMaxThreadCount count) (s.setMaxThreadCount count)
  | reserveThread : Effect s .reserveThread s.reserveThread
  | releaseThread : Effect s .releaseThread s.releaseThread
  | waitForDone (forever : Bool) : Effect s (.waitForDone forever)
      { s with waiters := s.waiters ++ [⟨forever, s.calls, .waiting⟩] }
  | turn {t : State} {a : Label} (tid : Nat) (th : Thread) (label : a.isTurn = true)
      (thread : s.threads[tid]? = some th) (turn : Turn s tid th t) : Effect s a t
  | testDone {t : State} (w : Nat) (waiter : Waiter) (found : s.waiters[w]? = some waiter)
      (phase : waiter.phase = .waiting) (test : s.testDone w waiter = some t) :
      Effect s (.testDone w) t
  | stopThread (w : Nat) (waiter : Waiter) (tid : Nat) (rest : List Nat) (th : Thread)
      (found : s.waiters[w]? = some waiter) (phase : waiter.phase = .stopping (tid :: rest))
      (thread : s.threads[tid]? = some th) :
      Effect s (.stopThread w) ((s.setThread tid { th with mExit := true }).setWaiter w
        { waiter with phase := .joining tid rest })
  | joinThread (w : Nat) (waiter : Waiter) (tid : Nat) (rest : List Nat)
      (found : s.waiters[w]? = some waiter) (phase : waiter.phase = .joining tid rest) :
      Effect s (.joinThread w) (s.setWaiter w { waiter with phase := .stopping rest })
  | afterReset (w : Nat) (waiter : Waiter) (timeLeft : Bool)
      (found : s.waiters[w]? = some waiter) (phase : waiter.phase = .stopping []) :
      Effect s (.afterReset w timeLeft) (s.afterReset w waiter timeLeft)

/-- A worker's step, its place known. -/
theorem turn_effect {f : Thread → Option State} (label : a.isTurn = true)
    (hturn : ∀ th u, s.threads[tid]? = some th → f th = some u → Turn s tid th u)
    (h : s.worker tid f = some t) : Effect s a t := by
  obtain ⟨th, hth, hf⟩ := bind_eq_some_iff.mp h
  exact .turn tid th label hth (hturn th t hth hf)

theorem step_effect (hs : s.Sound) (h : step s a = some t) : Effect s a t := by
  cases a with
  | start object priority =>
    cases h
    exact .start object priority (start_placed object priority)
  | tryStartNow object =>
    cases h
    rcases tryStartNow_started object with heq | hstarted
    · rw [heq]
      exact .refused object
    · exact .tryStartNow object hstarted
  | cancel object =>
    cases h
    exact .cancel object
  | clear =>
    cases h
    exact .clear
  | setMaxThreadCount count =>
    cases h
    exact .setMaxThreadCount count
  | reserveThread =>
    cases h
    exact .reserveThread
  | releaseThread =>
    cases h
    exact .releaseThread
  | waitForDone forever =>
    cases h
    exact .waitForDone forever
  | enterRun tid =>
    apply turn_effect rfl _ h
    intro th u hth hu
    split at hu
    next hplace =>
      cases hu
      exact .enters hplace
    · cases hu
  | lock tid =>
    apply turn_effect rfl _ h
    intro th u hth hu
    split at hu
    next hplace =>
      cases hu
      exact lock_turn hs hth hplace
    · cases hu
  | taskReturns tid =>
    apply turn_effect rfl _ h
    intro th u hth hu
    split at hu
    next hplace =>
      cases hu
      exact .returns _ hplace
    · cases hu
  | relock tid =>
    apply turn_effect rfl _ h
    intro th u hth hu
    split at hu
    next hplace =>
      cases hu
      exact relock_turn hs hth hplace
    · cases hu
  | wakeUp tid =>
    apply turn_effect rfl _ h
    intro th u hth hu
    split at hu
    next hplace =>
      cases hu
      exact wakeUp_turn hs hth hplace
    · cases hu
  | testDone w =>
    obtain ⟨waiter, hfound, h⟩ := bind_eq_some_iff.mp h
    split at h
    next hphase =>
      exact .testDone w waiter hfound hphase h
    · cases h
  | stopThread w =>
    obtain ⟨waiter, hfound, h⟩ := bind_eq_some_iff.mp h
    split at h
    next tid rest hphase =>
      obtain ⟨th, hth, rfl⟩ := map_eq_some_iff.mp h
      exact .stopThread w waiter tid rest th hfound hphase hth
    · cases h
  | joinThread w =>
    obtain ⟨waiter, hfound, h⟩ := bind_eq_some_iff.mp h
    split at h
    next tid rest hphase =>
      obtain ⟨th, hth, h⟩ := bind_eq_some_iff.mp h
      split at h
      · cases h
        exact .joinThread w waiter tid rest hfound hphase
      · cases h
    · cases h
  | afterReset w timeLeft =>
    obtain ⟨waiter, hfound, h⟩ := bind_eq_some_iff.mp h
    split at h
    next hphase =>
      cases h
      exact .afterReset w waiter timeLeft hfound hphase
    · cases h

end CxxKit.ThreadPool
