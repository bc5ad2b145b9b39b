import CxxKit.Thread.PoolSound

/-!
Where the accepted tasks are.

An accepted task is in the queue, in the slot of a thread, running, finished or
removed, and in one of these places only (`Accounted`).  A thread that leaves
the pool keeps what is in its slot: such a task is accounted for, but nobody
will run it.
-/

namespace CxxKit.ThreadPool

open Indexed List Option State TaskQueue Thread

variable {s t : State} {tid n : Nat} {th th' : Thread} {task : Task}

/-- The thread has the task of the call `n` in its slot. -/
def Thread.holds (n : Nat) (th : Thread) : Bool := th.mTask.any fun task => task.call == n

/-- The thread runs the task of the call `n`. -/
def Thread.runs (n : Nat) (th : Thread) : Bool :=
  match th.place with
  | .running task => task.call == n
  | _ => false

/-- How often the call `n` is waiting to be run. -/
def State.pending (s : State) (n : Nat) : Nat :=
  s.mTaskQueue.entries n + s.threads.countP (holds n)

def State.running (s : State) (n : Nat) : Nat := s.threads.countP (runs n)

def State.begunCount (s : State) (n : Nat) : Nat := s.begun.countP fun b => b.task.call == n

structure State.Accounted (s : State) : Prop where
  placed : ∀ n, s.pending n + s.running n + s.finished.count n + s.removed.count n =
    if n < s.calls then 1 else 0
  begun : ∀ n, s.begunCount n = s.running n + s.finished.count n

theorem accounted_initial (ideal : Int) : (initial ideal).Accounted := by
  constructor <;> intro n <;> simp [initial, pending, running, begunCount,
    entries]

/-! ### Placing a task -/

/-- The two states differ in one more pending entry for `task`. -/
structure Adds (s : State) (task : Task) (t : State) : Prop where
  pending : ∀ n, t.pending n = s.pending n + if task.call = n then 1 else 0
  running : ∀ n, t.running n = s.running n
  finished : t.finished = s.finished
  removed : t.removed = s.removed
  begun : t.begun = s.begun
  calls : t.calls = s.calls
  waiters : t.waiters = s.waiters

theorem holds_some (mExit : Bool) (place : Place) :
    (holds n ⟨some task, mExit, place⟩).toNat = if task.call = n then 1 else 0 := by
  simp only [holds, any_some, Bool.toNat, cond_eq_ite, beq_iff_eq]

theorem holds_none (h : th.mTask = none) : holds n th = false := by
  simp [holds, h]

theorem Adds.startThread : Adds s task (s.startThread task) := by
  refine ⟨?_, ?_, rfl, rfl, rfl, rfl, rfl⟩
  · intro n
    change _ + (s.threads ++ [_]).countP (holds n) = _
    rw [countP_append, countP_singleton, ← Nat.add_assoc, ← holds_some true .created,
      Bool.toNat, cond_eq_ite]
    rfl
  · intro n
    change (s.threads ++ [_]).countP (runs n) = _
    rw [countP_append]
    rfl

theorem Adds.enqueue (priority : Priority) : Adds s task (s.enqueueTask task priority) := by
  refine ⟨?_, fun _ => rfl, rfl, rfl, rfl, rfl, rfl⟩
  intro n
  unfold State.pending State.enqueueTask
  rw [entries_push]
  exact Nat.add_right_comm ..

/-- Filling the empty slot of a thread that runs nothing, before and after. -/
theorem Adds.fill {place : Place} (hth : s.threads[tid]? = some th) (hslot : th.mTask = none)
    (hidle : ∀ n, th.runs n = false)
    (hplace : ∀ n, runs n ⟨some task, th.mExit, place⟩ = false)
    (hthreads : t.threads = s.threads.set tid ⟨some task, th.mExit, place⟩)
    (hqueue : t.mTaskQueue = s.mTaskQueue) (hfinished : t.finished = s.finished)
    (hremoved : t.removed = s.removed) (hbegun : t.begun = s.begun) (hcalls : t.calls = s.calls)
    (hwaiters : t.waiters = s.waiters) : Adds s task t := by
  refine ⟨?_, ?_, hfinished, hremoved, hbegun, hcalls, hwaiters⟩
  · intro n
    have hcount := countP_set_add (holds n) ⟨some task, th.mExit, place⟩ hth
    rw [holds_none hslot, holds_some] at hcount
    unfold State.pending
    rw [hthreads, hqueue, Nat.add_assoc, ← hcount]
    rfl
  · intro n
    have hcount := countP_set_add (runs n) ⟨some task, th.mExit, place⟩ hth
    rw [hidle n, hplace n] at hcount
    unfold State.running
    rw [hthreads]
    exact hcount

theorem Started.adds (h : s.Sound) (hstarted : Started s task t) : Adds s task t := by
  cases hstarted with
  | startThread => exact .startThread
  | recycleThread =>
    have hadds : Adds s task (s.enqueueTask task .kHighest) := .enqueue .kHighest
    exact ⟨hadds.pending, hadds.running, rfl, rfl, rfl, rfl, rfl⟩
  | @restartThread tid rest _ hexpired =>
    have htid : tid ∈ s.mExpiredThreads := by simp [hexpired]
    obtain ⟨th, hth, hplace, hslot⟩ := h.expired_thread htid
    rw [State.restartThread, hth]
    refine .fill hth hslot ?_ (fun _ => rfl) rfl rfl rfl rfl rfl rfl rfl
    intro n
    simp [runs, hplace]

theorem Placed.adds (h : s.Sound) (hplaced : Placed s task t) : Adds s task t := by
  cases hplaced with
  | started hstarted => exact hstarted.adds h
  | @handOver tid rest _ _ hwaiting =>
    have htid : tid ∈ s.mWaitingThreads := by simp [hwaiting]
    obtain ⟨th, hth, hplace, hslot, -⟩ := h.waiting_thread htid
    rw [setTask, hth]
    refine .fill hth hslot ?_ ?_ rfl rfl rfl rfl rfl rfl rfl
    · intro n
      simp [runs, hplace]
    · intro n
      simp [runs, hplace]
  | enqueue priority => exact .enqueue priority

theorem Started.first (hfirst : s.mTaskQueue.first = some task) (hstarted : Started s task t) :
    t.mTaskQueue.first = some task := by
  cases hstarted with
  | startThread => exact hfirst
  | recycleThread => exact first_push_first hfirst
  | @restartThread tid rest _ hexpired =>
    unfold State.restartThread
    split <;> exact hfirst

/-- A round of `try_to_start_more_threads` uses up a waiting thread or an item. -/
theorem Started.measure (hfirst : s.mTaskQueue.first = some task) (hstarted : Started s task t) :
    t.mTaskQueue.pop.2.mTasks.length + t.mWaitingThreads.length <
      s.mTaskQueue.mTasks.length + s.mWaitingThreads.length := by
  have hpop := length_pop (hstarted.first hfirst)
  cases hstarted with
  | startThread =>
    change _ + s.mWaitingThreads.length < _
    rw [← show s.mTaskQueue.mTasks = (s.startThread task).mTaskQueue.mTasks from rfl] at hpop
    omega
  | @recycleThread tid rest _ hwaiting =>
    have hpush : (s.recycleThread task).mTaskQueue.mTasks.length =
        s.mTaskQueue.mTasks.length + 1 := length_push
    have hrest : (s.recycleThread task).mWaitingThreads = rest := by
      change s.mWaitingThreads.tail = rest
      rw [hwaiting, tail_cons]
    rw [hrest, hwaiting, length_cons]
    omega
  | @restartThread tid rest _ hexpired =>
    have hqueue : (s.restartThread tid task).mTaskQueue = s.mTaskQueue := by
      unfold State.restartThread
      split <;> rfl
    have hwaiting : (s.restartThread tid task).mWaitingThreads = s.mWaitingThreads := by
      unfold State.restartThread
      split <;> rfl
    rw [hqueue] at hpop ⊢
    rw [hwaiting]
    omega

/-- **The loop runs to its end**: afterwards the queue is empty or its first task is refused. -/
theorem tryToStartMoreThreads_ends (h : s.tryToStartMoreThreads.mTaskQueue.first = some task) :
    s.tryToStartMoreThreads.tryStart task = none := by
  have hrounds (rounds : Nat) (s : State)
      (hle : s.mTaskQueue.mTasks.length + s.mWaitingThreads.length ≤ rounds)
      (h : (startMore rounds s).mTaskQueue.first = some task) :
      (startMore rounds s).tryStart task = none := by
    induction rounds generalizing s with
    | zero =>
      have hnil : s.mTaskQueue.mTasks = [] := eq_nil_of_length_eq_zero (by omega)
      rw [startMore, first_eq_none.mpr hnil] at h
      cases h
    | succ rounds ih =>
      rw [startMore] at h ⊢
      split at h
      next hnone =>
        rw [hnone] at h
        cases h
      next first hfirst =>
        split at h
        next hrefused =>
          obtain rfl : first = task := Option.some.inj (hfirst.symm.trans h)
          exact hrefused
        next t hstart =>
          have hless := (tryStart_started hstart).measure hfirst
          exact ih _ (Nat.le_of_lt_succ (Nat.lt_of_lt_of_le hless hle)) h
  exact hrounds _ s le_rfl h

/-! ### The ledger over the steps -/

/-- Accounting looks at the number of entries only. -/
theorem State.Accounted.congr (h : s.Accounted) (hpending : ∀ n, t.pending n = s.pending n)
    (hrunning : ∀ n, t.running n = s.running n) (hfinished : t.finished = s.finished)
    (hremoved : t.removed = s.removed) (hbegun : t.begun = s.begun) (hcalls : t.calls = s.calls) :
    t.Accounted := by
  constructor
  · intro n
    rw [hpending, hrunning, hfinished, hremoved, hcalls]
    exact h.placed n
  · intro n
    rw [begunCount, hbegun, hrunning, hfinished]
    exact h.begun n

/-- A task that has been accepted and found a place. -/
theorem State.Accounted.accept {object : Nat} (h : s.Accounted)
    (hadds : Adds { s with calls := s.calls + 1 } (s.newTask object) t) : t.Accounted := by
  constructor
  · intro n
    have hplaced := h.placed n
    have hnew : (s.newTask object).call = s.calls := rfl
    rw [hadds.pending, hadds.running, hadds.finished, hadds.removed, hadds.calls]
    change s.pending n + _ + s.running n + s.finished.count n + s.removed.count n = _
    dsimp only
    split at hplaced <;> split <;> split <;> omega
  · intro n
    rw [begunCount, hadds.begun, hadds.running, hadds.finished]
    exact h.begun n

/-- A round of `try_to_start_more_threads` moves one task. -/
theorem Adds.pop (hadds : Adds s task t) (hfirst : t.mTaskQueue.first = some task) (n : Nat) :
    State.pending { t with mTaskQueue := t.mTaskQueue.pop.2 } n = s.pending n := by
  have hpop := entries_pop (n := n) hfirst
  have hplus := hadds.pending n
  unfold State.pending at hplus ⊢
  dsimp only
  omega

/-- **The loop keeps the tasks.** It runs to its end, and a task that was in the queue once and in
no slot is then in one of the two, once: none is lost and none is there twice. -/
theorem tryToStartMoreThreads_keeps (hs : s.Sound) :
    (∀ task, s.tryToStartMoreThreads.mTaskQueue.first = some task →
      s.tryToStartMoreThreads.tryStart task = none) ∧
    ∀ n, s.tryToStartMoreThreads.pending n = s.pending n ∧
      (s.mTaskQueue.entries n = 1 → s.threads.countP (holds n) = 0 →
        s.tryToStartMoreThreads.mTaskQueue.entries n = 1 ∧
          s.tryToStartMoreThreads.threads.countP (holds n) = 0 ∨
        s.tryToStartMoreThreads.mTaskQueue.entries n = 0 ∧
          s.tryToStartMoreThreads.threads.countP (holds n) = 1) := by
  refine ⟨fun task => tryToStartMoreThreads_ends, fun n => ?_⟩
  have hpending : s.tryToStartMoreThreads.pending n = s.pending n := by
    refine hs.more (P := fun t => t.pending n = s.pending n) ?_ _ rfl
    intro u task t hu hsame hfirst hstarted
    exact ((hstarted.adds hu).pop (hstarted.first hfirst) n).trans hsame
  refine ⟨hpending, fun hqueue hslots => ?_⟩
  unfold State.pending at hpending
  omega

/-- Two threads wait when a third task comes, which is queued for the first of them. -/
def thirdTask : List Label :=
  [.start 7 .kNormal, .start 8 .kNormal, .enterRun 0, .lock 0, .enterRun 1, .lock 1,
    .taskReturns 0, .relock 0, .taskReturns 1, .relock 1, .start 9 .kNormal]

/-- Before that thread wakes, the loop recycles the other one for the same task. -/
theorem tryToStartMoreThreads_keeps_recycled : ∃ s,
    (machine 2).run (machine 2).init thirdTask = some s ∧ s.mWaitingThreads = [1] ∧
      s.tryToStartMoreThreads.mWaitingThreads = [] ∧ s.tryToStartMoreThreads.pending 2 = 1 := by
  have hs : (machine 2).Always Sound (machine 2).init thirdTask := by
    apply Transition.Machine.always_of_step _ (sound_initial 2)
    exact fun _ _ _ h hstep => step_sound h hstep
  refine ⟨_, rfl, rfl, rfl, ?_⟩
  exact ((tryToStartMoreThreads_keeps (hs.last rfl)).2 2).1

variable (h : s.Accounted)
include h

theorem State.Accounted.startMore (hs : s.Sound) (rounds : Nat) :
    (startMore rounds s).Accounted := by
  apply hs.more _ rounds h
  intro u task t hu h hfirst hstarted
  have hadds := hstarted.adds hu
  have hpop := hadds.pop (hstarted.first hfirst)
  exact h.congr hpop hadds.running hadds.finished hadds.removed hadds.begun hadds.calls

/-- **Frame rule of the ledger.** A step that replaces one thread keeps the books if what
the thread lets go turns up elsewhere. -/
theorem State.Accounted.replace
    (hth : s.threads[tid]? = some th) (hthreads : t.threads = s.threads.set tid th')
    (hplaced : ∀ n, t.mTaskQueue.entries n + (th'.holds n).toNat + (th'.runs n).toNat +
      t.finished.count n = s.mTaskQueue.entries n + (th.holds n).toNat + (th.runs n).toNat +
      s.finished.count n)
    (hbegun : ∀ n, t.begunCount n + (th.runs n).toNat + s.finished.count n =
      s.begunCount n + (th'.runs n).toNat + t.finished.count n)
    (hremoved : t.removed = s.removed) (hcalls : t.calls = s.calls) : t.Accounted := by
  have hholds n := countP_set_add (holds n) th' hth
  have hruns n := countP_set_add (runs n) th' hth
  constructor
  · intro n
    have hbefore := h.placed n
    unfold pending running at hbefore ⊢
    rw [hthreads, hremoved, hcalls]
    have := hplaced n
    have := hholds n
    have := hruns n
    omega
  · intro n
    have hbefore := h.begun n
    unfold running at hbefore ⊢
    rw [hthreads]
    have := hbegun n
    have := hruns n
    omega

/-- A thread that keeps its slot and runs nothing, before and after. -/
theorem State.Accounted.idle (hth : s.threads[tid]? = some th)
    (hthreads : t.threads = s.threads.set tid th') (hslot : th'.mTask = th.mTask)
    (hruns : ∀ n, th'.runs n = th.runs n) (hqueue : t.mTaskQueue = s.mTaskQueue)
    (hfinished : t.finished = s.finished) (hremoved : t.removed = s.removed)
    (hbegun : t.begun = s.begun) (hcalls : t.calls = s.calls) : t.Accounted := by
  refine h.replace hth hthreads ?_ ?_ hremoved hcalls
  · intro n
    rw [hqueue, hfinished, hruns, holds, hslot, holds]
  · intro n
    rw [hfinished, hruns, begunCount, hbegun, begunCount]

omit h in
theorem Thread.Seeking.not_runs (h : th.Seeking) (n : Nat) : th.runs n = false := by
  rcases h with hplace | hplace | hplace <;> simp [runs, hplace]

omit h in
theorem runs_running (slot : Option Task) (mExit : Bool) :
    (runs n ⟨slot, mExit, .running task⟩).toNat = if task.call = n then 1 else 0 := by
  simp only [runs, Bool.toNat, cond_eq_ite, beq_iff_eq]

omit h in
/-- A thread begins a task that was pending, in its slot or in the queue. -/
theorem State.Accounted.begin (task : Task) (h : s.Accounted) (hth : s.threads[tid]? = some th)
    (hseeking : th.Seeking) (q : TaskQueue)
    (htaken : ∀ n, q.entries n + (if task.call = n then 1 else 0) =
      s.mTaskQueue.entries n + (th.holds n).toNat) :
    (beginTask { s.counting th with mTaskQueue := q } tid
      { th with mTask := none } task).Accounted := by
  refine h.replace hth rfl ?_ ?_ rfl rfl
  · intro n
    rw [runs_running, hseeking.not_runs, ← htaken]
    rfl
  · intro n
    change (s.begun ++ [_]).countP _ + _ + _ = _ + _ + s.finished.count n
    rw [countP_append, countP_singleton, runs_running, hseeking.not_runs]
    simp only [beq_iff_eq]
    rfl

theorem Turn.accounted (hth : s.threads[tid]? = some th) (hturn : Turn s tid th t) :
    t.Accounted := by
  cases hturn with
  | enters hplace =>
    refine h.idle hth rfl rfl ?_ rfl rfl rfl rfl rfl
    intro n
    simp [runs, hplace]
  | own task hseeking hall hwaiting hslot =>
    refine h.begin task hth hseeking s.mTaskQueue ?_
    intro n
    simp [holds, hslot, Bool.toNat, cond_eq_ite]
  | popped task hseeking hall hwaiting hslot hfew hfirst =>
    have hbegin := h.begin task hth hseeking s.mTaskQueue.pop.2 ?_
    · rw [← hslot] at hbegin
      exact hbegin
    · intro n
      rw [holds_none hslot]
      exact entries_pop hfirst
  | waits hseeking | expires hseeking =>
    exact h.idle hth rfl rfl (fun n => (hseeking.not_runs n).symm) rfl rfl rfl rfl rfl
  | timesOut hplace | leaves hplace =>
    have hseeking : th.Seeking := .inr (.inr hplace)
    exact h.idle hth rfl rfl (fun n => (hseeking.not_runs n).symm) rfl rfl rfl rfl rfl
  | returns task hplace =>
    have hbefore n : (th.runs n).toNat = if task.call = n then 1 else 0 := by
      simp [runs, hplace, Bool.toNat, cond_eq_ite]
    have hfinished n : (s.finished ++ [task.call]).count n =
        s.finished.count n + if task.call = n then 1 else 0 := by
      rw [count_append, count_singleton]
      simp only [beq_iff_eq]
    refine h.replace hth rfl ?_ ?_ rfl rfl
    · intro n
      change s.mTaskQueue.entries n + (th.holds n).toNat + 0 + (s.finished ++ [_]).count n = _
      rw [hbefore, hfinished]
      omega
    · intro n
      change s.begunCount n + _ + _ = _ + 0 + (s.finished ++ [_]).count n
      rw [hbefore, hfinished]
      omega

theorem Effect.accounted {a : Label} (hs : s.Sound) (heffect : Effect s a t) : t.Accounted := by
  have haccepted : State.Sound { s with calls := s.calls + 1 } := hs.congr rfl rfl rfl rfl rfl rfl
  cases heffect with
  | start object priority hplaced => exact h.accept (hplaced.adds haccepted)
  | tryStartNow object hstarted => exact h.accept (hstarted.adds haccepted)
  | refused object => exact h
  | cancel object =>
    refine ⟨?_, h.begun⟩
    intro n
    have hbefore := h.placed n
    have hcancel := entries_cancel (q := s.mTaskQueue) (n := n) object
    unfold pending at hbefore
    change (s.mTaskQueue.cancel object).2.entries n + s.threads.countP _ + s.running n +
      s.finished.count n + (s.removed ++ _).count n = if n < s.calls then 1 else 0
    rw [count_append]
    omega
  | clear =>
    refine ⟨?_, h.begun⟩
    intro n
    have hbefore := h.placed n
    have hcleared : (callsOf s.mTaskQueue.mTasks).count n = s.mTaskQueue.entries n :=
      count_callsOf s.mTaskQueue.mTasks
    unfold pending at hbefore
    change 0 + s.threads.countP _ + s.running n + s.finished.count n +
      (s.removed ++ _).count n = if n < s.calls then 1 else 0
    rw [count_append, ← hbefore]
    omega
  | setMaxThreadCount count =>
    unfold State.setMaxThreadCount
    split
    · apply State.Accounted.startMore
      · exact ⟨h.placed, h.begun⟩
      · exact hs.congr rfl rfl rfl rfl rfl rfl
    · exact h
  | reserveThread | waitForDone forever => exact ⟨h.placed, h.begun⟩
  | releaseThread =>
    apply State.Accounted.startMore
    · exact ⟨h.placed, h.begun⟩
    · exact hs.congr rfl rfl rfl rfl rfl rfl
  | turn tid th _ hth hturn => exact hturn.accounted h hth
  | testDone w waiter hfound hphase htest =>
    unfold State.testDone at htest
    split at htest
    · cases htest
      exact ⟨h.placed, h.begun⟩
    · split at htest
      · cases htest
      · cases htest
        exact ⟨h.placed, h.begun⟩
  | stopThread w waiter tid rest th hfound hphase hth =>
    exact h.idle hth rfl rfl (fun _ => rfl) rfl rfl rfl rfl rfl
  | joinThread w waiter tid rest hfound hphase => exact ⟨h.placed, h.begun⟩
  | afterReset w waiter timeLeft hfound hphase =>
    unfold State.afterReset
    split <;> exact ⟨h.placed, h.begun⟩

end CxxKit.ThreadPool
