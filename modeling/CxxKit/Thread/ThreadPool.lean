import CxxKit.Lib.Transition
import CxxKit.Thread.TaskQueue

/-!
The thread pool and its worker threads.

Every section that holds the pool's mutex is one step.  What a thread does
outside such sections is a step of its own: the stores at the start of `run`,
the return of a task, the stores and joins of `reset`.  A worker that waits may
leave its wait at any moment, whether it was notified, its expiry timeout ran
out or it woke for no reason, and so may a timed `wait_for_done`.
-/

namespace CxxKit.ThreadPool

/-- Where a worker thread is in `ThreadPoolTaskThread::run`. -/
inductive Place where
  /-- `start` has made the thread, `run` has not done anything yet. -/
  | created
  /-- In `run`, before the mutex is locked for the first time. -/
  | entering
  /-- In `task->run()`, without the mutex. -/
  | running (task : Task)
  /-- The task has returned, the mutex is not locked again yet. -/
  | ran
  /-- In `mTaskReadyCondition.wait_for`. -/
  | waiting
  /-- `run` has returned. -/
  | exited
  deriving DecidableEq

/-- `ThreadPoolTaskThread`. -/
structure Thread where
  mTask : Option Task
  mExit : Bool
  place : Place

/-- Where a call of `wait_for_done` is. -/
inductive Phase where
  /-- Waiting for `mNoActiveThreadsCondition`. -/
  | waiting
  /-- In `reset`, with these threads still to be stopped. -/
  | stopping (threads : List Nat)
  /-- In `reset`, joining one thread. -/
  | joining (thread : Nat) (threads : List Nat)
  | returned (done : Bool)

/-- A call of `wait_for_done`: whether it waits for ever, and how many tasks had been
accepted when it was made. -/
structure Waiter where
  forever : Bool
  before : Nat
  phase : Phase

/-- The record of a task that began to run: how many others were running, the limit, and
how many tasks had been accepted when the limit was last changed. -/
structure Beginning where
  task : Task
  others : Nat
  limit : Int
  limitSetAt : Nat

/-- `ThreadPoolPrivate`, the threads it has made and the calls of `wait_for_done`; the last
five fields record what happened. -/
structure State where
  mTaskQueue : TaskQueue
  mWaitingThreads : List Nat
  mExpiredThreads : List Nat
  mAllThreads : List Nat
  mActiveThreadCount : Int
  mReservedThreadCount : Int
  mMaxThreadCount : Int
  threads : List Thread
  waiters : List Waiter
  calls : Nat
  limitSetAt : Nat
  begun : List Beginning
  finished : List Nat
  removed : List Nat

def Thread.isRunning (th : Thread) : Bool :=
  match th.place with
  | .running _ => true
  | _ => false

namespace State

variable (s : State)

def activeThreadCount : Int :=
  s.mAllThreads.length - s.mExpiredThreads.length - s.mWaitingThreads.length +
    s.mReservedThreadCount

def isTooManyThreadsActive : Bool :=
  decide (s.activeThreadCount > s.mMaxThreadCount ∧
    s.activeThreadCount - s.mReservedThreadCount > 1)

def isDone : Bool := s.mTaskQueue.empty && s.mActiveThreadCount == 0

variable (tid : Nat)

def setThread (th : Thread) : State := { s with threads := s.threads.set tid th }

/-- `set_task`. -/
def setTask (task : Task) : State :=
  match s.threads[tid]? with
  | none => s
  | some th => s.setThread tid { th with mTask := some task }

def enqueueTask (task : Task) (priority : Priority) : State :=
  { s with mTaskQueue := (s.mTaskQueue.push task priority).1 }

/-- A new thread; its number is its place in `threads`. -/
def startThread (task : Task) : State :=
  { s with
    mAllThreads := s.mAllThreads ++ [s.threads.length]
    mActiveThreadCount := s.mActiveThreadCount + 1
    threads := s.threads ++ [⟨some task, true, .created⟩] }

/-- The branch of `try_start` that recycles the first waiting thread. -/
def recycleThread (task : Task) : State :=
  { s.enqueueTask task .kHighest with mWaitingThreads := s.mWaitingThreads.tail }

/-- The branch of `try_start` that restarts an expired thread. -/
def restartThread (task : Task) : State :=
  match s.threads[tid]? with
  | none => s
  | some th =>
    { s with
      mExpiredThreads := s.mExpiredThreads.tail
      mActiveThreadCount := s.mActiveThreadCount + 1
      threads := s.threads.set tid { th with mTask := some task, place := .created } }

/-- `try_start`; `none` where the source answers false, and has changed nothing. -/
def tryStart (task : Task) : Option State :=
  if s.mAllThreads.isEmpty then some (s.startThread task)
  else if s.activeThreadCount ≥ s.mMaxThreadCount then none
  else if s.mWaitingThreads ≠ [] then some (s.recycleThread task)
  else match s.mExpiredThreads with
    | tid :: _ => some (s.restartThread tid task)
    | [] => some (s.startThread task)

/-- The loop of `try_to_start_more_threads`, for at most the given number of rounds. -/
def startMore : Nat → State → State
  | 0, s => s
  | rounds + 1, s =>
    match s.mTaskQueue.first with
    | none => s
    | some task =>
      match s.tryStart task with
      | none => s
      | some t => startMore rounds { t with mTaskQueue := t.mTaskQueue.pop.2 }

/-- Every round of the loop uses up a waiting thread or an item of the queue. -/
def tryToStartMoreThreads : State :=
  startMore (s.mTaskQueue.mTasks.length + s.mWaitingThreads.length) s

/-- The part of `start` after `try_start` has refused the task. -/
def handOver (task : Task) (priority : Priority) : State :=
  match s.mWaitingThreads with
  | tid :: rest => ({ s with mWaitingThreads := rest }).setTask tid task
  | [] => s.enqueueTask task priority

/-- The task of the call that is being accepted. -/
def newTask (object : Nat) : Task := ⟨object, s.calls⟩

def start (object : Nat) (priority : Priority) : State :=
  let accepted := { s with calls := s.calls + 1 }
  match accepted.tryStart (s.newTask object) with
  | some t => t
  | none => accepted.handOver (s.newTask object) priority

/-- `try_start_now`; a refused task is not accepted. -/
def tryStartNow (object : Nat) : State :=
  if !s.mAllThreads.isEmpty && decide (s.activeThreadCount ≥ s.mMaxThreadCount) then s
  else match tryStart { s with calls := s.calls + 1 } (s.newTask object) with
    | some t => t
    | none => s

def setMaxThreadCount (count : Int) : State :=
  if count ≠ s.mMaxThreadCount then
    tryToStartMoreThreads { s with mMaxThreadCount := count, limitSetAt := s.calls }
  else s

def reserveThread : State := { s with mReservedThreadCount := s.mReservedThreadCount + 1 }

def releaseThread : State :=
  tryToStartMoreThreads { s with mReservedThreadCount := s.mReservedThreadCount - 1 }

def cancel (object : Nat) : State :=
  { s with
    mTaskQueue := (s.mTaskQueue.cancel object).2
    removed := s.removed ++
      TaskQueue.callsOf (s.mTaskQueue.mTasks.filter fun i => i.task.object == object) }

def clear : State :=
  { s with
    mTaskQueue := s.mTaskQueue.clear
    removed := s.removed ++ TaskQueue.callsOf s.mTaskQueue.mTasks }

/-! ### The worker -/

/-- The worker has taken a task and unlocks the mutex to run it. -/
def beginTask (th : Thread) (task : Task) : State :=
  { s.setThread tid { th with place := .running task } with
    begun := s.begun ++
      [⟨task, s.threads.countP Thread.isRunning, s.mMaxThreadCount, s.limitSetAt⟩] }

/-- `register_thread_inactive`. -/
def registerThreadInactive : State :=
  { s with mActiveThreadCount := s.mActiveThreadCount - 1 }

def expire (th : Thread) : State :=
  State.setThread { s.registerThreadInactive with mExpiredThreads := s.mExpiredThreads ++ [tid] }
    tid { th with place := .exited }

def waitForTask (th : Thread) : State :=
  State.setThread { s.registerThreadInactive with mWaitingThreads := s.mWaitingThreads ++ [tid] }
    tid { th with place := .waiting }

/-- What follows the inner loop of `run`, up to the wait.  `mExit` is read twice there; a
section being one step, both reads agree. -/
def leaveTaskLoop (th : Thread) : State :=
  if s.isTooManyThreadsActive || th.mExit then s.expire tid th else s.waitForTask tid th

/-- The inner loop of `run` once the thread has no task in hand.  A task popped by a thread
that has been told to exit is dropped. -/
def takeNextTask (th : Thread) : State :=
  if s.isTooManyThreadsActive then s.leaveTaskLoop tid th
  else match s.mTaskQueue.pop with
    | (none, _) => s.leaveTaskLoop tid th
    | (some task, queue) =>
      if th.mExit then State.leaveTaskLoop { s with mTaskQueue := queue } tid th
      else State.beginTask { s with mTaskQueue := queue } tid th task

/-- The outer loop of `run`, from its head. -/
def runLoop (th : Thread) : State :=
  if th.mExit then s.setThread tid { th with place := .exited }
  else match th.mTask with
    | some task => s.beginTask tid { th with mTask := none } task
    | none => s.takeNextTask tid th

/-- What follows the wait.  A thread that `reset` has taken out of the pool exits without
becoming an expired thread. -/
def wakeUp (th : Thread) : State :=
  let awake := { s with
    mActiveThreadCount := s.mActiveThreadCount + 1
    mWaitingThreads := s.mWaitingThreads.erase tid }
  if tid ∉ s.mAllThreads then
    awake.registerThreadInactive.setThread tid { th with place := .exited }
  else if tid ∈ s.mWaitingThreads then awake.expire tid th
  else awake.runLoop tid th

/-! ### `wait_for_done` -/

def setWaiter (w : Nat) (waiter : Waiter) : State := { s with waiters := s.waiters.set w waiter }

/-- The wait of `wait_for_done` and the first section of `reset`. -/
def testDone (w : Nat) (waiter : Waiter) : Option State :=
  if s.isDone then
    some (State.setWaiter
      { s with mAllThreads := [], mExpiredThreads := [], mWaitingThreads := [] } w
      { waiter with phase := .stopping s.mAllThreads })
  else if waiter.forever then none
  else some (s.setWaiter w { waiter with phase := .returned false })

/-- The end of the loop of `wait_for_done`, after `reset`. -/
def afterReset (w : Nat) (waiter : Waiter) (timeLeft : Bool) : State :=
  if !s.isDone && timeLeft then s.setWaiter w { waiter with phase := .waiting }
  else s.setWaiter w { waiter with phase := .returned s.isDone }

end State

inductive Label where
  | start (object : Nat) (priority : Priority)
  | tryStartNow (object : Nat)
  | cancel (object : Nat)
  | clear
  | setMaxThreadCount (count : Int)
  | reserveThread
  | releaseThread
  | waitForDone (forever : Bool)
  /-- The stores at the start of `run`. -/
  | enterRun (tid : Nat)
  /-- The first section of `run`. -/
  | lock (tid : Nat)
  | taskReturns (tid : Nat)
  /-- The section after a task. -/
  | relock (tid : Nat)
  /-- A wait ends: by a notification, by the expiry timeout or spuriously. -/
  | wakeUp (tid : Nat)
  | testDone (w : Nat)
  /-- `exit_wait` up to its join. -/
  | stopThread (w : Nat)
  | joinThread (w : Nat)
  | afterReset (w : Nat) (timeLeft : Bool)

/-- A step of the worker `tid`, if it is at the right place. -/
def State.worker (s : State) (tid : Nat) (f : Thread → Option State) : Option State :=
  (s.threads[tid]?).bind f

def step (s : State) : Label → Option State
  | .start object priority => some (s.start object priority)
  | .tryStartNow object => some (s.tryStartNow object)
  | .cancel object => some (s.cancel object)
  | .clear => some s.clear
  | .setMaxThreadCount count => some (s.setMaxThreadCount count)
  | .reserveThread => some s.reserveThread
  | .releaseThread => some s.releaseThread
  | .waitForDone forever =>
    some { s with waiters := s.waiters ++ [⟨forever, s.calls, .waiting⟩] }
  | .enterRun tid => s.worker tid fun th =>
    match th.place with
    | .created => some (s.setThread tid { th with mExit := false, place := .entering })
    | _ => none
  | .lock tid => s.worker tid fun th =>
    match th.place with
    | .entering => some (s.runLoop tid th)
    | _ => none
  | .taskReturns tid => s.worker tid fun th =>
    match th.place with
    | .running task => some { s.setThread tid { th with place := .ran } with
        finished := s.finished ++ [task.call] }
    | _ => none
  | .relock tid => s.worker tid fun th =>
    match th.place with
    | .ran => some (s.takeNextTask tid th)
    | _ => none
  | .wakeUp tid => s.worker tid fun th =>
    match th.place with
    | .waiting => some (s.wakeUp tid th)
    | _ => none
  | .testDone w => (s.waiters[w]?).bind fun waiter =>
    match waiter.phase with
    | .waiting => s.testDone w waiter
    | _ => none
  | .stopThread w => (s.waiters[w]?).bind fun waiter =>
    match waiter.phase with
    | .stopping (tid :: rest) => (s.threads[tid]?).map fun th =>
      (s.setThread tid { th with mExit := true }).setWaiter w
        { waiter with phase := .joining tid rest }
    | _ => none
  | .joinThread w => (s.waiters[w]?).bind fun waiter =>
    match waiter.phase with
    | .joining tid rest => (s.threads[tid]?).bind fun th =>
      match th.place with
      | .exited => some (s.setWaiter w { waiter with phase := .stopping rest })
      | _ => none
    | _ => none
  | .afterReset w timeLeft => (s.waiters[w]?).bind fun waiter =>
    match waiter.phase with
    | .stopping [] => some (s.afterReset w waiter timeLeft)
    | _ => none

/-- A fresh pool whose limit is `ideal`, the number of threads the hardware runs at once. -/
def initial (ideal : Int) : State where
  mTaskQueue := ⟨0, []⟩
  mWaitingThreads := []
  mExpiredThreads := []
  mAllThreads := []
  mActiveThreadCount := 0
  mReservedThreadCount := 0
  mMaxThreadCount := ideal
  threads := []
  waiters := []
  calls := 0
  limitSetAt := 0
  begun := []
  finished := []
  removed := []

def machine (ideal : Int) : Transition.Machine State Label := ⟨initial ideal, step⟩

end CxxKit.ThreadPool
