import CxxKit.Thread.PoolLedger

/-!
Tasks run once, and what `wait_for_done` promises.

The done test looks at the queue and at the count of active threads.  A task
that `start` has put into the slot of a waiting thread is in neither, so a test
made before that thread wakes up takes the pool to be done; `reset` then takes
the thread out of the pool and the task is never run.
-/

namespace CxxKit.ThreadPool

open List State Transition

variable {s t : State} {tid : Nat} {th : Thread} {task : Task} {a : Label}

/-- No accepted task has begun twice, and the tasks accepted before a call of `wait_for_done`
that returned true have finished or were removed. -/
structure State.Settled (s : State) : Prop where
  once : (s.begun.map fun b => b.task.call).Nodup
  done : ∀ w ∈ s.waiters, w.phase = .returned true → ∀ n < w.before,
    n ∈ s.finished ∨ n ∈ s.removed

/-- No done test succeeds while a thread of the pool has a task in its slot. -/
def Claimed (s : State) : Label → Prop
  | .testDone _ | .afterReset _ _ => s.isDone = true →
      ∀ tid th, tid ∈ s.mAllThreads → s.threads[tid]? = some th → th.mTask = none
  | _ => True

theorem State.Accounted.once (h : s.Accounted) : (s.begun.map fun b => b.task.call).Nodup := by
  rw [nodup_iff_count_le_one]
  intro n
  have hplaced := h.placed n
  have hbegun := h.begun n
  rw [List.count, countP_map]
  change s.begunCount n ≤ 1
  split at hplaced <;> omega

/-! ### Threads out of the pool -/

/-- A thread out of the pool has nothing in its slot. -/
def State.Emptied (s : State) : Prop :=
  ∀ tid th, s.threads[tid]? = some th → tid ∉ s.mAllThreads → th.mTask = none

theorem State.Emptied.replace {th' : Thread} (h : s.Emptied)
    (hthreads : t.threads = s.threads.set tid th') (hall : t.mAllThreads = s.mAllThreads)
    (hslot : tid ∉ s.mAllThreads → tid < s.threads.length → th'.mTask = none) : t.Emptied := by
  intro x thx hx hnot
  rw [hthreads] at hx
  rw [hall] at hnot
  by_cases hxt : x = tid
  · subst hxt
    have hlt : x < (s.threads.set x th').length := (List.getElem?_eq_some_iff.mp hx).1
    rw [length_set] at hlt
    rw [getElem?_set_self hlt] at hx
    exact Option.some.inj hx ▸ hslot hnot hlt
  · rw [getElem?_set_ne (Ne.symm hxt)] at hx
    exact h x thx hx hnot

theorem Started.emptied (hstarted : Started s task t) (hs : s.Sound) (h : s.Emptied) :
    t.Emptied := by
  cases hstarted with
  | startThread =>
    intro x thx hx hnot
    change (s.threads ++ [_])[x]? = some thx at hx
    change x ∉ s.mAllThreads ++ [s.threads.length] at hnot
    rw [mem_append, mem_singleton, not_or] at hnot
    have hlt : x < (s.threads ++ [_]).length := (List.getElem?_eq_some_iff.mp hx).1
    rw [length_append, length_singleton] at hlt
    rw [getElem?_append_left (by omega)] at hx
    exact h x thx hx hnot.1
  | recycleThread => exact h
  | @restartThread tid rest _ hexpired =>
    have htid : tid ∈ s.mExpiredThreads := by simp [hexpired]
    obtain ⟨th, hth, -⟩ := hs.expired_thread htid
    rw [State.restartThread, hth]
    exact h.replace rfl rfl fun hnot => absurd (hs.expired_all tid htid) hnot

theorem Placed.emptied (hplaced : Placed s task t) (hs : s.Sound) (h : s.Emptied) : t.Emptied := by
  cases hplaced with
  | started hstarted => exact hstarted.emptied hs h
  | @handOver tid rest _ _ hwaiting =>
    have htid : tid ∈ s.mWaitingThreads := by simp [hwaiting]
    obtain ⟨th, hth, -⟩ := hs.waiting_thread htid
    rw [setTask, hth]
    exact State.Emptied.replace h rfl rfl fun hnot => absurd (hs.waiting_all tid htid) hnot
  | enqueue => exact h

theorem State.Emptied.startMore (hs : s.Sound) (h : s.Emptied) (rounds : Nat) :
    (startMore rounds s).Emptied := by
  apply hs.more _ rounds h
  intro u task t hu h _ hstarted
  exact hstarted.emptied hu h

theorem Turn.emptied (h : s.Emptied) (hth : s.threads[tid]? = some th) (hturn : Turn s tid th t) :
    t.Emptied := by
  cases hturn with
  | own | popped _ _ hall | waits _ hall | expires _ hall =>
    exact State.Emptied.replace h rfl rfl fun hnot => absurd ‹_› hnot
  | enters | timesOut | leaves | returns =>
    exact State.Emptied.replace h rfl rfl fun hnot _ => h tid th hth hnot

theorem Effect.emptied (h : s.Emptied) (hs : s.Sound) (hclaimed : Claimed s a)
    (heffect : Effect s a t) : t.Emptied := by
  have haccepted : State.Sound { s with calls := s.calls + 1 } := hs.congr rfl rfl rfl rfl rfl rfl
  cases heffect with
  | start object priority hplaced => exact hplaced.emptied haccepted h
  | tryStartNow object hstarted => exact hstarted.emptied haccepted h
  | setMaxThreadCount count =>
    unfold State.setMaxThreadCount
    split
    · apply State.Emptied.startMore
      · exact hs.congr rfl rfl rfl rfl rfl rfl
      · exact h
    · exact h
  | releaseThread =>
    apply State.Emptied.startMore
    · exact hs.congr rfl rfl rfl rfl rfl rfl
    · exact h
  | turn tid th _ hth hturn => exact hturn.emptied h hth
  | testDone w waiter hfound hphase htest =>
    unfold State.testDone at htest
    split at htest
    next hdone =>
      cases htest
      intro tid th hth _
      by_cases hall : tid ∈ s.mAllThreads
      · exact hclaimed hdone tid th hall hth
      · exact h tid th hth hall
    · split at htest
      · cases htest
      · cases htest
        exact h
  | stopThread w waiter tid rest th hfound hphase hth =>
    exact State.Emptied.replace h rfl rfl fun hnot _ => h tid th hth hnot
  | afterReset w waiter timeLeft hfound hphase =>
    unfold State.afterReset
    split <;> exact h
  | refused | cancel | clear | reserveThread | waitForDone | joinThread => exact h

/-! ### Calls that returned -/

/-- What every call of `wait_for_done` has been promised. -/
def State.Kept (s : State) : Prop :=
  ∀ w ∈ s.waiters, w.before ≤ s.calls ∧
    (w.phase = .returned true → ∀ n < w.before, n ∈ s.finished ∨ n ∈ s.removed)

theorem State.Kept.mono (h : s.Kept) (hwaiters : t.waiters = s.waiters) (hcalls : s.calls ≤ t.calls)
    (hfinished : s.finished ⊆ t.finished) (hremoved : s.removed ⊆ t.removed) : t.Kept := by
  intro w hw
  rw [hwaiters] at hw
  obtain ⟨hbefore, hdone⟩ := h w hw
  refine ⟨hbefore.trans hcalls, ?_⟩
  intro hphase n hn
  exact (hdone hphase n hn).imp (fun hin => hfinished hin) fun hin => hremoved hin

theorem State.Kept.setWaiter {w : Nat} {waiter : Waiter} (h : s.Kept)
    (hbefore : waiter.before ≤ s.calls)
    (hdone : waiter.phase = .returned true → ∀ n < waiter.before, n ∈ s.finished ∨ n ∈ s.removed) :
    (s.setWaiter w waiter).Kept := by
  intro v hv
  rcases mem_or_eq_of_mem_set hv with hv | rfl
  · exact h v hv
  · exact ⟨hbefore, hdone⟩

theorem Adds.kept (hadds : Adds s task t) (h : s.Kept) : t.Kept :=
  h.mono hadds.waiters hadds.calls.ge (hadds.finished ▸ List.Subset.refl _)
    (hadds.removed ▸ List.Subset.refl _)

theorem State.Kept.startMore (hs : s.Sound) (h : s.Kept) (rounds : Nat) :
    (startMore rounds s).Kept := by
  apply hs.more _ rounds h
  intro u task t hu h _ hstarted
  exact (hstarted.adds hu).kept h

/-- When the pool is done and no slot is filled, every accepted task is out of the pool. -/
theorem State.Accounted.done {n : Nat} (h : s.Accounted) (hs : s.Sound) (hdone : s.isDone = true)
    (hslots : ∀ (tid : Nat) (th : Thread), s.threads[tid]? = some th → th.mTask = none)
    (hn : n < s.calls) : n ∈ s.finished ∨ n ∈ s.removed := by
  obtain ⟨hqueue, hactive⟩ := isDone_iff.mp hdone
  have hentries : s.mTaskQueue.entries n = 0 := by simp [TaskQueue.entries, hqueue]
  have hholds : s.threads.countP (Thread.holds n) = 0 := by
    rw [countP_eq_zero]
    intro th hth
    obtain ⟨tid, hget⟩ := mem_iff_getElem?.mp hth
    simp [Thread.holds, hslots tid th hget]
  have hruns : s.running n = 0 := by
    rw [running, countP_eq_zero]
    intro th hth
    obtain ⟨tid, hget⟩ := mem_iff_getElem?.mp hth
    have hidle := hs.not_active hactive hget
    unfold Thread.isActive at hidle
    unfold Thread.runs
    split at hidle <;> simp_all
  have hplaced := h.placed n
  rw [pending, if_pos hn] at hplaced
  rcases Nat.eq_zero_or_pos (s.finished.count n) with hzero | hpos
  · exact .inr (count_pos_iff.mp (by omega))
  · exact .inl (count_pos_iff.mp hpos)

theorem Turn.kept (hturn : Turn s tid th t) (h : s.Kept) : t.Kept := by
  cases hturn with
  | returns =>
    exact h.mono rfl le_rfl (subset_append_left ..) (List.Subset.refl _)
  | enters | own | popped | waits | expires | timesOut | leaves => exact h

theorem Effect.kept (heffect : Effect s a t) (hs : s.Sound) (ha : s.Accounted) (he : s.Emptied)
    (hclaimed : Claimed s a) (h : s.Kept) : t.Kept := by
  have hmore : State.Kept { s with calls := s.calls + 1 } :=
    h.mono rfl (Nat.le_succ _) (List.Subset.refl _) (List.Subset.refl _)
  have haccepted : State.Sound { s with calls := s.calls + 1 } := hs.congr rfl rfl rfl rfl rfl rfl
  cases heffect with
  | start object priority hplaced => exact (hplaced.adds haccepted).kept hmore
  | tryStartNow object hstarted => exact (hstarted.adds haccepted).kept hmore
  | cancel object | clear =>
    exact h.mono rfl le_rfl (List.Subset.refl _) (subset_append_left ..)
  | setMaxThreadCount count =>
    unfold State.setMaxThreadCount
    split
    · apply State.Kept.startMore
      · exact hs.congr rfl rfl rfl rfl rfl rfl
      · exact h
    · exact h
  | releaseThread =>
    apply State.Kept.startMore
    · exact hs.congr rfl rfl rfl rfl rfl rfl
    · exact h
  | waitForDone forever =>
    exact forall_mem_append.mpr ⟨h, forall_mem_singleton.mpr ⟨le_rfl, nofun⟩⟩
  | turn tid th _ hth hturn => exact hturn.kept h
  | testDone w waiter hfound hphase htest =>
    have hbefore := (h waiter (mem_of_getElem? hfound)).1
    unfold State.testDone at htest
    split at htest
    · cases htest
      exact State.Kept.setWaiter h hbefore nofun
    · split at htest
      · cases htest
      · cases htest
        exact h.setWaiter hbefore nofun
  | stopThread w waiter tid rest th hfound hphase hth =>
    have hbefore := (h waiter (mem_of_getElem? hfound)).1
    exact State.Kept.setWaiter h hbefore nofun
  | joinThread w waiter tid rest hfound hphase =>
    exact h.setWaiter (h waiter (mem_of_getElem? hfound)).1 nofun
  | afterReset w waiter timeLeft hfound hphase =>
    have hbefore := (h waiter (mem_of_getElem? hfound)).1
    unfold State.afterReset
    split
    · exact h.setWaiter hbefore nofun
    · refine h.setWaiter hbefore ?_
      -- the call returns true only if the done test succeeds now
      intro htrue n hn
      have hdone : s.isDone = true := by simpa using htrue
      apply ha.done hs hdone _ (Nat.lt_of_lt_of_le hn hbefore)
      intro tid th hth
      by_cases hall : tid ∈ s.mAllThreads
      · exact hclaimed hdone tid th hall hth
      · exact he tid th hth hall
  | refused | reserveThread => exact h

/-- What holds in every state of a run whose done tests are all made with empty slots. -/
structure State.Orderly (s : State) : Prop where
  sound : s.Sound
  accounted : s.Accounted
  emptied : s.Emptied
  kept : s.Kept

theorem orderly_initial (ideal : Int) : (initial ideal).Orderly :=
  ⟨sound_initial ideal, accounted_initial ideal, nofun, nofun⟩

theorem State.Orderly.step (h : s.Orderly) (hclaimed : Claimed s a) (hstep : step s a = some t) :
    t.Orderly := by
  have heffect := step_effect h.sound hstep
  constructor
  · exact heffect.sound h.sound
  · exact heffect.accounted h.accounted h.sound
  · exact heffect.emptied h.emptied h.sound hclaimed
  · exact heffect.kept h.sound h.accounted h.emptied hclaimed h.kept

/-- **Done means done.** In every run whose done tests succeed only while no thread of the
pool has a task in its slot, no task begins twice and a call of `wait_for_done` that returned
true has left none of the earlier tasks behind. -/
theorem wait_for_done_settles (ideal : Int) (run : List Label)
    (h : (machine ideal).Meets Claimed (initial ideal) run) :
    (machine ideal).Always State.Settled (initial ideal) run := by
  have halways : (machine ideal).Always State.Orderly (initial ideal) run :=
    Machine.always_of_meets (fun _ _ _ hs hclaimed hstep => hs.step hclaimed hstep)
      (orderly_initial ideal) h
  apply halways.mono
  intro s hs
  exact ⟨hs.accounted.once, fun w hw => (hs.kept w hw).2⟩

/-- A task is started, runs, and `wait_for_done` stops its thread and returns true. -/
def settledRun : List Label :=
  [.start 7 .kNormal, .enterRun 0, .lock 0, .taskReturns 0, .relock 0, .waitForDone true,
    .testDone 0, .stopThread 0, .wakeUp 0, .joinThread 0, .afterReset 0 true]

theorem wait_for_done_settles_one_task :
    ((machine 2).run (initial 2) settledRun).map (fun s => s.finished) = some [0] ∧
      (machine 2).Always State.Settled (initial 2) settledRun := by
  refine ⟨rfl, wait_for_done_settles 2 settledRun ?_⟩
  rintro s₁ ⟨⟩
  refine ⟨trivial, ?_⟩
  rintro s₂ ⟨⟩
  refine ⟨trivial, ?_⟩
  rintro s₃ ⟨⟩
  refine ⟨trivial, ?_⟩
  rintro s₄ ⟨⟩
  refine ⟨trivial, ?_⟩
  rintro s₅ ⟨⟩
  refine ⟨trivial, ?_⟩
  rintro s₆ ⟨⟩
  refine ⟨trivial, ?_⟩
  rintro s₇ ⟨⟩
  constructor
  · -- the only thread waits with an empty slot
    rintro - tid th hall hth
    obtain rfl : tid = 0 := mem_singleton.mp hall
    cases hth
    rfl
  rintro s₈ ⟨⟩
  refine ⟨trivial, ?_⟩
  rintro s₉ ⟨⟩
  refine ⟨trivial, ?_⟩
  rintro s₁₀ ⟨⟩
  refine ⟨trivial, ?_⟩
  rintro s₁₁ ⟨⟩
  constructor
  · rintro - tid th hall -
    exact absurd hall not_mem_nil
  trivial

/-- The limit is lowered to zero while a thread waits: the next task goes into the slot of
that thread, and `wait_for_done` returns true without it. -/
def strandedRun : List Label :=
  [.start 7 .kNormal, .enterRun 0, .lock 0, .taskReturns 0, .relock 0, .setMaxThreadCount 0,
    .start 8 .kNormal, .waitForDone true, .testDone 0, .stopThread 0, .wakeUp 0, .joinThread 0,
    .afterReset 0 true]

theorem done_without_handed_over_task : ∃ s, (machine 2).run (initial 2) strandedRun = some s ∧
    ¬ s.Settled := by
  refine ⟨_, rfl, ?_⟩
  intro h
  have hlost := h.done ⟨true, 2, .returned true⟩ mem_cons_self rfl 1 (by decide)
  exact absurd hlost (by decide)

end CxxKit.ThreadPool
