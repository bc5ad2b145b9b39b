import CxxKit.Thread.ThreadLimit

/-!
No queued task is stranded, as long as the pool starts a thread.

A thread leaves the live ones only when the queue is empty or another stays, so
a queued task always has a thread that will come to it.  The exception is
`start` under a limit of zero or less when every thread has expired:
`try_start` refuses because the limit is reached, although no thread is left.
-/

namespace CxxKit.ThreadPool

open List State Transition

variable {s t : State} {tid : Nat} {th : Thread} {task : Task} {a : Label}

/-- While a task is queued, some thread of the pool neither waits nor has expired, and has
not left `run`. -/
def State.Attended (s : State) : Prop := s.mTaskQueue.mTasks ≠ [] →
  ∃ (tid : Nat) (th : Thread), tid ∈ s.mAllThreads ∧ tid ∉ s.mWaitingThreads ∧
    tid ∉ s.mExpiredThreads ∧ s.threads[tid]? = some th ∧ th.place ≠ .exited

/-- No start is made under a limit of zero or less when all threads of the pool, and there
are some, have expired. -/
def Attending (s : State) : Label → Prop
  | .start _ _ => s.mMaxThreadCount ≤ 0 → s.mAllThreads ≠ [] →
      ∃ tid ∈ s.mAllThreads, tid ∉ s.mExpiredThreads
  | _ => True

/-- The pool is sound and has no reserved threads. -/
structure State.Plain (s : State) : Prop where
  sound : s.Sound
  reserved : s.mReservedThreadCount = 0

theorem State.Plain.attended_iff (h : s.Plain) :
    s.Attended ↔ (s.mTaskQueue.mTasks ≠ [] → 0 < s.activeThreadCount) := by
  rw [h.sound.activeThreadCount h.reserved, Int.natCast_pos]
  constructor
  · intro hattended hqueue
    obtain ⟨tid, th, hall, hwaiting, hexpired, -⟩ := hattended hqueue
    exact length_pos_of_mem (mem_live.mpr ⟨hall, hwaiting, hexpired⟩)
  · intro hlive hqueue
    obtain ⟨tid, htid⟩ := exists_mem_of_length_pos (hlive hqueue)
    obtain ⟨hall, hwaiting, hexpired⟩ := mem_live.mp htid
    obtain ⟨th, hth⟩ := h.sound.thread hall
    refine ⟨tid, th, hall, hwaiting, hexpired, hth, ?_⟩
    intro hplace
    have hfits := h.sound.fits tid th hth
    rw [Thread.Fits, hplace] at hfits
    exact hexpired (hfits.2 hall).1

theorem State.Plain.active_nonneg (h : s.Plain) : 0 ≤ s.activeThreadCount := by
  rw [h.sound.activeThreadCount h.reserved]
  exact Int.natCast_nonneg _

theorem State.Plain.active_pos (h : s.Plain) (hth : s.threads[tid]? = some th)
    (hseeking : th.Seeking) (hall : tid ∈ s.mAllThreads) (hwaiting : tid ∉ s.mWaitingThreads) :
    0 < s.activeThreadCount := by
  have hexpired := (h.sound.seeking hth hseeking hall).2
  rw [h.sound.activeThreadCount h.reserved, Int.natCast_pos]
  exact length_pos_of_mem (mem_live.mpr ⟨hall, hwaiting, hexpired⟩)

/-! ### The workers -/

/-- A queue that is not empty after a turn was not empty before it, or the thread is live. -/
theorem Turn.queue (hturn : Turn s tid th t) (h : s.Plain) (hth : s.threads[tid]? = some th)
    (hqueue : t.mTaskQueue.mTasks ≠ []) :
    s.mTaskQueue.mTasks ≠ [] ∨ 0 < s.activeThreadCount := by
  cases hturn with
  | popped _ hseeking hall hwaiting => exact .inr (h.active_pos hth hseeking hall hwaiting)
  | enters | own | waits | expires | timesOut | leaves | returns => exact .inl hqueue

theorem Turn.attended (hturn : Turn s tid th t) (h : s.Plain) (hth : s.threads[tid]? = some th)
    (hattended : s.Attended) : t.Attended := by
  obtain ⟨k, -, hkept⟩ := hturn.gains_le h.sound
  have hplain : t.Plain := ⟨hturn.sound h.sound hth, hkept.reserved.trans h.reserved⟩
  rw [hplain.attended_iff]
  intro hqueue
  have hpos : 0 < s.activeThreadCount :=
    (hturn.queue h hth hqueue).elim (h.attended_iff.mp hattended) id
  rcases hturn.gains h.sound with hgains | ⟨hgains, hempty | hmany⟩
  · rw [hgains.active]
    omega
  · exact absurd hempty hqueue
  · -- a thread expires only if another is active
    unfold isTooManyThreadsActive at hmany
    rw [h.reserved, decide_eq_true_iff] at hmany
    rw [hgains.active]
    omega

/-! ### Starts and changes of the limit -/

theorem Started.attended (hstarted : Started s task t) (h : s.Plain) (q : TaskQueue) :
    State.Attended { t with mTaskQueue := q } := by
  have hgains := hstarted.gains h.sound
  have hplain : State.Plain { t with mTaskQueue := q } :=
    ⟨(hstarted.sound h.sound).congr rfl rfl rfl rfl rfl rfl, hgains.reserved.trans h.reserved⟩
  have hnonneg := h.active_nonneg
  rw [hplain.attended_iff]
  intro _
  change 0 < t.activeThreadCount
  rw [hgains.active]
  omega

theorem startMore_attended (h : s.Plain) (hattended : s.Attended) (rounds : Nat) :
    (startMore rounds s).Attended := by
  have hboth := startMore_induct (P := fun s => s.Plain ∧ s.Attended) ?_ rounds ⟨h, hattended⟩
  · exact hboth.2
  · rintro s task t ⟨h, -⟩ hfirst hstarted
    refine ⟨?_, hstarted.attended h _⟩
    exact ⟨(hstarted.sound h.sound).congr rfl rfl rfl rfl rfl rfl,
      (hstarted.gains h.sound).reserved.trans h.reserved⟩

theorem State.Plain.attending_iff {object : Nat} {priority : Priority} (h : s.Plain) :
    Attending s (.start object priority) ↔ (s.mMaxThreadCount ≤ 0 → s.mAllThreads ≠ [] →
      s.mWaitingThreads = [] → 0 < s.activeThreadCount) := by
  rw [h.sound.activeThreadCount h.reserved, Int.natCast_pos]
  constructor
  · intro hguard hlimit hall hwaiting
    obtain ⟨tid, htid, hexpired⟩ := hguard hlimit hall
    exact length_pos_of_mem (mem_live.mpr ⟨htid, by simp [hwaiting], hexpired⟩)
  · intro hlive hlimit hall
    cases hwaiting : s.mWaitingThreads with
    | nil =>
      obtain ⟨tid, htid⟩ := exists_mem_of_length_pos (hlive hlimit hall hwaiting)
      obtain ⟨hall, -, hexpired⟩ := mem_live.mp htid
      exact ⟨tid, hall, hexpired⟩
    | cons tid rest =>
      have htid : tid ∈ s.mWaitingThreads := by simp [hwaiting]
      exact ⟨tid, h.sound.waiting_all tid htid, h.sound.not_expired_of_waiting htid⟩

/-- A start leaves a queued task with a thread exactly if it is guarded. -/
theorem Placed.attended_iff (hplaced : Placed s task t) (h : s.Plain) (object : Nat)
    (priority : Priority) : t.Attended ↔ Attending s (.start object priority) := by
  have hplain : t.Plain := ⟨hplaced.sound h.sound, (hplaced.reserved h.sound).trans h.reserved⟩
  have hnonneg := h.active_nonneg
  rw [h.attending_iff]
  cases hplaced with
  | started hstarted =>
    constructor
    · intro _ hlimit hall hwaiting
      -- `try_start` succeeds below the limit, which is then positive
      cases hstarted with
      | startThread hguard =>
        rcases hguard with hnil | hbelow
        · exact absurd hnil hall
        · exact absurd (Int.lt_of_lt_of_le hbelow hlimit) (Int.not_lt.mpr hnonneg)
      | recycleThread hbelow | restartThread hbelow =>
        exact absurd (Int.lt_of_lt_of_le hbelow hlimit) (Int.not_lt.mpr hnonneg)
    · intro _
      exact hstarted.attended h t.mTaskQueue
  | @handOver tid rest hall hlimit hwaiting =>
    constructor
    · intro _ _ _ hnil
      rw [hwaiting] at hnil
      cases hnil
    · intro _
      rw [hplain.attended_iff, (handOver_gains h.sound hwaiting).active]
      omega
  | enqueue priority hall hlimit hwaiting =>
    rw [hplain.attended_iff]
    constructor
    · intro hattended _ _ _
      exact hattended TaskQueue.push_ne_nil
    · intro hguard _
      rcases Int.lt_or_le 0 s.mMaxThreadCount with hpositive | hzero
      · exact Int.lt_of_lt_of_le hpositive hlimit
      · exact hguard hzero hall hwaiting

theorem plain_initial (ideal : Int) : (initial ideal).Plain := ⟨sound_initial ideal, rfl⟩

theorem State.Plain.step (h : s.Plain) (hplain : a.isPlain = true) (hstep : step s a = some t) :
    t.Plain := by
  refine ⟨step_sound h.sound hstep, ?_⟩
  cases step_effect h.sound hstep with
  | start object priority hplaced =>
    have hs : State.Sound { s with calls := s.calls + 1 } :=
      h.sound.congr rfl rfl rfl rfl rfl rfl
    exact (hplaced.reserved hs).trans h.reserved
  | setMaxThreadCount count =>
    unfold setMaxThreadCount
    split
    · have hs : State.Sound { s with mMaxThreadCount := count, limitSetAt := s.calls } :=
        h.sound.congr rfl rfl rfl rfl rfl rfl
      exact (startMore_keeps hs _).1.trans h.reserved
    · exact h.reserved
  | turn tid th _ hth hturn =>
    obtain ⟨k, -, hgains⟩ := hturn.gains_le h.sound
    exact hgains.reserved.trans h.reserved
  | tryStartNow | refused | cancel | clear | reserveThread | releaseThread | waitForDone
  | testDone | stopThread | joinThread | afterReset => cases hplain

/-- One step leaves a queued task with a thread exactly if it is not a start that strands it. -/
theorem step_attended_iff (h : s.Plain) (hattended : s.Attended) (hplain : a.isPlain = true)
    (hstep : step s a = some t) : t.Attended ↔ Attending s a := by
  cases step_effect h.sound hstep with
  | start object priority hplaced =>
    have haccepted : State.Plain { s with calls := s.calls + 1 } :=
      ⟨h.sound.congr rfl rfl rfl rfl rfl rfl, h.reserved⟩
    exact hplaced.attended_iff haccepted object priority
  | setMaxThreadCount count =>
    refine ⟨fun _ => trivial, fun _ => ?_⟩
    unfold setMaxThreadCount
    split
    · apply startMore_attended
      · exact ⟨h.sound.congr rfl rfl rfl rfl rfl rfl, h.reserved⟩
      · exact hattended
    · exact hattended
  | turn tid th hlabel hth hturn =>
    refine ⟨fun _ => ?_, fun _ => hturn.attended h hth hattended⟩
    cases a <;> trivial
  | tryStartNow | refused | cancel | clear | reserveThread | releaseThread | waitForDone
  | testDone | stopThread | joinThread | afterReset => cases hplain

/-- **Nobody is stranded.** In a run of starts, changes of the limit and workers' steps every
queued task has a thread to come to it, throughout, exactly if no start is made under a limit
of zero or less when all the threads there are have expired. -/
theorem queued_tasks_attended_iff (ideal : Int) (run : List Label) :
    (plainMachine ideal).Always State.Attended (initial ideal) run ↔
      (plainMachine ideal).Meets Attending (initial ideal) run := by
  apply Machine.always_iff_meets _ _ (plain_initial ideal)
  · exact fun hqueue => absurd rfl hqueue
  · intro s a t h hstep
    obtain ⟨hplain, hstep⟩ := Machine.restrict_step.mp hstep
    exact h.step hplain hstep
  · intro s a t h hattended hstep
    obtain ⟨hplain, hstep⟩ := Machine.restrict_step.mp hstep
    exact step_attended_iff h hattended hplain hstep

/-- Under a limit of zero the pool makes one thread; once it has expired, the next task is
queued and stays there. -/
def expiredRun : List Label :=
  [.start 7 .kNormal, .enterRun 0, .lock 0, .taskReturns 0, .relock 0, .wakeUp 0, .start 8 .kNormal]

theorem queued_task_stranded : ∃ s, (plainMachine 0).run (initial 0) expiredRun = some s ∧
    ¬ s.Attended := by
  refine ⟨_, rfl, ?_⟩
  intro h
  obtain ⟨tid, th, hall, -, hexpired, -⟩ := h (cons_ne_nil _ _)
  exact hexpired hall

end CxxKit.ThreadPool
