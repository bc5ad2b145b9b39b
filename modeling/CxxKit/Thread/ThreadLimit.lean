import CxxKit.Thread.PoolLedger

/-!
The thread limit, and that no queued task is stranded.

Without reserved threads `active_thread_count` is the number of threads of the
pool that neither wait nor have expired.  Three places compare it with the
limit: `try_start`, the worker's own check, and the branch of `start` that hands
the task to a waiting thread, which does not compare it at all.
-/

namespace CxxKit.ThreadPool

open List State Thread Transition

variable {s t : State} {tid : Nat} {th : Thread} {task : Task}

/-- Starts, changes of the limit and the workers' steps. -/
def Label.isPlain : Label → Bool
  | .start _ _ | .setMaxThreadCount _ => true
  | a => a.isTurn

/-- The pool when it is used by starts, changes of the limit and the workers only. -/
def plainMachine (ideal : Int) : Machine State Label := (machine ideal).restrict Label.isPlain

/-! ### Threads that neither wait nor have expired -/

def State.live (s : State) : List Nat :=
  s.mAllThreads.filter fun tid => tid ∉ s.mWaitingThreads ∧ tid ∉ s.mExpiredThreads

theorem State.mem_live : tid ∈ s.live ↔
    tid ∈ s.mAllThreads ∧ tid ∉ s.mWaitingThreads ∧ tid ∉ s.mExpiredThreads := by
  rw [live, mem_filter, decide_eq_true_iff]

theorem State.Sound.not_expired_of_waiting (h : s.Sound) (htid : tid ∈ s.mWaitingThreads) :
    tid ∉ s.mExpiredThreads := by
  intro hexpired
  obtain ⟨th, hth, hplace, -⟩ := h.waiting_thread htid
  obtain ⟨th', hth', hplace', -⟩ := h.expired_thread hexpired
  obtain rfl : th = th' := Option.some.inj (hth.symm.trans hth')
  rw [hplace] at hplace'
  cases hplace'

theorem State.Sound.live_perm (h : s.Sound) :
    (s.mWaitingThreads ++ s.mExpiredThreads ++ s.live).Perm s.mAllThreads := by
  have hlisted : (s.mWaitingThreads ++ s.mExpiredThreads).Nodup := by
    rw [nodup_append]
    refine ⟨h.waiting_nodup, h.expired_nodup, ?_⟩
    rintro x hx y hy rfl
    exact h.not_expired_of_waiting hx hy
  have hnodup : (s.mWaitingThreads ++ s.mExpiredThreads ++ s.live).Nodup := by
    rw [nodup_append]
    refine ⟨hlisted, h.all_nodup.filter _, ?_⟩
    rintro x hx y hy rfl
    obtain ⟨-, hwaiting, hexpired⟩ := mem_live.mp hy
    exact (mem_append.mp hx).elim hwaiting hexpired
  rw [perm_ext_iff_of_nodup hnodup h.all_nodup]
  intro x
  rw [mem_append, mem_append, mem_live]
  constructor
  · rintro ((hx | hx) | hx)
    · exact h.waiting_all x hx
    · exact h.expired_all x hx
    · exact hx.1
  · intro hx
    by_cases hwaiting : x ∈ s.mWaitingThreads
    · exact .inl (.inl hwaiting)
    · by_cases hexpired : x ∈ s.mExpiredThreads
      · exact .inl (.inr hexpired)
      · exact .inr ⟨hx, hwaiting, hexpired⟩

/-- Without reserved threads the active threads are the live ones. -/
theorem State.Sound.activeThreadCount (h : s.Sound) (hreserved : s.mReservedThreadCount = 0) :
    s.activeThreadCount = s.live.length := by
  have hlength := h.live_perm.length_eq
  rw [length_append, length_append] at hlength
  unfold State.activeThreadCount
  omega

/-- A live thread that runs nothing is one more than the threads that run something. -/
theorem State.Sound.running_lt (h : s.Sound) (hth : s.threads[tid]? = some th)
    (hidle : th.isRunning = false) (hlive : tid ∈ s.live) :
    s.threads.countP isRunning < s.live.length := by
  have hle : s.threads.countP isRunning ≤ (s.live.erase tid).length := by
    apply Indexed.countP_le_length
    intro x thx hx hrunning
    have hne : x ≠ tid := by
      rintro rfl
      obtain rfl : th = thx := Option.some.inj (hth.symm.trans hx)
      rw [hidle] at hrunning
      cases hrunning
    have hfits := h.fits x thx hx
    rw [mem_erase_of_ne hne, mem_live]
    unfold isRunning at hrunning
    split at hrunning
    next hplace =>
      rw [Thread.Fits, hplace] at hfits
      exact ⟨hfits.1, hfits.2.1, hfits.2.2.1⟩
    · cases hrunning
  have hlength := length_erase_of_mem hlive
  have hpos := length_pos_of_mem hlive
  omega

theorem Thread.Seeking.not_running (h : th.Seeking) : th.isRunning = false := by
  rcases h with hplace | hplace | hplace <;> simp [isRunning, hplace]

/-! ### What the steps do to the number of active threads -/

/-- The limit and the reserved threads stay, and `k` more threads are active. -/
structure Gains (k : Int) (s t : State) : Prop where
  active : t.activeThreadCount = s.activeThreadCount + k
  reserved : t.mReservedThreadCount = s.mReservedThreadCount
  limit : t.mMaxThreadCount = s.mMaxThreadCount
  limitSetAt : t.limitSetAt = s.limitSetAt

theorem Started.gains (hs : s.Sound) (hstarted : Started s task t) : Gains 1 s t := by
  cases hstarted with
  | startThread =>
    refine ⟨?_, rfl, rfl, rfl⟩
    unfold State.activeThreadCount State.startThread
    simp only [length_append, length_singleton]
    omega
  | recycleThread _ hwaiting =>
    refine ⟨?_, rfl, rfl, rfl⟩
    unfold State.activeThreadCount State.recycleThread State.enqueueTask
    rw [hwaiting]
    simp only [tail_cons, length_cons]
    omega
  | @restartThread tid rest _ hexpired =>
    obtain ⟨th, hth, -⟩ := hs.expired_thread (show tid ∈ s.mExpiredThreads by simp [hexpired])
    rw [State.restartThread, hth]
    refine ⟨?_, rfl, rfl, rfl⟩
    unfold activeThreadCount
    simp only [hexpired, tail_cons, length_cons]
    omega

/-- Handing the task to a waiting thread makes that thread active. -/
theorem handOver_gains {rest : List Nat} (hs : s.Sound)
    (hwaiting : s.mWaitingThreads = tid :: rest) :
    Gains 1 s (setTask { s with mWaitingThreads := rest } tid task) := by
  obtain ⟨th, hth, -⟩ := hs.waiting_thread (show tid ∈ s.mWaitingThreads by simp [hwaiting])
  rw [setTask, hth]
  refine ⟨?_, rfl, rfl, rfl⟩
  unfold activeThreadCount setThread
  simp only [hwaiting, length_cons]
  omega

theorem waitForTask_active :
    (s.waitForTask tid th).activeThreadCount = s.activeThreadCount - 1 := by
  change (s.mAllThreads.length : Int) - s.mExpiredThreads.length -
    (s.mWaitingThreads ++ [tid]).length + s.mReservedThreadCount = _
  unfold activeThreadCount
  rw [length_append, length_singleton]
  omega

theorem expire_active : (s.expire tid th).activeThreadCount = s.activeThreadCount - 1 := by
  change (s.mAllThreads.length : Int) - (s.mExpiredThreads ++ [tid]).length -
    s.mWaitingThreads.length + s.mReservedThreadCount = _
  unfold activeThreadCount
  rw [length_append, length_singleton]
  omega

/-- A waiting thread whose expiry timeout runs out moves from one list to the other. -/
theorem timesOut_active (hwaiting : tid ∈ s.mWaitingThreads) : (expire { s with
      mActiveThreadCount := s.mActiveThreadCount + 1
      mWaitingThreads := s.mWaitingThreads.erase tid } tid th).activeThreadCount =
      s.activeThreadCount := by
  have hlength := length_erase_of_mem hwaiting
  have hpos := length_pos_of_mem hwaiting
  rw [expire_active]
  unfold activeThreadCount
  dsimp only
  omega

/-- A worker's turn never makes more threads active, and makes fewer active only when the
queue is empty or too many are active. -/
theorem Turn.gains (hs : s.Sound) (hturn : Turn s tid th t) : Gains 0 s t ∨
    (Gains (-1) s t ∧ (t.mTaskQueue.mTasks = [] ∨ s.isTooManyThreadsActive = true)) := by
  cases hturn with
  | enters | own | popped | returns => exact .inl ⟨(Int.add_zero _).symm, rfl, rfl, rfl⟩
  | waits _ _ _ _ _ hempty => exact .inr ⟨⟨waitForTask_active, rfl, rfl, rfl⟩, .inl hempty⟩
  | expires _ _ _ _ hmany => exact .inr ⟨⟨expire_active, rfl, rfl, rfl⟩, .inr hmany⟩
  | timesOut _ hwaiting =>
    exact .inl ⟨(timesOut_active hwaiting).trans (Int.add_zero _).symm, rfl, rfl, rfl⟩
  | leaves _ hall =>
    have hwaiting : tid ∉ s.mWaitingThreads := fun hin => hall (hs.waiting_all tid hin)
    rw [erase_of_not_mem hwaiting]
    exact .inl ⟨(Int.add_zero _).symm, rfl, rfl, rfl⟩

theorem Turn.gains_le (hs : s.Sound) (hturn : Turn s tid th t) : ∃ k, k ≤ 0 ∧ Gains k s t := by
  rcases hturn.gains hs with hgains | ⟨hgains, -⟩
  · exact ⟨0, le_rfl, hgains⟩
  · exact ⟨-1, by decide, hgains⟩

/-! ### The limit -/

/-- The limit the pool goes by: it always uses at least one thread. -/
def State.limit (s : State) : Int := max 1 s.mMaxThreadCount

/-- At most the limit is active, or no slot holds a task that came after the last change of
the limit. -/
def State.Within (s : State) : Prop := s.activeThreadCount ≤ s.limit ∨
  ∀ (tid : Nat) (th : Thread) (task : Task), s.threads[tid]? = some th → th.mTask = some task →
    task.call < s.limitSetAt

/-- Tasks that came after the last change of the limit have begun below the limit. -/
def State.Limited (s : State) : Prop := ∀ b ∈ s.begun, b.limitSetAt ≤ b.task.call →
  (b.others : Int) < max 1 b.limit

/-- No start is made while a thread waits and the limit is reached. -/
def Guarded (s : State) : Label → Prop
  | .start _ _ => s.mWaitingThreads = [] ∨ s.activeThreadCount < s.limit
  | _ => True

theorem State.few_iff (hreserved : s.mReservedThreadCount = 0) :
    s.isTooManyThreadsActive = false ↔ s.activeThreadCount ≤ s.limit := by
  unfold isTooManyThreadsActive limit
  rw [decide_eq_false_iff_not]
  omega

theorem Started.within (hs : s.Sound) (hreserved : s.mReservedThreadCount = 0)
    (hstarted : Started s task t) : t.activeThreadCount ≤ t.limit := by
  have hgains := hstarted.gains hs
  have hbelow : s.activeThreadCount < s.limit := by
    cases hstarted with
    | startThread hguard =>
      rcases hguard with hall | hbelow
      · have hnone : s.live = [] := by simp [live, hall]
        rw [hs.activeThreadCount hreserved, hnone]
        exact Int.lt_of_lt_of_le (by decide) (le_max_left 1 s.mMaxThreadCount)
      · exact Int.lt_of_lt_of_le hbelow (le_max_right 1 s.mMaxThreadCount)
    | recycleThread hbelow | restartThread hbelow =>
      exact Int.lt_of_lt_of_le hbelow (le_max_right 1 s.mMaxThreadCount)
  rw [limit, hgains.limit, hgains.active]
  exact hbelow

theorem Placed.within (hplaced : Placed s task t) (hs : s.Sound)
    (hreserved : s.mReservedThreadCount = 0)
    (hguard : s.mWaitingThreads = [] ∨ s.activeThreadCount < s.limit) (h : s.Within) :
    t.Within := by
  cases hplaced with
  | started hstarted => exact .inl (hstarted.within hs hreserved)
  | @handOver tid rest hall hlimit hwaiting =>
    have hgains : Gains 1 s (setTask { s with mWaitingThreads := rest } tid task) :=
      handOver_gains hs hwaiting
    have hbelow : s.activeThreadCount < s.limit := by
      rcases hguard with hnil | hbelow
      · rw [hwaiting] at hnil
        cases hnil
      · exact hbelow
    left
    rw [limit, hgains.limit, hgains.active]
    exact hbelow
  | enqueue => exact h

/-- A turn fills no slot. -/
theorem Turn.slots (hturn : Turn s tid th t) (hth : s.threads[tid]? = some th) {x : Nat}
    {thx : Thread} (hx : t.threads[x]? = some thx) (hslot : thx.mTask = some task) :
    ∃ thy, s.threads[x]? = some thy ∧ thy.mTask = some task := by
  have hset : ∃ th', t.threads = s.threads.set tid th' ∧
      (th'.mTask = th.mTask ∨ th'.mTask = none) := by
    cases hturn with
    | own => exact ⟨_, rfl, .inr rfl⟩
    | enters | popped | waits | expires | timesOut | leaves | returns => exact ⟨_, rfl, .inl rfl⟩
  obtain ⟨th', hthreads, hkept⟩ := hset
  rw [hthreads] at hx
  by_cases hxt : x = tid
  · subst hxt
    rw [List.getElem?_set_self (List.getElem?_eq_some_iff.mp hth).1] at hx
    obtain rfl := Option.some.inj hx
    rcases hkept with hkept | hkept
    · exact ⟨th, hth, hkept ▸ hslot⟩
    · rw [hkept] at hslot
      cases hslot
  · rw [getElem?_set_ne (Ne.symm hxt)] at hx
    exact ⟨thx, hx, hslot⟩

theorem Turn.within (hturn : Turn s tid th t) (hs : s.Sound) (hth : s.threads[tid]? = some th)
    (h : s.Within) : t.Within := by
  obtain ⟨k, hk, hgains⟩ := hturn.gains_le hs
  rcases h with hle | hold
  · left
    have hle : s.activeThreadCount ≤ max 1 s.mMaxThreadCount := hle
    rw [limit, hgains.limit, hgains.active]
    omega
  · right
    intro x thx task hx hslot
    obtain ⟨thy, hy, hslot⟩ := hturn.slots hth hx hslot
    rw [hgains.limitSetAt]
    exact hold x thy task hy hslot

/-- A thread that begins a task while at most the limit is active begins it below the limit. -/
theorem State.Sound.begins_below (hs : s.Sound) (hreserved : s.mReservedThreadCount = 0)
    (hth : s.threads[tid]? = some th) (hseeking : th.Seeking) (hall : tid ∈ s.mAllThreads)
    (hwaiting : tid ∉ s.mWaitingThreads) (hle : s.activeThreadCount ≤ s.limit) :
    (s.threads.countP isRunning : Int) < s.limit := by
  have hexpired := (hs.seeking hth hseeking hall).2
  have hrunning := hs.running_lt hth hseeking.not_running
    (mem_live.mpr ⟨hall, hwaiting, hexpired⟩)
  rw [hs.activeThreadCount hreserved] at hle
  exact Int.lt_of_lt_of_le (Int.ofNat_lt.mpr hrunning) hle

theorem State.Limited.concat {b : Beginning} (h : s.Limited)
    (hb : b.limitSetAt ≤ b.task.call → (b.others : Int) < max 1 b.limit)
    (hbegun : t.begun = s.begun ++ [b]) : t.Limited := by
  intro c hc
  rw [hbegun] at hc
  rcases mem_append.mp hc with hc | hc
  · exact h c hc
  · rw [mem_singleton.mp hc]
    exact hb

theorem Turn.limited (hturn : Turn s tid th t) (hs : s.Sound)
    (hreserved : s.mReservedThreadCount = 0) (hth : s.threads[tid]? = some th) (hwithin : s.Within)
    (h : s.Limited) : t.Limited := by
  cases hturn with
  | own task hseeking hall hwaiting hslot =>
    refine h.concat ?_ rfl
    intro hafter
    apply hs.begins_below hreserved hth hseeking hall hwaiting
    rcases hwithin with hle | hold
    · exact hle
    · exact absurd hafter (Nat.not_le.mpr (hold tid th task hth hslot))
  | popped task hseeking hall hwaiting hslot hfew hfirst =>
    refine h.concat ?_ rfl
    intro _
    exact hs.begins_below hreserved hth hseeking hall hwaiting ((few_iff hreserved).mp hfew)
  | enters | waits | expires | timesOut | leaves | returns => exact h

/-- Every task in a slot has been accepted. -/
theorem State.Accounted.slot_lt (h : s.Accounted) (hth : s.threads[tid]? = some th)
    (hslot : th.mTask = some task) : task.call < s.calls := by
  have hholds : 0 < s.threads.countP (holds task.call) := by
    rw [countP_pos_iff]
    exact ⟨th, mem_of_getElem? hth, by simp [holds, hslot]⟩
  have hplaced := h.placed task.call
  rw [pending] at hplaced
  split at hplaced
  · assumption
  · omega

/-- `try_to_start_more_threads` keeps the limit, the reserved threads, the calls and the
records. -/
theorem startMore_keeps (hs : s.Sound) (rounds : Nat) :
    (startMore rounds s).mReservedThreadCount = s.mReservedThreadCount ∧
      (startMore rounds s).limitSetAt = s.limitSetAt ∧
      (startMore rounds s).calls = s.calls ∧ (startMore rounds s).begun = s.begun := by
  refine hs.more (P := fun t => t.mReservedThreadCount = s.mReservedThreadCount ∧
    t.limitSetAt = s.limitSetAt ∧ t.calls = s.calls ∧ t.begun = s.begun) ?_ rounds
    ⟨rfl, rfl, rfl, rfl⟩
  rintro u task v hu ⟨hreserved, hset, hcalls, hbegun⟩ hfirst hstarted
  have hgains := hstarted.gains hu
  have hadds := hstarted.adds hu
  exact ⟨hgains.reserved.trans hreserved, hgains.limitSetAt.trans hset,
    hadds.calls.trans hcalls, hadds.begun.trans hbegun⟩

/-- What holds in every state of a plain run whose starts are all guarded. -/
structure State.Moderate (s : State) : Prop where
  sound : s.Sound
  accounted : s.Accounted
  reserved : s.mReservedThreadCount = 0
  within : s.Within
  limited : s.Limited

theorem Placed.reserved (hs : s.Sound) (hplaced : Placed s task t) :
    t.mReservedThreadCount = s.mReservedThreadCount := by
  cases hplaced with
  | started hstarted => exact (hstarted.gains hs).reserved
  | handOver _ _ hwaiting => exact (handOver_gains hs hwaiting).reserved
  | enqueue => rfl

theorem moderate_initial (ideal : Int) : (initial ideal).Moderate :=
  ⟨sound_initial ideal, accounted_initial ideal, rfl, .inr nofun, nofun⟩

theorem Placed.moderate {object : Nat}
    (hplaced : Placed { s with calls := s.calls + 1 } (s.newTask object) t) (h : s.Moderate)
    (hguard : s.mWaitingThreads = [] ∨ s.activeThreadCount < s.limit) : t.Moderate := by
  have hs : State.Sound { s with calls := s.calls + 1 } :=
    h.sound.congr rfl rfl rfl rfl rfl rfl
  have hadds := hplaced.adds hs
  constructor
  · exact hplaced.sound hs
  · exact h.accounted.accept hadds
  · exact (hplaced.reserved hs).trans h.reserved
  · exact hplaced.within hs h.reserved hguard h.within
  · intro b hb
    rw [hadds.begun] at hb
    exact h.limited b hb

theorem State.Moderate.setMaxThreadCount (h : s.Moderate) (count : Int) :
    (s.setMaxThreadCount count).Moderate := by
  unfold State.setMaxThreadCount
  split
  · obtain ⟨u, hu⟩ : ∃ u : State, u = { s with mMaxThreadCount := count, limitSetAt := s.calls } :=
      ⟨_, rfl⟩
    have hs : u.Sound := hu ▸ h.sound.congr rfl rfl rfl rfl rfl rfl
    have ha : u.Accounted := hu ▸ ⟨h.accounted.placed, h.accounted.begun⟩
    rw [← hu, tryToStartMoreThreads]
    have hsound := hs.startMore (u.mTaskQueue.mTasks.length + u.mWaitingThreads.length)
    have haccounted := ha.startMore hs (u.mTaskQueue.mTasks.length + u.mWaitingThreads.length)
    obtain ⟨hreserved, hset, hcalls, hbegun⟩ :=
      startMore_keeps hs (u.mTaskQueue.mTasks.length + u.mWaitingThreads.length)
    refine ⟨hsound, haccounted, ?_, ?_, ?_⟩
    · rw [hreserved, hu]
      exact h.reserved
    · -- every task in a slot was accepted before this change
      right
      intro x thx task hx hslot
      have hlt := haccounted.slot_lt hx hslot
      rw [hcalls, hu] at hlt
      rw [hset, hu]
      exact hlt
    · intro b hb
      rw [hbegun, hu] at hb
      exact h.limited b hb
  · exact h

theorem Turn.moderate (hturn : Turn s tid th t) (h : s.Moderate) (hth : s.threads[tid]? = some th) :
    t.Moderate := by
  obtain ⟨k, -, hgains⟩ := hturn.gains_le h.sound
  constructor
  · exact hturn.sound h.sound hth
  · exact hturn.accounted h.accounted hth
  · exact hgains.reserved.trans h.reserved
  · exact hturn.within h.sound hth h.within
  · exact hturn.limited h.sound h.reserved hth h.within h.limited

theorem State.Moderate.step {a : Label} (h : s.Moderate) (hguarded : Guarded s a)
    (hplain : a.isPlain = true) (hstep : step s a = some t) : t.Moderate := by
  cases step_effect h.sound hstep with
  | start object priority hplaced => exact hplaced.moderate h hguarded
  | setMaxThreadCount count => exact h.setMaxThreadCount count
  | turn tid th _ hth hturn => exact hturn.moderate h hth
  | tryStartNow | refused | cancel | clear | reserveThread | releaseThread | waitForDone
  | testDone | stopThread | joinThread | afterReset => cases hplain

/-- **The limit.** In every run of starts, changes of the limit and workers' steps whose
starts find no thread waiting at the limit, a task that came after the last change of the
limit begins while fewer tasks than the limit are running. -/
theorem begins_below_limit (ideal : Int) (run : List Label)
    (h : (plainMachine ideal).Meets Guarded (initial ideal) run) :
    (plainMachine ideal).Always State.Limited (initial ideal) run := by
  have halways : (plainMachine ideal).Always State.Moderate (initial ideal) run := by
    apply Machine.always_of_meets _ (moderate_initial ideal) h
    intro s a t hs hguarded hstep
    obtain ⟨hplain, hstep⟩ := Machine.restrict_step.mp hstep
    exact hs.step hguarded hplain hstep
  exact halways.mono fun s hs => hs.limited

/-- One task runs, a second waits in the queue until the first is done. -/
def limitedRun : List Label :=
  [.start 7 .kNormal, .enterRun 0, .lock 0, .start 8 .kNormal, .taskReturns 0, .relock 0]

theorem begins_below_limit_one_thread : ((plainMachine 1).run (initial 1) limitedRun).map
        (fun s => s.begun.map fun b => (b.task.object, b.others)) = some [(7, 0), (8, 0)] ∧
      (plainMachine 1).Always State.Limited (initial 1) limitedRun := by
  refine ⟨rfl, begins_below_limit 1 limitedRun ?_⟩
  rintro s₁ ⟨⟩
  refine ⟨.inl rfl, ?_⟩
  rintro s₂ ⟨⟩
  refine ⟨trivial, ?_⟩
  rintro s₃ ⟨⟩
  refine ⟨trivial, ?_⟩
  rintro s₄ ⟨⟩
  refine ⟨.inl rfl, ?_⟩
  rintro s₅ ⟨⟩
  refine ⟨trivial, ?_⟩
  rintro s₆ ⟨⟩
  refine ⟨trivial, ?_⟩
  trivial

/-- Of two threads one runs a task and one waits when the limit is lowered to one. -/
def overLimitRun : List Label :=
  [.start 7 .kNormal, .start 8 .kNormal, .enterRun 0, .lock 0, .enterRun 1, .lock 1,
    .taskReturns 1, .relock 1, .setMaxThreadCount 1, .start 9 .kNormal, .wakeUp 1]

theorem limit_exceeded : ∃ s, (plainMachine 2).run (initial 2) overLimitRun = some s ∧
    ¬ s.Limited := by
  refine ⟨_, rfl, ?_⟩
  intro h
  have hbelow := h ⟨⟨9, 2⟩, 1, 1, 2⟩ (mem_of_getElem? (i := 2) rfl) (by decide)
  exact absurd hbelow (by decide)

end CxxKit.ThreadPool
