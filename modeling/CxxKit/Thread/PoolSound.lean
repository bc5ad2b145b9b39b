import CxxKit.Thread.PoolSteps

/-!
Soundness of the pool in every reachable state.
-/

namespace CxxKit.ThreadPool

open List State Thread

variable {s t : State} {tid : Nat} {th : Thread} {task : Task}

section

variable (h : s.Sound) {rest : List Nat}

include h

theorem State.Sound.startThread : (s.startThread task).Sound := by
  have hnew : s.threads.length ∉ s.mAllThreads := fun hmem => (h.all_lt _ hmem).false
  have hmem {x : Nat} (hx : x ∈ s.mAllThreads ++ [s.threads.length]) :
      x ∈ s.mAllThreads ∨ x = s.threads.length := by
    simpa using hx
  constructor
  · exact (Moves.append h.all_nodup hnew).nodup
  · exact h.waiting_nodup
  · exact h.expired_nodup
  · intro x hx
    change x < (s.threads ++ [_]).length
    rw [length_append]
    rcases hmem hx with hx | rfl
    · exact Nat.lt_succ_of_lt (h.all_lt x hx)
    · exact Nat.lt_succ_self _
  · intro x hx
    exact mem_append_left _ (h.waiting_all x hx)
  · intro x hx
    exact mem_append_left _ (h.expired_all x hx)
  · intro x thx hx
    change (s.threads ++ [_])[x]? = some thx at hx
    change thx.Fits (x ∈ s.mAllThreads ++ [s.threads.length]) (x ∈ s.mWaitingThreads)
      (x ∈ s.mExpiredThreads)
    rcases Nat.lt_or_ge x s.threads.length with hlt | hge
    · have hold : x ∈ s.mAllThreads ++ [s.threads.length] ↔ x ∈ s.mAllThreads := by
        simp [Nat.ne_of_lt hlt]
      rw [getElem?_append_left hlt] at hx
      rw [hold]
      exact h.fits x thx hx
    · rw [getElem?_append_right hge, getElem?_singleton] at hx
      split at hx
      next hzero =>
        obtain rfl : x = s.threads.length := by omega
        obtain rfl := Option.some.inj hx
        refine ⟨by simp, fun hw => hnew (h.waiting_all _ hw), fun he => hnew (h.expired_all _ he)⟩
      · cases hx
  · change s.mActiveThreadCount + 1 = ((s.threads ++ [_]).countP isActive : Nat)
    rw [h.active, countP_append]
    rfl
  · intro w hw x hx
    obtain ⟨hlt, hall⟩ := h.stopped w hw x hx
    refine ⟨?_, ?_⟩
    · change x < (s.threads ++ [_]).length
      rw [length_append]
      exact Nat.lt_add_right _ hlt
    · intro hx
      rcases hmem hx with hx | rfl
      · exact hall hx
      · exact hlt.false

theorem State.Sound.recycleThread (hwaiting : s.mWaitingThreads = tid :: rest) :
    (s.recycleThread task).Sound := by
  have htid : tid ∈ s.mWaitingThreads := by simp [hwaiting]
  obtain ⟨th, hth, hplace, hslot, hexit⟩ := h.waiting_thread htid
  have hfits := h.fits tid th hth
  have hmoves : Moves tid s.mWaitingThreads s.mWaitingThreads.tail := by
    rw [hwaiting]
    exact .tail (hwaiting ▸ h.waiting_nodup)
  have hgone : tid ∉ s.mWaitingThreads.tail := by
    exact (nodup_cons.mp (hwaiting ▸ h.waiting_nodup)).1
  rw [Thread.Fits, hplace] at hfits
  refine h.replace hth ?_ rfl hmoves (.refl h.expired_nodup) ?_ ?_ rfl rfl
  · obtain ⟨hlt, heq⟩ := List.getElem?_eq_some_iff.mp hth
    rw [← heq, set_getElem_self]
    rfl
  · intro _
    exact h.waiting_all tid htid
  · rw [Thread.Fits, hplace]
    exact ⟨hfits.1, fun hin => absurd hin hgone, hfits.2.2⟩

theorem State.Sound.restartThread (hexpired : s.mExpiredThreads = tid :: rest) :
    (s.restartThread tid task).Sound := by
  have htid : tid ∈ s.mExpiredThreads := by simp [hexpired]
  obtain ⟨th, hth, hplace, hslot⟩ := h.expired_thread htid
  have hfits := h.fits tid th hth
  have hmoves : Moves tid s.mExpiredThreads s.mExpiredThreads.tail := by
    rw [hexpired]
    exact .tail (hexpired ▸ h.expired_nodup)
  have hgone : tid ∉ s.mExpiredThreads.tail := by
    exact (nodup_cons.mp (hexpired ▸ h.expired_nodup)).1
  have hall := h.expired_all tid htid
  have hidle : th.isActive = false := by simp [isActive, hplace]
  rw [Thread.Fits, hplace] at hfits
  rw [State.restartThread, hth]
  refine h.replace hth rfl rfl (.refl h.waiting_nodup) hmoves ?_ ?_ ?_ rfl
  · intro _
    exact hall
  · exact ⟨hall, hfits.1, hgone⟩
  · rw [hidle]
    exact Int.add_zero (s.mActiveThreadCount + 1)

theorem Started.sound (hstarted : Started s task t) : t.Sound := by
  cases hstarted with
  | startThread => exact h.startThread
  | recycleThread _ hwaiting => exact h.recycleThread hwaiting
  | restartThread _ hexpired => exact h.restartThread hexpired

theorem Placed.sound (hplaced : Placed s task t) : t.Sound := by
  cases hplaced with
  | started hstarted => exact hstarted.sound h
  | @handOver tid rest _ _ hwaiting =>
    have htid : tid ∈ s.mWaitingThreads := by simp [hwaiting]
    obtain ⟨th, hth, hplace, hslot, hexit⟩ := h.waiting_thread htid
    have hfits := h.fits tid th hth
    have hnodup := hwaiting ▸ h.waiting_nodup
    have hgone : tid ∉ rest := (nodup_cons.mp hnodup).1
    rw [Thread.Fits, hplace] at hfits
    rw [setTask, hth]
    refine h.replace hth rfl rfl (hwaiting ▸ .tail hnodup) (.refl h.expired_nodup) ?_ ?_ rfl rfl
    · intro _
      exact h.waiting_all tid htid
    · rw [hplace]
      exact ⟨hfits.1, fun hin => absurd hin hgone, hfits.2.2⟩
  | enqueue => exact h.congr rfl rfl rfl rfl rfl rfl

theorem State.Sound.startMore (rounds : Nat) : (State.startMore rounds s).Sound := by
  apply startMore_induct _ rounds h
  intro s task t hs _ hstarted
  exact (hstarted.sound hs).congr rfl rfl rfl rfl rfl rfl

/-- In a sound state the loop keeps what each of its rounds keeps. -/
theorem State.Sound.more {P : State → Prop}
    (hround : ∀ u task t, u.Sound → P u → u.mTaskQueue.first = some task → Started u task t →
      P { t with mTaskQueue := t.mTaskQueue.pop.2 })
    (rounds : Nat) (hP : P s) : P (State.startMore rounds s) := by
  refine (startMore_induct (P := fun u => u.Sound ∧ P u) ?_ rounds ⟨h, hP⟩).2
  rintro u task t ⟨hu, hP⟩ hfirst hstarted
  exact ⟨(hstarted.sound hu).congr rfl rfl rfl rfl rfl rfl, hround u task t hu hP hfirst hstarted⟩

/-- A thread of the pool that looks for a task has not been told to exit. -/
theorem State.Sound.seeking (hth : s.threads[tid]? = some th)
    (hseeking : th.Seeking) (hall : tid ∈ s.mAllThreads) :
    th.mExit = false ∧ tid ∉ s.mExpiredThreads := by
  have hfits := h.fits tid th hth
  rcases hseeking with hplace | hplace | hplace
  · rw [Thread.Fits, hplace] at hfits
    exact ⟨hfits.2.2.2, hfits.2.2.1⟩
  · rw [Thread.Fits, hplace] at hfits
    exact ⟨hfits.2.2.2.1, hfits.2.2.1⟩
  · rw [Thread.Fits, hplace] at hfits
    exact ⟨hfits.2.2 hall, hfits.1⟩

end

/-- Counting a thread that may be counted already. -/
theorem counting_active (n : Int) (b : Bool) : n + (!b).toNat + b.toNat = n + 1 := by
  cases b <;> simp

/-- Counting it and then taking it from the count. -/
theorem counting_inactive (n : Int) (b : Bool) : n + (!b).toNat - 1 + b.toNat = n + 0 := by
  cases b <;> simp

variable (h : s.Sound) {waiter : Waiter} {a : Label} {w : Nat}
include h

theorem State.Sound.beginTask (task : Task) (hth : s.threads[tid]? = some th)
    (hseeking : th.Seeking) (hall : tid ∈ s.mAllThreads) (hwaiting : tid ∉ s.mWaitingThreads)
    (q : TaskQueue) : (beginTask { s.counting th with mTaskQueue := q } tid
      { th with mTask := none } task).Sound := by
  obtain ⟨hexit, hexpired⟩ := h.seeking hth hseeking hall
  refine h.replace hth rfl rfl (.refl h.waiting_nodup) (.refl h.expired_nodup) (fun _ => hall) ?_
    (counting_active _ _) rfl
  exact ⟨hall, hwaiting, hexpired, hexit, rfl⟩

theorem Turn.sound (hth : s.threads[tid]? = some th) (hturn : Turn s tid th t) : t.Sound := by
  have hfits := h.fits tid th hth
  cases hturn with
  | enters hplace =>
    rw [Thread.Fits, hplace] at hfits
    have hactive : th.isActive = true := by simp [isActive, hplace]
    refine h.replace hth rfl rfl (.refl h.waiting_nodup) (.refl h.expired_nodup)
      (fun _ => hfits.1) ?_ (by rw [hactive]; rfl) rfl
    exact ⟨hfits.1, hfits.2.1, hfits.2.2, rfl⟩
  | own task hseeking hall hwaiting hslot =>
    exact h.beginTask task hth hseeking hall hwaiting s.mTaskQueue
  | popped task hseeking hall hwaiting hslot hfew hfirst =>
    have hbegin := h.beginTask task hth hseeking hall hwaiting s.mTaskQueue.pop.2
    rw [← hslot] at hbegin
    exact hbegin
  | waits hseeking hall hwaiting hslot hfew hempty =>
    obtain ⟨hexit, hexpired⟩ := h.seeking hth hseeking hall
    refine h.replace hth rfl rfl (.append h.waiting_nodup hwaiting) (.refl h.expired_nodup)
      (fun _ => hall) ?_ (counting_inactive _ _) rfl
    exact ⟨hexpired, fun _ => hslot, fun _ => hexit⟩
  | expires hseeking hall hwaiting hslot hmany =>
    obtain ⟨hexit, hexpired⟩ := h.seeking hth hseeking hall
    refine h.replace hth rfl rfl (.refl h.waiting_nodup) (.append h.expired_nodup hexpired)
      (fun _ => hall) ?_ (counting_inactive _ _) rfl
    exact ⟨hwaiting, fun _ => ⟨mem_concat_self, hslot⟩⟩
  | timesOut hplace hwaiting =>
    rw [Thread.Fits, hplace] at hfits
    have hidle : th.isActive = false := by simp [isActive, hplace]
    have hgone : tid ∉ s.mWaitingThreads.erase tid := h.waiting_nodup.not_mem_erase
    refine h.replace hth rfl rfl (.erase h.waiting_nodup) (.append h.expired_nodup hfits.1)
      (fun _ => h.waiting_all tid hwaiting) ?_ ?_ rfl
    · exact ⟨hgone, fun _ => ⟨mem_concat_self, hfits.2.1 hwaiting⟩⟩
    · have hcount := counting_inactive s.mActiveThreadCount th.isActive
      rw [hidle] at hcount ⊢
      exact hcount
  | leaves hplace hall =>
    rw [Thread.Fits, hplace] at hfits
    have hidle : th.isActive = false := by simp [isActive, hplace]
    have hgone : tid ∉ s.mWaitingThreads.erase tid := h.waiting_nodup.not_mem_erase
    refine h.replace hth rfl rfl (.erase h.waiting_nodup) (.refl h.expired_nodup) ?_ ?_ ?_ rfl
    · rintro (hin | hin)
      · exact absurd hin hgone
      · exact absurd hin hfits.1
    · exact ⟨hgone, fun hin => absurd hin hall⟩
    · have hcount := counting_inactive s.mActiveThreadCount th.isActive
      rw [hidle] at hcount ⊢
      exact hcount
  | returns task hplace =>
    rw [Thread.Fits, hplace] at hfits
    have hactive : th.isActive = true := by simp [isActive, hplace]
    refine h.replace hth rfl rfl (.refl h.waiting_nodup) (.refl h.expired_nodup)
      (fun _ => hfits.1) hfits (by rw [hactive]; rfl) rfl

/-! ### The calls of `wait_for_done` -/

/-- Soundness when one waiter, and perhaps the `mExit` of a thread out of the pool, changes. -/
theorem State.Sound.setWaiter
    (hstopped : ∀ tid ∈ waiter.phase.threads, tid < s.threads.length ∧ tid ∉ s.mAllThreads) :
    (s.setWaiter w waiter).Sound where
  all_nodup := h.all_nodup
  waiting_nodup := h.waiting_nodup
  expired_nodup := h.expired_nodup
  all_lt := h.all_lt
  waiting_all := h.waiting_all
  expired_all := h.expired_all
  fits := h.fits
  active := h.active
  stopped := by
    intro v hv
    rcases mem_or_eq_of_mem_set hv with hv | rfl
    · exact h.stopped v hv
    · exact hstopped

/-- Telling a thread that is out of the pool to exit. -/
theorem State.Sound.setExit (hth : s.threads[tid]? = some th) (hall : tid ∉ s.mAllThreads) :
    (s.setThread tid { th with mExit := true }).Sound := by
  have hfits := h.fits tid th hth
  refine h.replace hth rfl rfl (.refl h.waiting_nodup) (.refl h.expired_nodup) ?_ ?_ rfl rfl
  · rintro (hin | hin)
    · exact h.waiting_all tid hin
    · exact h.expired_all tid hin
  · unfold Thread.Fits at hfits ⊢
    cases hplace : th.place with
    | waiting =>
      rw [hplace] at hfits
      exact ⟨hfits.1, hfits.2.1, fun hin => absurd hin hall⟩
    | exited =>
      rw [hplace] at hfits
      exact hfits
    | created | entering | running | ran =>
      rw [hplace] at hfits
      exact absurd hfits.1 hall

/-- When the count is zero every thread waits or has exited. -/
theorem State.Sound.not_active (hzero : s.mActiveThreadCount = 0)
    (hth : s.threads[tid]? = some th) : th.isActive = false := by
  have hcount := h.active
  rw [hzero] at hcount
  have hnone := countP_eq_zero.mp (Int.ofNat_inj.mp hcount.symm) th (mem_of_getElem? hth)
  exact Bool.eq_false_iff.mpr hnone

omit h in
theorem State.isDone_iff : s.isDone = true ↔
    s.mTaskQueue.mTasks = [] ∧ s.mActiveThreadCount = 0 := by
  rw [isDone, Bool.and_eq_true, TaskQueue.empty_iff, beq_iff_eq]

/-- `reset` empties the lists; the threads that were in them wait or have exited. -/
theorem State.Sound.reset (hdone : s.isDone = true) :
    (State.setWaiter { s with mAllThreads := [], mExpiredThreads := [], mWaitingThreads := [] } w
      { waiter with phase := .stopping s.mAllThreads }).Sound where
  all_nodup := nodup_nil
  waiting_nodup := nodup_nil
  expired_nodup := nodup_nil
  all_lt := nofun
  waiting_all := nofun
  expired_all := nofun
  fits := by
    intro tid th hth
    have hidle := h.not_active (isDone_iff.mp hdone).2 hth
    unfold Thread.Fits
    unfold isActive at hidle
    cases hplace : th.place with
    | waiting => exact ⟨nofun, nofun, nofun⟩
    | exited => exact ⟨nofun, nofun⟩
    | created | entering | running | ran =>
      rw [hplace] at hidle
      cases hidle
  active := h.active
  stopped := by
    intro v hv tid htid
    refine ⟨?_, nofun⟩
    rcases mem_or_eq_of_mem_set hv with hv | rfl
    · exact (h.stopped v hv tid htid).1
    · exact h.all_lt tid htid

theorem Effect.sound (heffect : Effect s a t) : t.Sound := by
  have haccepted : State.Sound { s with calls := s.calls + 1 } := h.congr rfl rfl rfl rfl rfl rfl
  cases heffect with
  | start object priority hplaced => exact hplaced.sound haccepted
  | tryStartNow object hstarted => exact hstarted.sound haccepted
  | refused object => exact h
  | cancel object | clear | reserveThread => exact h.congr rfl rfl rfl rfl rfl rfl
  | setMaxThreadCount count =>
    unfold State.setMaxThreadCount
    split
    · apply State.Sound.startMore
      exact h.congr rfl rfl rfl rfl rfl rfl
    · exact h
  | releaseThread =>
    apply State.Sound.startMore
    exact h.congr rfl rfl rfl rfl rfl rfl
  | waitForDone forever =>
    refine ⟨h.all_nodup, h.waiting_nodup, h.expired_nodup, h.all_lt, h.waiting_all, h.expired_all,
      h.fits, h.active, ?_⟩
    exact forall_mem_append.mpr ⟨h.stopped, forall_mem_singleton.mpr nofun⟩
  | turn tid th _ hth hturn => exact hturn.sound h hth
  | testDone w waiter hfound hphase htest =>
    unfold State.testDone at htest
    split at htest
    next hdone =>
      cases htest
      exact h.reset hdone
    · split at htest
      · cases htest
      · cases htest
        exact h.setWaiter nofun
  | stopThread w waiter tid rest th hfound hphase hth =>
    have hstopped := h.stopped waiter (mem_of_getElem? hfound)
    rw [hphase] at hstopped
    apply (h.setExit hth (hstopped tid mem_cons_self).2).setWaiter
    intro x hx
    rw [setThread, length_set]
    exact hstopped x hx
  | joinThread w waiter tid rest hfound hphase =>
    have hstopped := h.stopped waiter (mem_of_getElem? hfound)
    rw [hphase] at hstopped
    exact h.setWaiter fun x hx => hstopped x (mem_cons_of_mem tid hx)
  | afterReset w waiter timeLeft hfound hphase =>
    unfold State.afterReset
    split
    · exact h.setWaiter nofun
    · exact h.setWaiter nofun

theorem step_sound (hstep : step s a = some t) : t.Sound :=
  (step_effect h hstep).sound h

end CxxKit.ThreadPool
