import CxxKit.Lib.Indexed
import CxxKit.Thread.ThreadPool

/-!
The lists of the pool and the places of its threads.

`Sound` says of every thread which of the three lists it may be in at the place
it has reached, and that `mActiveThreadCount` is the number of threads that are
neither in their wait nor at the end of `run`.  It holds in every state a pool
can reach, whatever the calls and whatever the limit.
-/

namespace CxxKit.ThreadPool

open List

/-- The threads that `mActiveThreadCount` counts. -/
def Thread.isActive (th : Thread) : Bool :=
  match th.place with
  | .waiting | .exited => false
  | _ => true

/-- What a thread is like that is in the given lists. -/
def Thread.Fits (th : Thread) (all waiting expired : Prop) : Prop :=
  match th.place with
  | .created => all ∧ ¬waiting ∧ ¬expired
  | .entering => all ∧ ¬waiting ∧ ¬expired ∧ th.mExit = false
  | .running _ | .ran => all ∧ ¬waiting ∧ ¬expired ∧ th.mExit = false ∧ th.mTask = none
  | .waiting => ¬expired ∧ (waiting → th.mTask = none) ∧ (all → th.mExit = false)
  | .exited => ¬waiting ∧ (all → expired ∧ th.mTask = none)

/-- The threads a call of `wait_for_done` has still to stop or to join. -/
def Phase.threads : Phase → List Nat
  | .waiting | .returned _ => []
  | .stopping threads => threads
  | .joining thread threads => thread :: threads

structure State.Sound (s : State) : Prop where
  all_nodup : s.mAllThreads.Nodup
  waiting_nodup : s.mWaitingThreads.Nodup
  expired_nodup : s.mExpiredThreads.Nodup
  all_lt : ∀ tid ∈ s.mAllThreads, tid < s.threads.length
  waiting_all : ∀ tid ∈ s.mWaitingThreads, tid ∈ s.mAllThreads
  expired_all : ∀ tid ∈ s.mExpiredThreads, tid ∈ s.mAllThreads
  fits : ∀ (tid : Nat) (th : Thread), s.threads[tid]? = some th →
    th.Fits (tid ∈ s.mAllThreads) (tid ∈ s.mWaitingThreads) (tid ∈ s.mExpiredThreads)
  active : s.mActiveThreadCount = s.threads.countP Thread.isActive
  stopped : ∀ w ∈ s.waiters, ∀ tid ∈ w.phase.threads,
    tid < s.threads.length ∧ tid ∉ s.mAllThreads

theorem sound_initial (ideal : Int) : (initial ideal).Sound := by
  constructor <;> simp [initial]

variable {s t : State} {tid : Nat} {th th' : Thread} {xs : List Nat}

theorem State.Sound.thread (h : s.Sound) (htid : tid ∈ s.mAllThreads) :
    ∃ th, s.threads[tid]? = some th :=
  ⟨_, getElem?_eq_getElem (h.all_lt tid htid)⟩

theorem State.Sound.waiting_thread (h : s.Sound) (htid : tid ∈ s.mWaitingThreads) :
    ∃ th, s.threads[tid]? = some th ∧ th.place = .waiting ∧ th.mTask = none ∧
      th.mExit = false := by
  have hall := h.waiting_all tid htid
  obtain ⟨th, hth⟩ := h.thread hall
  have hfits := h.fits tid th hth
  unfold Thread.Fits at hfits
  cases hplace : th.place with
  | waiting =>
    rw [hplace] at hfits
    exact ⟨th, hth, hplace, hfits.2.1 htid, hfits.2.2 hall⟩
  | exited =>
    rw [hplace] at hfits
    exact absurd htid hfits.1
  | created | entering | running | ran =>
    rw [hplace] at hfits
    exact absurd htid hfits.2.1

theorem State.Sound.expired_thread (h : s.Sound) (htid : tid ∈ s.mExpiredThreads) :
    ∃ th, s.threads[tid]? = some th ∧ th.place = .exited ∧ th.mTask = none := by
  have hall := h.expired_all tid htid
  obtain ⟨th, hth⟩ := h.thread hall
  have hfits := h.fits tid th hth
  unfold Thread.Fits at hfits
  cases hplace : th.place with
  | exited =>
    rw [hplace] at hfits
    exact ⟨th, hth, hplace, (hfits.2 hall).2⟩
  | waiting =>
    rw [hplace] at hfits
    exact absurd htid hfits.1
  | created =>
    rw [hplace] at hfits
    exact absurd htid hfits.2.2
  | entering | running | ran =>
    rw [hplace] at hfits
    exact absurd htid hfits.2.2.1

/-! ### Lists in which one element moves -/

/-- The lists differ in whether `tid` is in them, and in nothing else but their order. -/
structure Moves (tid : Nat) (xs ys : List Nat) : Prop where
  nodup : ys.Nodup
  others : ∀ x, x ≠ tid → (x ∈ ys ↔ x ∈ xs)

theorem Moves.refl (h : xs.Nodup) : Moves tid xs xs := ⟨h, fun _ _ => Iff.rfl⟩

theorem Moves.append (h : xs.Nodup) (htid : tid ∉ xs) : Moves tid xs (xs ++ [tid]) := by
  constructor
  · rw [nodup_append]
    refine ⟨h, nodup_singleton tid, ?_⟩
    rintro x hx y hy rfl
    rw [mem_singleton] at hy
    exact htid (hy ▸ hx)
  · intro x hx
    simp [hx]

theorem Moves.erase (h : xs.Nodup) : Moves tid xs (xs.erase tid) :=
  ⟨h.erase tid, fun _ hx => mem_erase_of_ne hx⟩

theorem Moves.tail (h : (tid :: xs).Nodup) : Moves tid (tid :: xs) xs := by
  constructor
  · exact h.of_cons
  · intro x hx
    simp [hx]

/-! ### Replacing one thread -/

/-- **Frame rule.** A step that replaces one thread and moves no other between the lists
keeps the pool sound if the new thread fits its lists and the count follows it. -/
theorem State.Sound.replace (h : s.Sound) (hth : s.threads[tid]? = some th)
    (hthreads : t.threads = s.threads.set tid th') (hall : t.mAllThreads = s.mAllThreads)
    (hwaiting : Moves tid s.mWaitingThreads t.mWaitingThreads)
    (hexpired : Moves tid s.mExpiredThreads t.mExpiredThreads)
    (hlisted : tid ∈ t.mWaitingThreads ∨ tid ∈ t.mExpiredThreads → tid ∈ s.mAllThreads)
    (hfits : th'.Fits (tid ∈ s.mAllThreads) (tid ∈ t.mWaitingThreads) (tid ∈ t.mExpiredThreads))
    (hactive : t.mActiveThreadCount + th.isActive.toNat = s.mActiveThreadCount + th'.isActive.toNat)
    (hwaiters : t.waiters = s.waiters) : t.Sound where
  all_nodup := hall ▸ h.all_nodup
  waiting_nodup := hwaiting.nodup
  expired_nodup := hexpired.nodup
  all_lt := by
    rw [hall, hthreads, length_set]
    exact h.all_lt
  waiting_all := by
    intro x hx
    rw [hall]
    by_cases hxt : x = tid
    · exact hxt ▸ hlisted (.inl (hxt ▸ hx))
    · exact h.waiting_all x ((hwaiting.others x hxt).mp hx)
  expired_all := by
    intro x hx
    rw [hall]
    by_cases hxt : x = tid
    · exact hxt ▸ hlisted (.inr (hxt ▸ hx))
    · exact h.expired_all x ((hexpired.others x hxt).mp hx)
  fits := by
    intro x thx hx
    rw [hthreads] at hx
    rw [hall]
    by_cases hxt : x = tid
    · subst hxt
      have hlt : x < s.threads.length := (List.getElem?_eq_some_iff.mp hth).1
      rw [getElem?_set_self hlt] at hx
      exact Option.some.inj hx ▸ hfits
    · rw [getElem?_set_ne (Ne.symm hxt)] at hx
      rw [hwaiting.others x hxt, hexpired.others x hxt]
      exact h.fits x thx hx
  active := by
    have hcount := Indexed.countP_set_add Thread.isActive th' hth
    have hbefore := h.active
    rw [hthreads]
    omega
  stopped := by
    rw [hwaiters, hall, hthreads, length_set]
    exact h.stopped

/-- Soundness looks at the lists, the threads, the count and the waiters only. -/
theorem State.Sound.congr (h : s.Sound) (hthreads : t.threads = s.threads)
    (hall : t.mAllThreads = s.mAllThreads) (hwaiting : t.mWaitingThreads = s.mWaitingThreads)
    (hexpired : t.mExpiredThreads = s.mExpiredThreads)
    (hactive : t.mActiveThreadCount = s.mActiveThreadCount) (hwaiters : t.waiters = s.waiters) :
    t.Sound := by
  constructor
  · exact hall ▸ h.all_nodup
  · exact hwaiting ▸ h.waiting_nodup
  · exact hexpired ▸ h.expired_nodup
  · exact hall ▸ hthreads ▸ h.all_lt
  · exact hall ▸ hwaiting ▸ h.waiting_all
  · exact hall ▸ hexpired ▸ h.expired_all
  · rw [hthreads, hall, hwaiting, hexpired]
    exact h.fits
  · rw [hactive, hthreads]
    exact h.active
  · rw [hwaiters, hall, hthreads]
    exact h.stopped

end CxxKit.ThreadPool
