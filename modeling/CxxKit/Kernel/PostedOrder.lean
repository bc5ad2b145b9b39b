import CxxKit.Kernel.PostedTasks

/-!
The order in which posted tasks run.

Only a nested or concurrent call can run a task too early: its snapshot holds tasks that were
posted after those another call still has to run.
-/

namespace CxxKit.PostedTasks

open List

open Kernel (EventEntry)

/-- A call that dispatches an event entry has started all tasks of its snapshot before. -/
def State.SnapshotFirst (s : State) : Prop :=
  ∀ (i r : Nat) (entry : EventEntry), s.log[i]? = some (.dispatched r entry) →
    ∀ round, s.rounds[r]? = some round → ∀ t ∈ round.snapshot, .started r t ∈ s.log.take i

/-- Tasks are started in the order they were posted and so at most once.  A task that was
posted after a call had taken the queue is started by a later call. -/
structure State.Orderly (s : State) : Prop where
  inOrder : s.started = range s.started.length
  laterRound : ∀ r t, .started r t ∈ s.log → ∀ (i : Nat) (round : Round),
    s.rounds[i]? = some round → round.postedBefore ≤ t → i < r
  snapshotFirst : s.SnapshotFirst

/-- No other call holds a task that was posted before the one about to be started. -/
def Undisturbed (s : State) : Action → Prop
  | .advance r => ∀ t, s.upcoming r = some t → ∀ (i : Nat) (round : Round),
      s.rounds[i]? = some round → i ≠ r → ∀ u ∈ round.tasks, t < u
  | _ => True

namespace State.Sound

variable {s : State} {r t : Nat}

/-- A started task belongs to the snapshot of its call. -/
theorem started_round (h : s.Sound) (hlog : .started r t ∈ s.log) :
    ∃ round, s.rounds[r]? = some round ∧ t ∈ round.snapshot := by
  obtain ⟨round, hround⟩ : ∃ round, s.rounds[r]? = some round :=
    ⟨_, getElem?_eq_getElem (h.known _ hlog)⟩
  refine ⟨round, hround, ?_⟩
  rw [(h.rounds r round hround).split]
  exact mem_append_left _ (mem_startedBy.mpr hlog)

theorem mark_le {i j : Nat} {a b : Round} (h : s.Sound) (hi : s.rounds[i]? = some a)
    (hj : s.rounds[j]? = some b) (hij : i ≤ j) : a.postedBefore ≤ b.postedBefore := by
  rcases Nat.eq_or_lt_of_le hij with rfl | hlt
  · rw [hi] at hj
    cases hj
    exact Nat.le_refl _
  · obtain ⟨hi', rfl⟩ := List.getElem?_eq_some_iff.mp hi
    obtain ⟨hj', rfl⟩ := List.getElem?_eq_some_iff.mp hj
    have hmarks := pairwise_iff_getElem.mp h.marks i j
      (by rwa [length_map]) (by rwa [length_map]) hlt
    rwa [getElem_map, getElem_map] at hmarks

theorem laterRound (h : s.Sound) (hlog : .started r t ∈ s.log) {i : Nat} {round : Round}
    (hi : s.rounds[i]? = some round) (ht : round.postedBefore ≤ t) : i < r := by
  obtain ⟨own, hr, hmem⟩ := h.started_round hlog
  have hlt := (h.rounds r own hr).before t hmem
  by_contra hir
  have hle := h.mark_le hr hi (Nat.le_of_not_lt hir)
  omega

end State.Sound

section SnapshotFirst

theorem init_snapshotFirst : State.init.SnapshotFirst := by
  intro i r entry h
  cases h

variable {s : State} {r : Nat}

variable (h : s.SnapshotFirst) {s' : State}
include h

/-- What was dispatched is not touched by a step that leaves the log and the snapshots. -/
theorem State.SnapshotFirst.of_rounds (hsound : s.Sound)
    (hlog : s'.log = s.log) (hrounds : ∀ r round', r < s.rounds.length →
      s'.rounds[r]? = some round' →
      ∃ round, s.rounds[r]? = some round ∧ round.snapshot = round'.snapshot) :
    s'.SnapshotFirst := by
  intro i r entry hi round' hround' t ht
  rw [hlog] at hi ⊢
  obtain ⟨round, hround, hsnapshot⟩ := hrounds r round'
    (hsound.known _ (mem_of_getElem? hi)) hround'
  rw [← hsnapshot] at ht
  exact h i r entry hi round hround t ht

theorem State.SnapshotFirst.concat {x : Happening}
    (hx : ∀ r entry, x = .dispatched r entry → ∀ round, s.rounds[r]? = some round →
      ∀ t ∈ round.snapshot, .started r t ∈ s.log) :
    State.SnapshotFirst { s with log := s.log ++ [x] } := by
  intro i r entry hi round hround t ht
  rcases Nat.lt_trichotomy i s.log.length with hlt | rfl | hlt
  · rw [getElem?_append_left hlt] at hi
    rw [take_append_of_le_length (Nat.le_of_lt hlt)]
    exact h i r entry hi round hround t ht
  · rw [getElem?_concat_length] at hi
    rw [take_left']
    · exact hx r entry (Option.some.inj hi) round hround t ht
    · rfl
  · rw [getElem?_eq_none (by simp; omega)] at hi
    cases hi

theorem State.SnapshotFirst.setRound {round round' : Round} (hsound : s.Sound)
    (hround : s.rounds[r]? = some round) (hsnapshot : round'.snapshot = round.snapshot) :
    (s.setRound r round').SnapshotFirst := by
  refine h.of_rounds hsound rfl fun i round'' _ hi => ?_
  obtain ⟨rfl, rfl⟩ | ⟨-, hi⟩ := Indexed.getElem?_set_cases hi
  · exact ⟨round, hround, hsnapshot.symm⟩
  · exact ⟨round'', hi, rfl⟩

theorem State.SnapshotFirst.effect {a : Action} (hsound : s.Sound) (heffect : Effect s a s') :
    s'.SnapshotFirst := by
  cases heffect with
  | post => exact h
  | other => exact h
  | take thread call =>
    refine h.of_rounds hsound rfl fun i round' hi hround' => ⟨round', ?_, rfl⟩
    rw [← hround']
    exact (getElem?_append_left hi).symm
  | move hround htasks hsnapshot => exact h.setRound hsound hround hsnapshot
  | @start r t round tasks hround htasks =>
    have hmoved : (s.setRound r { round with point := .task, tasks := tasks }).SnapshotFirst :=
      h.setRound hsound hround rfl
    refine hmoved.concat ?_
    intro r entry h
    cases h
  | @dispatch r round entry queue hround hpoint =>
    have hown := hsound.rounds r round hround
    have hmoved : (s.setRound r { round with point := .event }).SnapshotFirst :=
      h.setRound hsound hround rfl
    refine hmoved.concat ?_
    rintro _ _ ⟨⟩ round' hround' t ht
    rw [State.setRound, getElem?_set_self (List.getElem?_eq_some_iff.mp hround).1]
      at hround'
    cases hround'
    -- at the events the call has no task left: its snapshot is what it has started
    have hall : round.snapshot = s.startedBy r := by
      rw [hown.split, hown.tasks_eq_nil hpoint, append_nil]
    exact mem_startedBy.mp (hall ▸ ht)

end SnapshotFirst

section Order

variable {s : State} {r t : Nat} {round : Round} {tasks : List Nat}

/-- Of the tasks that a call has left the first one was posted first. -/
theorem State.Sound.head_lt (h : s.Sound) (hround : s.rounds[r]? = some round)
    (htasks : round.tasks = t :: tasks) : ∀ u ∈ tasks, t < u := by
  have hown := h.rounds r round hround
  have hsorted := hown.sorted
  rw [hown.split, htasks] at hsorted
  exact (pairwise_cons.mp (pairwise_append.mp hsorted).2.1).1

theorem State.Sound.nodup (h : s.Sound) :
    (s.started ++ (s.rounds.flatMap Round.tasks ++ s.mPostQueue)).Nodup :=
  h.placed.nodup_iff.mpr nodup_range

theorem mem_left (hround : s.rounds[r]? = some round) (ht : t ∈ round.tasks) :
    t ∈ s.rounds.flatMap Round.tasks :=
  mem_flatMap.mpr ⟨round, mem_of_getElem? hround, ht⟩

section

variable (h : s.Sound)

include h

section

variable (hround : s.rounds[r]? = some round)
include hround

theorem State.Sound.left_lt (ht : t ∈ round.tasks) : t < s.posted :=
  mem_range.mp (h.placed.mem_iff.mp (mem_append_right _ (mem_append_left _ (mem_left hround ht))))

theorem State.Sound.not_started (ht : t ∈ round.tasks) : t ∉ s.started := fun hstarted =>
  (nodup_append.mp h.nodup).2.2 t hstarted t
    (mem_append_left _ (mem_left hround ht)) rfl

/-- Two calls hold no common task. -/
theorem State.Sound.head_ne {i : Nat} {round' : Round} (htasks : round.tasks = t :: tasks)
    (hi : s.rounds[i]? = some round') (hir : i ≠ r) : ∀ u ∈ round'.tasks, t ≠ u := by
  rintro u hu rfl
  have hperm := Indexed.flatMap_perm_set (b := { round with tasks := tasks }) hround htasks
  have hrounds := (nodup_append.mp (nodup_append.mp h.nodup).2.1).1
  have hnot := (nodup_cons.mp (hperm.nodup_iff.mp hrounds)).1
  have hset : (s.rounds.set r { round with tasks := tasks })[i]? = some round' := by
    rw [getElem?_set_ne hir.symm]
    exact hi
  exact hnot (mem_flatMap.mpr ⟨round', mem_of_getElem? hset, hu⟩)

omit hround in
/-- If the tasks were started in order, those left in a call are later ones. -/
theorem State.Sound.length_le (horder : s.started = range s.started.length)
    (hround : s.rounds[r]? = some round) (ht : t ∈ round.tasks) : s.started.length ≤ t := by
  by_contra hlt
  refine h.not_started hround ht ?_
  rw [horder]
  exact mem_range.mpr (Nat.lt_of_not_le hlt)

/-- A task that has not been started is later than the first one a call has left, unless
another call holds it. -/
theorem State.Sound.head_lt_or_other {u : Nat} (htasks : round.tasks = t :: tasks)
    (hu : u < s.posted) (hunstarted : u ∉ s.started) (hne : u ≠ t) :
    t < u ∨ ∃ (i : Nat) (round' : Round), s.rounds[i]? = some round' ∧ i ≠ r ∧
      u ∈ round'.tasks := by
  have hplace := h.placed.mem_iff.mpr (mem_range.mpr hu)
  rcases mem_append.mp ((mem_append.mp hplace).resolve_left hunstarted)
    with hmem | hmem
  · obtain ⟨round', hround', hu⟩ := mem_flatMap.mp hmem
    obtain ⟨i, hi⟩ := mem_iff_getElem?.mp hround'
    by_cases hir : i = r
    · subst hir
      obtain rfl : round = round' := Option.some.inj (hround.symm.trans hi)
      rw [htasks] at hu
      exact .inl (h.head_lt hround htasks u ((mem_cons.mp hu).resolve_left hne))
    · exact .inr ⟨i, round', hi, hir, hu⟩
  · have hown := h.rounds r round hround
    have hbefore := hown.before t (by rw [hown.split, htasks]; simp)
    have hmark := (h.later round.postedBefore (mem_map_of_mem (mem_of_getElem? hround))).2 u hmem
    exact .inl (Nat.lt_of_lt_of_le hbefore hmark)

end

/-- If the tasks were started in order so far, then so is the next one exactly when no other
call holds an earlier one. -/
theorem State.Sound.next_iff (horder : s.started = range s.started.length)
    (hround : s.rounds[r]? = some round) (htasks : round.tasks = t :: tasks) :
    t = s.started.length ↔ ∀ (i : Nat) (round' : Round), s.rounds[i]? = some round' → i ≠ r →
      ∀ u ∈ round'.tasks, t < u := by
  have hhead : t ∈ round.tasks := htasks ▸ mem_cons_self
  have hle := h.length_le horder hround hhead
  constructor
  · intro ht i round' hi hir u hu
    have hle' := h.length_le horder hi hu
    have hne := h.head_ne hround htasks hi hir u hu
    omega
  · intro hothers
    by_contra hne
    have hunstarted : s.started.length ∉ s.started := by
      rw [horder, length_range]
      exact not_mem_range_self
    have hposted := h.left_lt hround hhead
    rcases h.head_lt_or_other hround htasks (by omega) hunstarted (Ne.symm hne)
      with hlt | ⟨i, round', hi, hir, hu⟩
    · omega
    · have := hothers i round' hi hir _ hu
      omega

/-- The next task of a call is not started yet, and a task that is not either is a later one
unless another call holds it. -/
theorem State.Sound.upcoming (hnext : s.upcoming r = some t) :
    t ∉ s.started ∧ t < s.posted ∧ ∀ u < s.posted, u ∉ s.started → u ≠ t →
      t < u ∨ ∃ (i : Nat) (round' : Round), s.rounds[i]? = some round' ∧ i ≠ r ∧
        u ∈ round'.tasks := by
  obtain ⟨round, tasks, hround, htasks⟩ := State.upcoming_eq_some hnext
  have hhead : t ∈ round.tasks := htasks ▸ mem_cons_self
  exact ⟨h.not_started hround hhead, h.left_lt hround hhead, fun u hu hunstarted hne =>
    h.head_lt_or_other hround htasks hu hunstarted hne⟩

end

theorem undisturbed_of_none {a : Action} (hnone : ∀ r, a = .advance r → s.upcoming r = none) :
    Undisturbed s a := by
  cases a with
  | advance r =>
    intro t ht
    rw [hnone r rfl] at ht
    cases ht
  | _ => trivial

/-- A step keeps the tasks in order exactly when it starts none, or the next one. -/
theorem inOrder_iff {s' : State} {a : Action} (h : s.Sound)
    (horder : s.started = range s.started.length) (hstep : s.step a = some s') :
    s'.started = range s'.started.length ↔ Undisturbed s a := by
  obtain ⟨-, ⟨hsame, hnone⟩ | ⟨r, t, rfl, hnext, hstarted⟩⟩ := step_started hstep
  · rw [hsame]
    exact iff_of_true horder (undisturbed_of_none hnone)
  · obtain ⟨round, tasks, hround, htasks⟩ := State.upcoming_eq_some hnext
    have hcond : Undisturbed s (.advance r) ↔ t = s.started.length := by
      rw [h.next_iff horder hround htasks]
      constructor
      · exact fun hall => hall t hnext
      · intro hall u hu
        cases hnext.symm.trans hu
        exact hall
    rw [hstarted, length_append, length_singleton, range_succ, ← horder,
      append_cancel_left_eq, singleton_inj, hcond]

end Order

/-- **Posted tasks.** In a run of posts, calls of `process_events` and of the destructor, by
any threads and from inside running tasks, the tasks are run in the order they were posted,
each at most once, those posted later by later calls and a whole snapshot before the first
event, exactly when no call starts a task while another one holds an earlier one. -/
theorem tasks_orderly_iff (as : List Action) :
    machine.Always State.Orderly .init as ↔ machine.Meets Undisturbed .init as := by
  apply Transition.Machine.always_iff_meets
    (I := fun s => s.Sound ∧ s.SnapshotFirst)
  · rintro s a s' ⟨hsound, hfirst⟩ hstep
    have heffect := step_effect hstep
    exact ⟨hsound.effect heffect, hfirst.effect hsound heffect⟩
  · rintro s a s' ⟨hsound, hfirst⟩ horderly hstep
    have heffect := step_effect hstep
    rw [← inOrder_iff hsound horderly.inOrder hstep]
    constructor
    · exact fun h => h.inOrder
    · intro h
      exact ⟨h, fun r t hlog i round hi ht => (hsound.effect heffect).laterRound hlog hi ht,
        hfirst.effect hsound heffect⟩
  · exact ⟨init_sound, init_snapshotFirst⟩
  · exact ⟨rfl, fun r t h => (by cases h), init_snapshotFirst⟩

/-- The first of two tasks posts a third one and calls `process_events`: the third task is
run before the second. -/
theorem nested_call_overtakes :
    ∃ s, machine.run .init [.post, .post, .processEvents 0, .advance 0, .post,
        .processEvents 0, .advance 1, .advance 1, .advance 1, .advance 1, .advance 0,
        .advance 0] = some s ∧
      s.started = [0, 2, 1] ∧ ¬ s.Orderly := by
  refine ⟨_, rfl, rfl, fun h => ?_⟩
  have := h.inOrder
  revert this
  decide

end CxxKit.PostedTasks
