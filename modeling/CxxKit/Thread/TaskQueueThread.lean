import CxxKit.Lib.TimedQueue
import CxxKit.Lib.Transition
import CxxKit.Units.TimeUnits
import Mathlib.Data.List.Sort

/-!
The task queue with a thread of its own (`TaskQueueThread`).

The two ordered sets are listed in their order.  Each locked section is one step; the thread
reads the clock before it takes the lock, so `pop_next_task` is a step that reads the clock and
one that pops.  Tasks are the objects handed in; a posting is told apart by its `Task::Id`, which
counts all postings, immediate and delayed (no run posts 2⁶⁴ tasks).

The history of postings, cancellations and pops is recorded beside the queue, with the due time
that was asked for; the source stores none of this.
-/

namespace CxxKit.TaskQueueThread

open CxxKit.Units List Option TimedQueue

@[ext]
structure PendingTask where
  id : Nat
  task : Nat
deriving DecidableEq, Repr

@[ext]
structure DelayedTask where
  id : Nat
  timestamp : Int
  task : Nat
deriving DecidableEq, Repr

def PendingTask.Compare (lhs rhs : PendingTask) : Prop := lhs.id < rhs.id

def DelayedTask.Compare (lhs rhs : DelayedTask) : Prop :=
  lhs.timestamp < rhs.timestamp ∨ lhs.timestamp = rhs.timestamp ∧ lhs.id < rhs.id

instance : DecidableRel PendingTask.Compare :=
  fun lhs rhs => inferInstanceAs (Decidable (lhs.id < rhs.id))

instance : DecidableRel DelayedTask.Compare :=
  fun lhs rhs => inferInstanceAs (Decidable (lhs.timestamp < rhs.timestamp ∨
    lhs.timestamp = rhs.timestamp ∧ lhs.id < rhs.id))

/-- What the private part of `TaskQueueThread` guards by its mutex. -/
structure Queue where
  mQuit : Bool
  mTaskIdCounter : Nat
  mPendingTasks : List PendingTask
  mDelayedTasks : List DelayedTask

/-- `TaskQueueThread::NextTask`; the task comes with the number of its posting. -/
structure NextTask where
  finalTask : Bool
  runTask : Option PendingTask
  sleepTime : TimeDelta

namespace Queue

variable (q : Queue)

def postTask (task : Nat) : Queue :=
  { q with
    mTaskIdCounter := q.mTaskIdCounter + 1
    mPendingTasks := q.mPendingTasks.orderedInsert PendingTask.Compare
      ⟨q.mTaskIdCounter + 1, task⟩ }

def postDelayedTask (now : Int) (task : Nat) (delay : TimeDelta) : Queue :=
  { q with
    mTaskIdCounter := q.mTaskIdCounter + 1
    mDelayedTasks := q.mDelayedTasks.orderedInsert DelayedTask.Compare
      ⟨q.mTaskIdCounter + 1, wrap (now + delay.us), task⟩ }

/-- `cancel_task`: whether something was cancelled, and what is left. -/
def cancelTask (task : Nat) : Bool × Queue :=
  (q.mPendingTasks.any (·.task = task) || q.mDelayedTasks.any (·.task = task), { q with
      mPendingTasks := q.mPendingTasks.filter (·.task ≠ task)
      mDelayedTasks := q.mDelayedTasks.filter (·.task ≠ task) })

/-- The end of `pop_next_task`, after the delayed tasks: the first pending task if there is one,
and otherwise no sleep above a millisecond. -/
def popPendingTask (sleepTime : TimeDelta) : NextTask × Queue :=
  match q.mPendingTasks with
  | pendingTask :: pendingTasks =>
    (⟨false, some pendingTask, sleepTime⟩, { q with mPendingTasks := pendingTasks })
  | [] => (⟨false, none, if sleepTime.us > 1000 then .millis 1 else sleepTime⟩, q)

def popDelayedTask (delayedTask : DelayedTask) (delayedTasks : List DelayedTask) :
    NextTask × Queue :=
  (⟨false, some ⟨delayedTask.id, delayedTask.task⟩, .plusInfinity⟩,
    { q with mDelayedTasks := delayedTasks })

def popNextTask (tickUSecs : Int) : NextTask × Queue :=
  if q.mQuit then (⟨true, none, .plusInfinity⟩, q)
  else match q.mDelayedTasks with
    | [] => q.popPendingTask .plusInfinity
    | delayedTask :: delayedTasks =>
      if tickUSecs ≥ delayedTask.timestamp then
        match q.mPendingTasks with
        | [] => q.popDelayedTask delayedTask delayedTasks
        | pendingTask :: pendingTasks =>
          if pendingTask.id < delayedTask.id then
            (⟨false, some pendingTask, .plusInfinity⟩, { q with mPendingTasks := pendingTasks })
          else q.popDelayedTask delayedTask delayedTasks
      else q.popPendingTask
        (.millis (divideRoundUp (wrap (delayedTask.timestamp - tickUSecs)) 1000))

end Queue

/-- The queue, the clock, and the thread: the clock it has read for the pop under way, and
whether it has left its loop. -/
structure State where
  queue : Queue
  now : Int
  tick : Option Int
  ended : Bool
  history : List (Event Nat Int)

inductive Action where
  | clock (now : Int)
  | postTask (task : Nat)
  | postDelayedTask (task : Nat) (delay : TimeDelta)
  | cancelTask (task : Nat)
  | readClock
  | pop
  | destroy

namespace State

def init (now : Int) : State := ⟨⟨false, 0, [], []⟩, now, none, false, []⟩

/-- The thread pops; after the final task it clears the pending ones and ends. -/
def pop (s : State) (tick : Int) : State :=
  match s.queue.popNextTask tick with
  | (⟨true, _, _⟩, q) =>
    { s with queue := { q with mPendingTasks := [] }, tick := none, ended := true }
  | (⟨false, some t, _⟩, q) =>
    { s with queue := q, tick := none, history := .popped t.id s.now :: s.history }
  | (⟨false, none, _⟩, q) => { s with queue := q, tick := none }

def step (s : State) : Action → Option State
  | .clock now => if s.now ≤ now then some { s with now } else none
  | .postTask task => some { s with
      queue := s.queue.postTask task
      history := .posted ⟨s.queue.mTaskIdCounter + 1, task, none⟩ :: s.history }
  | .postDelayedTask task delay => some { s with
      queue := s.queue.postDelayedTask s.now task delay
      history := .posted ⟨s.queue.mTaskIdCounter + 1, task, some (s.now + delay.us)⟩ ::
        s.history }
  | .cancelTask task => some { s with
      queue := (s.queue.cancelTask task).2
      history := .cancelled task :: s.history }
  | .readClock => if s.ended then none else some { s with tick := some s.now }
  | .pop => if s.ended then none else s.tick.map s.pop
  | .destroy => some { s with queue := { s.queue with mQuit := true } }

end State

/-- The queue, used by any threads from any time on. -/
def machine (start : Int) : Transition.Machine State Action where
  init := .init start
  step := State.step

/-- Every pop serves its posting: in the order of the postings, not before its due time, not
twice, and not after a cancellation. -/
def State.Serves (s : State) : Prop :=
  ∀ n now earlier, .popped n now :: earlier <:+ s.history →
    ∃ p, p.number = n ∧ Served earlier p now

/-- The due time of a delayed task is a value of `int64_t`. -/
def Representable (s : State) : Action → Prop
  | .postDelayedTask _ delay => Fits (s.now + delay.us)
  | _ => True

/-! ### The ordered sets -/

/-- Insertion keeps a strict order if the new element can be compared with every other. -/
theorem pairwise_orderedInsert {α : Type} {r : α → α → Prop} [DecidableRel r] {a : α}
    {l : List α} (htrans : ∀ {x y z}, r x y → r y z → r x z) (h : l.Pairwise r)
    (hcomparable : ∀ b ∈ l, ¬ r a b → r b a) : (l.orderedInsert r a).Pairwise r := by
  induction l with
  | nil => exact pairwise_singleton _ _
  | cons b l ih =>
    obtain ⟨hb, hl⟩ := pairwise_cons.mp h
    rw [orderedInsert_cons]
    split
    next hab =>
      refine pairwise_cons.mpr ⟨forall_mem_cons.mpr ⟨hab, fun c hc => ?_⟩, h⟩
      exact htrans hab (hb c hc)
    next hab =>
      refine pairwise_cons.mpr ⟨fun c hc => ?_, ih hl fun c hc => ?_⟩
      · rcases (mem_orderedInsert r).mp hc with rfl | hc
        · exact hcomparable b mem_cons_self hab
        · exact hb c hc
      · exact hcomparable c (mem_cons_of_mem _ hc)

theorem PendingTask.compare_irrefl (x : PendingTask) : ¬ x.Compare x := Nat.lt_irrefl _

theorem DelayedTask.compare_irrefl (x : DelayedTask) : ¬ x.Compare x := by
  unfold DelayedTask.Compare
  omega

theorem DelayedTask.compare_trans {x y z : DelayedTask} (h₁ : x.Compare y) (h₂ : y.Compare z) :
    x.Compare z := by
  unfold DelayedTask.Compare at *
  omega

def PendingTask.posting (e : PendingTask) : Posting Nat Int := ⟨e.id, e.task, none⟩

def DelayedTask.posting (e : DelayedTask) : Posting Nat Int := ⟨e.id, e.task, some e.timestamp⟩

/-- The two sets list what waits according to the history. -/
structure Queue.Lists (q : Queue) (h : List (Event Nat Int)) : Prop where
  pending : ∀ e, e ∈ q.mPendingTasks ↔ e.posting ∈ waiting h
  delayed : ∀ e, e ∈ q.mDelayedTasks ↔ e.posting ∈ waiting h
  sortedPending : q.mPendingTasks.Pairwise PendingTask.Compare
  sortedDelayed : q.mDelayedTasks.Pairwise DelayedTask.Compare

structure State.Sound (s : State) : Prop where
  legit : Legit s.history
  numbered : ∀ p, .posted p ∈ s.history → p.number ≤ s.queue.mTaskIdCounter
  lists : s.ended = false → s.queue.Lists s.history
  tick : ∀ t, s.tick = some t → t ≤ s.now

section Lists

variable {q : Queue} {h : List (Event Nat Int)} {n : Nat} {p : Posting Nat Int} {now : Int}
  {rest : List PendingTask} {e : PendingTask}

/-- What waits is in one of the sets. -/
theorem posting_cases (p : Posting Nat Int) :
    (∃ e : PendingTask, p = e.posting) ∨ ∃ e : DelayedTask, p = e.posting := by
  obtain ⟨n, task, due⟩ := p
  cases due with
  | none => exact .inl ⟨⟨n, task⟩, rfl⟩
  | some d => exact .inr ⟨⟨n, d, task⟩, rfl⟩

theorem Queue.Lists.postTask (hq : q.Lists h) (task : Nat)
    (hnew : ∀ p ∈ waiting h, p.number < q.mTaskIdCounter + 1) :
    (q.postTask task).Lists (.posted ⟨q.mTaskIdCounter + 1, task, none⟩ :: h) where
  pending := by
    intro e
    rw [Queue.postTask, mem_orderedInsert, hq.pending, waiting]
    simp [PendingTask.posting, PendingTask.ext_iff]
  delayed := by
    intro e
    rw [Queue.postTask, hq.delayed, waiting]
    simp [DelayedTask.posting]
  sortedPending := by
    refine pairwise_orderedInsert Nat.lt_trans hq.sortedPending fun e he _ => ?_
    exact hnew e.posting ((hq.pending e).mp he)
  sortedDelayed := hq.sortedDelayed

/-- A due time that `int64_t` can hold is the one that is stored. -/
theorem Queue.Lists.postDelayedTask {delay : TimeDelta} (hq : q.Lists h) (task : Nat)
    (hnew : ∀ p ∈ waiting h, p.number < q.mTaskIdCounter + 1) (hfits : Fits (now + delay.us)) :
    (q.postDelayedTask now task delay).Lists
      (.posted ⟨q.mTaskIdCounter + 1, task, some (now + delay.us)⟩ :: h) where
  pending := by
    intro e
    rw [Queue.postDelayedTask, hq.pending, waiting]
    simp [PendingTask.posting]
  delayed := by
    intro e
    rw [Queue.postDelayedTask, mem_orderedInsert, hq.delayed, waiting, wrap_of_fits hfits]
    simp [DelayedTask.posting, DelayedTask.ext_iff, and_comm]
  sortedPending := hq.sortedPending
  sortedDelayed := by
    refine pairwise_orderedInsert DelayedTask.compare_trans hq.sortedDelayed fun e he hnot => ?_
    have hlt : e.id < q.mTaskIdCounter + 1 := hnew e.posting ((hq.delayed e).mp he)
    unfold DelayedTask.Compare at hnot ⊢
    dsimp only at hnot ⊢
    omega

theorem Queue.Lists.cancelTask (hq : q.Lists h) (task : Nat) :
    (q.cancelTask task).2.Lists (.cancelled task :: h) where
  pending := by
    intro e
    rw [Queue.cancelTask, waiting, mem_filter, mem_filter, hq.pending]
    rfl
  delayed := by
    intro e
    rw [Queue.cancelTask, waiting, mem_filter, mem_filter, hq.delayed]
    rfl
  sortedPending := hq.sortedPending.filter _
  sortedDelayed := hq.sortedDelayed.filter _

/-- An entry that is first in a strict order is not among the others. -/
theorem mem_tail_iff {α : Type} {r : α → α → Prop} {a x : α} {l : List α}
    (hirrefl : ¬ r a a) (h : (a :: l).Pairwise r) : x ∈ l ↔ x ∈ a :: l ∧ x ≠ a := by
  have hnot : a ∉ l := fun ha => hirrefl ((pairwise_cons.mp h).1 a ha)
  rw [mem_cons]
  constructor
  · exact fun hx => ⟨.inr hx, fun heq => hnot (heq ▸ hx)⟩
  · exact fun hx => hx.1.resolve_left hx.2

theorem PendingTask.posting_inj {x e : PendingTask} : x.posting = e.posting ↔ x = e := by
  simp [PendingTask.posting, PendingTask.ext_iff]

theorem DelayedTask.posting_inj {x e : DelayedTask} : x.posting = e.posting ↔ x = e := by
  simp [DelayedTask.posting, DelayedTask.ext_iff, and_comm]

theorem posting_ne (x : PendingTask) (e : DelayedTask) : x.posting ≠ e.posting := by
  simp [PendingTask.posting, DelayedTask.posting]

theorem Queue.Lists.popPending (hq : q.Lists h) (hl : Legit h)
    (hpending : q.mPendingTasks = e :: rest) :
    Queue.Lists { q with mPendingTasks := rest } (.popped e.id now :: h) := by
  have hsorted := hq.sortedPending
  rw [hpending] at hsorted
  have he : e.posting ∈ waiting h := (hq.pending e).mp (hpending ▸ mem_cons_self)
  refine ⟨fun x => ?_, fun x => ?_, (pairwise_cons.mp hsorted).2, hq.sortedDelayed⟩
  · rw [mem_tail_iff e.compare_irrefl hsorted, ← hpending, hq.pending]
    exact (and_congr_right' (not_congr PendingTask.posting_inj.symm)).trans
      (hl.mem_waiting_popped he).symm
  · rw [hq.delayed]
    exact ⟨fun hx => (hl.mem_waiting_popped he).mpr ⟨hx, (posting_ne e x).symm⟩,
      fun hx => ((hl.mem_waiting_popped he).mp hx).1⟩

theorem Queue.Lists.popDelayed {e : DelayedTask} {rest : List DelayedTask} (hq : q.Lists h)
    (hl : Legit h) (hdelayed : q.mDelayedTasks = e :: rest) :
    Queue.Lists { q with mDelayedTasks := rest } (.popped e.id now :: h) := by
  have hsorted := hq.sortedDelayed
  rw [hdelayed] at hsorted
  have he : e.posting ∈ waiting h := (hq.delayed e).mp (hdelayed ▸ mem_cons_self)
  refine ⟨fun x => ?_, fun x => ?_, hq.sortedPending, (pairwise_cons.mp hsorted).2⟩
  · rw [hq.pending]
    exact ⟨fun hx => (hl.mem_waiting_popped he).mpr ⟨hx, posting_ne x e⟩,
      fun hx => ((hl.mem_waiting_popped he).mp hx).1⟩
  · rw [mem_tail_iff e.compare_irrefl hsorted, ← hdelayed, hq.delayed]
    exact (and_congr_right' (not_congr DelayedTask.posting_inj.symm)).trans
      (hl.mem_waiting_popped he).symm

/-- The first pending task may be served at any time. -/
theorem Queue.Lists.readyPending (now : Int) (hq : q.Lists h)
    (hpending : q.mPendingTasks = e :: rest) : Ready (waiting h) e.posting now where
  mem := (hq.pending e).mp (hpending ▸ mem_cons_self)
  immediate := by
    intro _ p hp hdue hne
    have hsorted := hq.sortedPending
    rw [hpending] at hsorted
    obtain ⟨x, rfl⟩ | ⟨x, rfl⟩ := posting_cases p
    · have hx : x ∈ e :: rest := hpending ▸ (hq.pending x).mpr hp
      have hxe : x ≠ e := fun heq => hne (congrArg _ heq)
      exact (pairwise_cons.mp hsorted).1 x ((mem_cons.mp hx).resolve_left hxe)
    · cases hdue
  isDue := nofun
  least := nofun
  behind := fun hdue => absurd rfl hdue

/-- The first delayed task may be served when it is due and no pending task was posted before. -/
theorem Queue.Lists.readyDelayed {e : DelayedTask} {rest : List DelayedTask} (hq : q.Lists h)
    (hl : Legit h) (hdelayed : q.mDelayedTasks = e :: rest) (hdue : e.timestamp ≤ now)
    (hfirst : ∀ x ∈ q.mPendingTasks.head?, e.id ≤ x.id) : Ready (waiting h) e.posting now := by
  have he : e.posting ∈ waiting h := (hq.delayed e).mp (hdelayed ▸ mem_cons_self)
  refine ⟨he, nofun, ?_, ?_, fun _ p hp hnone => ?_⟩
  · rintro _ ⟨⟩
    exact hdue
  · rintro _ ⟨⟩ p hp d hd hne
    have hsorted := hq.sortedDelayed
    rw [hdelayed] at hsorted
    obtain ⟨x, rfl⟩ | ⟨x, rfl⟩ := posting_cases p
    · cases hd
    · cases hd
      have hx : x ∈ e :: rest := hdelayed ▸ (hq.delayed x).mpr hp
      have hxe : x ≠ e := fun heq => hne (congrArg _ heq)
      exact (pairwise_cons.mp hsorted).1 x ((mem_cons.mp hx).resolve_left hxe)
  · obtain ⟨x, rfl⟩ | ⟨x, rfl⟩ := posting_cases p
    · have hx := (hq.pending x).mpr hp
      have hne : e.posting.number ≠ x.posting.number := fun heq => posting_ne x e
        (hl.number_inj (posted_of_waiting he) (posted_of_waiting hp) heq).symm
      have hle : e.id ≤ x.id := by
        cases hlist : q.mPendingTasks with
        | nil =>
          rw [hlist] at hx
          cases hx
        | cons y ys =>
          have hsorted := hq.sortedPending
          rw [hlist] at hx hfirst hsorted
          have hy := hfirst y rfl
          rcases mem_cons.mp hx with rfl | hx
          · exact hy
          · exact Nat.le_trans hy (Nat.le_of_lt ((pairwise_cons.mp hsorted).1 x hx))
      exact Nat.lt_of_le_of_ne hle hne
    · cases hnone

end Lists

/-- What `pop_next_task` does: it ends the thread, finds nothing to run, or takes the first
pending task, or the first delayed one if it is due and was posted before that. -/
theorem Queue.popNextTask_cases (q : Queue) (tick : Int) :
    (∃ sleep, q.popNextTask tick = (⟨true, none, sleep⟩, q)) ∨
    (∃ sleep, q.popNextTask tick = (⟨false, none, sleep⟩, q)) ∨
    (∃ e rest sleep, q.mPendingTasks = e :: rest ∧ q.popNextTask tick =
      (⟨false, some e, sleep⟩, { q with mPendingTasks := rest })) ∨
    (∃ e rest sleep, q.mDelayedTasks = e :: rest ∧ e.timestamp ≤ tick ∧
      (∀ x ∈ q.mPendingTasks.head?, e.id ≤ x.id) ∧ q.popNextTask tick =
        (⟨false, some ⟨e.id, e.task⟩, sleep⟩, { q with mDelayedTasks := rest })) := by
  have hpending (sleep : TimeDelta) :
      (∃ sleep', q.popPendingTask sleep = (⟨false, none, sleep'⟩, q)) ∨
      ∃ e rest sleep', q.mPendingTasks = e :: rest ∧ q.popPendingTask sleep =
        (⟨false, some e, sleep'⟩, { q with mPendingTasks := rest }) := by
    unfold Queue.popPendingTask
    split
    · exact .inr ⟨_, _, _, ‹_›, rfl⟩
    · exact .inl ⟨_, rfl⟩
  unfold Queue.popNextTask
  split
  · exact .inl ⟨_, rfl⟩
  · split
    · rcases hpending .plusInfinity with hnone | hsome
      · exact .inr (.inl hnone)
      · exact .inr (.inr (.inl hsome))
    next e rest hdelayed =>
      split
      next hdue =>
        split
        next hnil =>
          refine .inr (.inr (.inr ⟨e, rest, _, hdelayed, hdue, ?_, rfl⟩))
          rw [hnil]
          nofun
        next x xs hcons =>
          split
          · exact .inr (.inr (.inl ⟨x, xs, _, hcons, rfl⟩))
          next hle =>
            refine .inr (.inr (.inr ⟨e, rest, _, hdelayed, hdue, ?_, rfl⟩))
            rw [hcons]
            rintro _ ⟨⟩
            exact Nat.le_of_not_lt hle
      · rcases hpending _ with hnone | hsome
        · exact .inr (.inl hnone)
        · exact .inr (.inr (.inl hsome))

/-! ### Runs -/

section Runs

variable {s s' : State}

variable (h : s.Sound)
include h

theorem State.Sound.waiting_lt {p : Posting Nat Int} (hp : p ∈ waiting s.history) :
    p.number < s.queue.mTaskIdCounter + 1 :=
  Nat.lt_succ_of_le (h.numbered p (posted_of_waiting hp))

theorem State.Sound.posted (task : Nat) (due : Option Int) (q : Queue)
    (hcounter : q.mTaskIdCounter = s.queue.mTaskIdCounter + 1)
    (hlists : s.ended = false →
      q.Lists (.posted ⟨s.queue.mTaskIdCounter + 1, task, due⟩ :: s.history)) :
    State.Sound { s with
      queue := q
      history := .posted ⟨s.queue.mTaskIdCounter + 1, task, due⟩ :: s.history } where
  legit := ⟨h.legit, fun p hp => Nat.lt_succ_of_le (h.numbered p hp)⟩
  numbered := by
    intro p hp
    rw [hcounter]
    rcases mem_cons.mp hp with heq | hp
    · cases heq
      exact Nat.le_refl _
    · exact Nat.le_succ_of_le (h.numbered p hp)
  lists := hlists
  tick := h.tick

theorem State.Sound.pop {tick : Int} (htick : s.tick = some tick) (halive : s.ended = false) :
    (s.pop tick).Sound := by
  have hq := h.lists halive
  have hnow := h.tick tick htick
  unfold State.pop
  obtain ⟨sleep, heq⟩ | ⟨sleep, heq⟩ | ⟨e, rest, sleep, hpending, heq⟩ |
    ⟨e, rest, sleep, hdelayed, hdue, hfirst, heq⟩ := s.queue.popNextTask_cases tick
  · rw [heq]
    exact ⟨h.legit, h.numbered, nofun, nofun⟩
  · rw [heq]
    exact ⟨h.legit, h.numbered, h.lists, nofun⟩
  · rw [heq]
    refine ⟨⟨h.legit, e.posting, rfl, hq.readyPending s.now hpending⟩, ?_,
      fun _ => hq.popPending h.legit hpending, nofun⟩
    exact fun p hp => h.numbered p (by simpa using hp)
  · rw [heq]
    refine ⟨⟨h.legit, e.posting, rfl, hq.readyDelayed h.legit hdelayed
      (Int.le_trans hdue hnow) hfirst⟩, ?_, fun _ => hq.popDelayed h.legit hdelayed, nofun⟩
    exact fun p hp => h.numbered p (by simpa using hp)

theorem State.Sound.step {a : Action} (hfits : Representable s a) (hstep : s.step a = some s') :
    s'.Sound := by
  cases a with
  | clock now =>
    rw [State.step] at hstep
    split at hstep
    next hle =>
      cases hstep
      exact ⟨h.legit, h.numbered, h.lists, fun t ht => Int.le_trans (h.tick t ht) hle⟩
    · cases hstep
  | postTask task =>
    cases hstep
    exact h.posted task none _ rfl fun halive =>
      (h.lists halive).postTask task fun p hp => h.waiting_lt hp
  | postDelayedTask task delay =>
    cases hstep
    exact h.posted task _ _ rfl fun halive =>
      (h.lists halive).postDelayedTask task (fun p hp => h.waiting_lt hp) hfits
  | cancelTask task =>
    cases hstep
    refine ⟨h.legit, fun p hp => h.numbered p (by simpa using hp),
      fun halive => (h.lists halive).cancelTask task, h.tick⟩
  | readClock =>
    rw [State.step] at hstep
    split at hstep
    · cases hstep
    · cases hstep
      refine ⟨h.legit, h.numbered, h.lists, ?_⟩
      rintro _ ⟨⟩
      exact Int.le_refl _
  | pop =>
    rw [State.step] at hstep
    split at hstep
    · cases hstep
    next halive =>
      obtain ⟨tick, htick, rfl⟩ := map_eq_some_iff.mp hstep
      exact h.pop htick (eq_false_of_ne_true halive)
  | destroy =>
    cases hstep
    exact ⟨h.legit, h.numbered, fun halive => ⟨(h.lists halive).pending, (h.lists halive).delayed,
        (h.lists halive).sortedPending, (h.lists halive).sortedDelayed⟩, h.tick⟩

end Runs

theorem init_sound (start : Int) : (State.init start).Sound where
  legit := trivial
  numbered := nofun
  lists := fun _ => ⟨by simp [State.init, waiting], by simp [State.init, waiting], .nil, .nil⟩
  tick := nofun

/-- **The task queue thread.** In every run of postings, cancellations and pops with a clock that
does not go back, if every due time asked for is a value of `int64_t`, every pop serves its
posting: pending tasks in their order, delayed ones not before they are due, by due time and
number, and not before a pending task posted earlier, nothing twice and nothing cancelled. -/
theorem pops_serve (start : Int) (as : List Action)
    (h : (machine start).Meets Representable (.init start) as) :
    (machine start).Always State.Serves (.init start) as := by
  have hsound : (machine start).Always State.Sound (.init start) as :=
    Transition.Machine.always_of_meets (fun _ _ _ hs hfits hstep => hs.step hfits hstep)
      (init_sound start) h
  refine hsound.mono fun s hs => ?_
  intro n now earlier hsuffix
  exact hs.legit.served hsuffix

/-- A pending task, a task that is due after three microseconds and one that is cancelled. -/
theorem pops_serve_three : (machine 5).Always State.Serves (.init 5)
      [.postDelayedTask 0 (.micros 3), .postTask 1, .postTask 2, .cancelTask 2, .clock 8,
        .readClock, .pop, .readClock, .pop] := by
  apply pops_serve
  rintro _ ⟨⟩
  refine ⟨show Fits (5 + (TimeDelta.micros 3).us) by decide, ?_⟩
  iterate 7
    rintro _ ⟨⟩
    refine ⟨trivial, ?_⟩
  rintro _ ⟨⟩
  exact ⟨trivial, trivial⟩

/-- A task with an infinite delay is popped at once: the sum with the clock overflows. -/
theorem infinite_delay_popped :
    ∃ s, (machine 1).run (.init 1) [.postDelayedTask 0 .plusInfinity, .readClock, .pop] =
        some s ∧
      s.history = [.popped 1 1, .posted ⟨1, 0, some (1 + plusInfinityVal)⟩] ∧
      ¬ s.Serves := by
  refine ⟨_, rfl, rfl, fun h => ?_⟩
  obtain ⟨p, hnumber, hserved⟩ := h 1 1 _ (suffix_refl _)
  obtain rfl := mem_singleton.mp hserved.mem
  exact absurd (hserved.isDue _ rfl) (by decide)

end CxxKit.TaskQueueThread
