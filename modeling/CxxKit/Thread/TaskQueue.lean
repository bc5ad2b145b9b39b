import Mathlib.Data.List.Sort

/-!
The task queue of the thread pool: an ordered set of tasks, highest priority
first and, within a priority, in the order in which they were pushed.

A task is the object the caller handed in together with the number of the call
that was accepted; the source has only the object.  The number tells two starts
of one object apart, and nothing in the pool looks at it.
-/

namespace CxxKit.ThreadPool

open List

/-- `ThreadPool::Priority`, whose underlying type is `int8_t`. -/
structure Priority where
  value : Int
  lowest_le : -128 ≤ value
  le_highest : value ≤ 127
  deriving DecidableEq

def Priority.kNormal : Priority := ⟨0, by decide, by decide⟩

def Priority.kHighest : Priority := ⟨127, by decide, by decide⟩

structure Task where
  object : Nat
  call : Nat
  deriving DecidableEq

/-- `ThreadPoolTaskQueue::Item`. -/
structure Item where
  task : Task
  sequenceId : Nat
  priority : Priority
  deriving DecidableEq

/-- `Item::Compare`. -/
def Item.Before (lhs rhs : Item) : Prop :=
  if lhs.priority ≠ rhs.priority then lhs.priority.value > rhs.priority.value
  else lhs.sequenceId < rhs.sequenceId

instance : DecidableRel Item.Before :=
  fun lhs rhs => inferInstanceAs (Decidable (if lhs.priority ≠ rhs.priority then
    lhs.priority.value > rhs.priority.value else lhs.sequenceId < rhs.sequenceId))

/-- `ThreadPoolTaskQueue`; `mTasks` lists the `std::set` in its order. -/
structure TaskQueue where
  mIdCounter : Nat
  mTasks : List Item

namespace TaskQueue

section

variable (q : TaskQueue)

def push (task : Task) (priority : Priority) : TaskQueue × Nat :=
  (⟨q.mIdCounter + 1, q.mTasks.orderedInsert Item.Before ⟨task, q.mIdCounter, priority⟩⟩,
    q.mIdCounter)

def first : Option Task := q.mTasks.head?.map Item.task

def pop : Option Task × TaskQueue :=
  match q.first with
  | none => (none, q)
  | some task => (some task, { q with mTasks := q.mTasks.tail })

def clear : TaskQueue := { q with mTasks := [] }

/-- `cancel(Task *)`: drops every item of the object and says whether there was one. -/
def cancel (object : Nat) : Bool × TaskQueue :=
  (q.mTasks.any fun i => i.task.object == object,
    { q with mTasks := q.mTasks.filter fun i => i.task.object != object })

/-- `cancel(Id)`. -/
def cancelId (id : Nat) : Bool × TaskQueue :=
  (q.mTasks.any fun i => i.sequenceId == id,
    { q with mTasks := q.mTasks.filter fun i => i.sequenceId != id })

def size : Nat := q.mTasks.length

def empty : Bool := q.mTasks.isEmpty

/-- How many items stand for the accepted call `n`. -/
def entries (n : Nat) : Nat := q.mTasks.countP fun i => i.task.call == n

end

variable {q : TaskQueue} {task : Task} {priority : Priority} {n : Nat}

theorem empty_iff : q.empty = true ↔ q.mTasks = [] := List.isEmpty_iff

theorem entries_push :
    (q.push task priority).1.entries n = q.entries n + if task.call = n then 1 else 0 := by
  have hperm := perm_orderedInsert Item.Before ⟨task, q.mIdCounter, priority⟩ q.mTasks
  unfold entries push
  rw [hperm.countP_eq, countP_cons]
  simp only [beq_iff_eq]

theorem length_push : (q.push task priority).1.mTasks.length = q.mTasks.length + 1 :=
  (perm_orderedInsert Item.Before ⟨task, q.mIdCounter, priority⟩ q.mTasks).length_eq

theorem push_ne_nil : (q.push task priority).1.mTasks ≠ [] := by
  intro hnil
  have hlength : (q.push task priority).1.mTasks.length = q.mTasks.length + 1 := length_push
  rw [hnil] at hlength
  cases hlength

section

variable (h : q.first = some task)
include h

/-- Pushing a second copy of the first task leaves that task in front. -/
theorem first_push_first : (q.push task priority).1.first = some task := by
  unfold first at h
  unfold push first
  cases hitems : q.mTasks with
  | nil => simp [hitems] at h
  | cons i items =>
    rw [hitems] at h
    rw [orderedInsert]
    split
    · rfl
    · exact h

omit h in
theorem first_eq_none : q.first = none ↔ q.mTasks = [] := by
  unfold first
  cases q.mTasks with
  | nil => simp
  | cons i items => simp

/-- What popping does when there is something to pop. -/
theorem pop_of_first : q.pop = (some task, { q with mTasks := q.mTasks.tail }) := by
  unfold pop
  rw [h]

theorem length_pop : q.pop.2.mTasks.length + 1 = q.mTasks.length := by
  rw [pop_of_first h]
  unfold first at h
  cases hitems : q.mTasks with
  | nil => simp [hitems] at h
  | cons i items => rfl

theorem entries_pop : q.pop.2.entries n + (if task.call = n then 1 else 0) = q.entries n := by
  rw [pop_of_first h]
  unfold entries
  unfold first at h
  cases hitems : q.mTasks with
  | nil => simp [hitems] at h
  | cons i items =>
    rw [hitems] at h
    obtain rfl : i.task = task := Option.some.inj h
    rw [tail_cons, countP_cons]
    simp only [beq_iff_eq]

end

/-- The calls whose items `clear` drops. -/
def callsOf (items : List Item) : List Nat := items.map fun i => i.task.call

theorem count_callsOf (items : List Item) :
    (callsOf items).count n = items.countP fun i => i.task.call == n :=
  countP_map

theorem entries_cancel (object : Nat) : (q.cancel object).2.entries n +
    (callsOf (q.mTasks.filter fun i => i.task.object == object)).count n = q.entries n := by
  rw [count_callsOf, Nat.add_comm]
  exact (countP_eq_countP_filter_add q.mTasks _ fun i => i.task.object == object).symm

end TaskQueue

end CxxKit.ThreadPool
