import Mathlib.Data.List.Basic
import Mathlib.Data.List.Count

/-!
The event queue of a loop (`EventLoopPrivate::mEventQueue`, `EventEntry`).

Objects, loops and events are numbered, events in the order they are created; `postedTo`
records the loop an event was enqueued on first, which the source does not store.
-/

namespace CxxKit.Kernel

open List

/-- The event types `Object::event` and `EventLoop::event` react to themselves. -/
inductive EventType where
  | kDeferredDelete
  | kQuit
  | other
deriving DecidableEq, Repr

structure Event where
  id : Nat
  type : EventType
  postedTo : Nat
deriving DecidableEq, Repr

structure EventEntry where
  mReceiver : Nat
  mEvent : Event
  mPriority : Int
deriving DecidableEq, Repr

namespace EventQueue

/-- The scan of `enqueue_event` for a deferred delete of the same receiver. -/
def compresses (queue : List EventEntry) (receiver : Nat) (type : EventType) : Bool :=
  type = .kDeferredDelete &&
    queue.any fun it => it.mReceiver = receiver && it.mEvent.type = .kDeferredDelete

/-- The stable insert of `enqueue_event`: in front of the first entry with a strictly
smaller priority. -/
def insertEntry (entry : EventEntry) : List EventEntry → List EventEntry
  | [] => [entry]
  | it :: queue =>
    if it.mPriority < entry.mPriority then entry :: it :: queue
    else it :: insertEntry entry queue

/-- `take_events_for`: the entries of a receiver and the remaining ones, both in order. -/
def takeEventsFor (receiver : Nat) (queue : List EventEntry) : List EventEntry × List EventEntry :=
  (queue.filter fun entry => entry.mReceiver = receiver,
    queue.filter fun entry => ¬ entry.mReceiver = receiver)

theorem insertEntry_perm (entry : EventEntry) (queue : List EventEntry) :
    (insertEntry entry queue).Perm (entry :: queue) := by
  induction queue with
  | nil => exact .refl _
  | cons it queue ih =>
    unfold insertEntry
    split
    · exact .refl _
    · exact (ih.cons it).trans (.swap entry it queue)

variable {entry : EventEntry} {queue : List EventEntry}

theorem mem_insertEntry {x : EventEntry} : x ∈ insertEntry entry queue ↔ x = entry ∨ x ∈ queue := by
  rw [(insertEntry_perm entry queue).mem_iff, mem_cons]

/-! ### Order -/

/-- `a` may stand in front of `b`: its priority is not smaller, and of two entries of one
priority that were posted to one loop the earlier one is in front. -/
def Before (a b : EventEntry) : Prop :=
  b.mPriority ≤ a.mPriority ∧
    (a.mPriority = b.mPriority → a.mEvent.postedTo = b.mEvent.postedTo → a.mEvent.id < b.mEvent.id)

def Ordered (queue : List EventEntry) : Prop := queue.Pairwise Before

theorem Ordered.insertEntry
    (h : Ordered queue) (hnew : ∀ it ∈ queue, it.mEvent.id < entry.mEvent.id) :
    Ordered (insertEntry entry queue) := by
  induction queue with
  | nil => exact pairwise_singleton _ _
  | cons it queue ih =>
    obtain ⟨hit, hrest⟩ := pairwise_cons.mp h
    rw [forall_mem_cons] at hnew
    unfold EventQueue.insertEntry
    split
    next hlt =>
      -- the new entry goes in front: everything behind has a smaller priority
      refine pairwise_cons.mpr ⟨?_, h⟩
      intro x hx
      have hle : x.mPriority ≤ it.mPriority := by
        rcases mem_cons.mp hx with rfl | hx
        · exact Int.le_refl _
        · exact (hit x hx).1
      exact ⟨by omega, fun heq => by omega⟩
    next hge =>
      refine pairwise_cons.mpr ⟨?_, ih hrest hnew.2⟩
      intro x hx
      rcases mem_insertEntry.mp hx with rfl | hx
      · exact ⟨by omega, fun _ _ => hnew.1⟩
      · exact hit x hx

theorem Ordered.append_iff {taken : List EventEntry} (hqueue : Ordered queue)
    (htaken : Ordered taken) :
    Ordered (queue ++ taken) ↔ ∀ a ∈ queue, ∀ b ∈ taken, Before a b := by
  rw [Ordered, pairwise_append]
  exact ⟨fun h => h.2.2, fun h => ⟨hqueue, htaken, h⟩⟩

/-- The head of an ordered queue has the highest priority in it. -/
theorem Ordered.head_max
    (h : Ordered (entry :: queue)) : ∀ x ∈ queue, x.mPriority ≤ entry.mPriority :=
  fun x hx => ((pairwise_cons.mp h).1 x hx).1

end EventQueue

end CxxKit.Kernel
