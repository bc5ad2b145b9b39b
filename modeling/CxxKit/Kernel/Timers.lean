import CxxKit.Lib.Transition
import Mathlib.Algebra.Group.Nat.Defs
import Mathlib.Logic.Function.Basic

/-!
# Timers of objects

`Object::start_timer`, `Object::kill_timer`, `Object::~Object` and `Object::move_to_loop`
(`kernel/object.cpp`) over the timers and the posted queues of event loops
(`kernel/event_loop.cpp`).

Timer ids are counted per loop.  A repeating timer and a one-shot timer with an interval are
registered with the dispatcher of the loop; a one-shot timer without one is posted, and its id is
known to no dispatcher.  What the dispatcher or the queue holds is a closure over the object and
the id, here the `Tick` of the two.

The machine takes the calls and the rounds of the loops in any order.  A callback is one step, and
what its handler does is further steps.  `current` is `EventLoop::current()` on the calling thread,
a loop that is in `exec`.  A step is `none` when a check of the source fails, or when a member of
an object that is not alive is called.  A parent that is destroyed destroys its children on the same
thread: those are steps of their own.
-/

namespace CxxKit.Timers

open Transition

/-- The closure over `this` and the timer id. -/
structure Tick where
  owner : Nat
  id : Nat
  deriving DecidableEq, Repr

/-- A timer registered with a dispatcher.  One that does not repeat is wrapped by
`EventLoop::start_timer`: the wrapper stops the timer before it calls. -/
structure Registration where
  tick : Tick
  repeats : Bool
  deriving DecidableEq, Repr

structure EventLoop where
  mNextTimerId : Nat := 0
  /-- the timers of the dispatcher -/
  timers : List Registration := []
  mPostQueue : List Tick := []
  /-- the snapshots that calls of `process_events` are draining, the innermost first -/
  draining : List (List Tick) := []
  mInExec : Bool := false
  mExit : Bool := true
  mHasExitCode : Bool := false
  deriving DecidableEq, Repr

section

variable (l : EventLoop)

/-- `EventLoop::is_running`. -/
def EventLoop.isRunning : Bool := !l.mExit && l.mInExec

/-- `start_timer` of the dispatcher: an old registration of the id is replaced. -/
def EventLoop.register (r : Registration) : EventLoop :=
  { l with timers := r :: l.timers.filter (·.tick.id ≠ r.tick.id) }

/-- `EventLoop::stop_timer`; an unknown id is a no-op. -/
def EventLoop.stopTimer (id : Nat) : EventLoop :=
  { l with timers := l.timers.filter (·.tick.id ≠ id) }

/-- `EventLoop::start_timer`, with the closure of `Object::start_timer` over the id that it
returns. -/
def EventLoop.startTimer (owner intervalMs : Nat) (repeats : Bool) : EventLoop :=
  let id := l.mNextTimerId + 1
  let l := { l with mNextTimerId := id }
  if repeats then l.register ⟨⟨owner, id⟩, true⟩
  else if intervalMs = 0 then { l with mPostQueue := l.mPostQueue ++ [⟨owner, id⟩] }
  else l.register ⟨⟨owner, id⟩, false⟩

/-- The closures that were posted and not yet called. -/
def EventLoop.posted : List Tick := l.mPostQueue ++ l.draining.flatten

end

inductive Life where
  | unborn
  | alive
  | destroyed
  deriving DecidableEq, Repr

structure Object where
  life : Life := .unborn
  mThread : Option Nat := none
  mActiveTimers : List Nat := []
  deriving DecidableEq, Repr

/-- The objects and the loops.  `calledDead` records that a callback was called for an object that
is not alive, and `stoppedOther` that destroying or killing stopped a timer of another object. -/
structure State where
  objects : Nat → Object
  loops : Nat → EventLoop
  calledDead : Bool
  stoppedOther : Bool

def initial : State := ⟨fun _ => {}, fun _ => {}, false, false⟩

variable (s : State)

def State.setObject (o : Nat) (object : Object) : State :=
  { s with objects := Function.update s.objects o object }

def State.setLoop (l : Nat) (loop : EventLoop) : State :=
  { s with loops := Function.update s.loops l loop }

/-- `EventLoop::current()` can be `current`: it is a loop in `exec`, or there is none. -/
def State.canBeCurrent : Option Nat → Bool
  | none => true
  | some l => (s.loops l).mInExec

inductive Label where
  /-- the constructor of an object -/
  | create (o : Nat) (current : Option Nat)
  | startTimer (o : Nat) (current : Option Nat) (intervalMs : Nat) (repeats : Bool)
  | killTimer (o : Nat) (current : Option Nat) (id : Nat)
  /-- `move_to_loop` of an object, with the objects below it -/
  | moveToLoop (o : Nat) (below : List Nat) (target : Option Nat)
  | destroy (o : Nat) (current : Option Nat)
  /-- loop `l` enters `exec` -/
  | exec (l : Nat)
  | exit (l : Nat)
  /-- `exec` of loop `l` returns -/
  | leave (l : Nat)
  /-- the dispatcher of `l` calls the timer `id` -/
  | fire (l : Nat) (id : Nat)
  /-- `process_events` of `l` takes the posted queue -/
  | takePosts (l : Nat)
  /-- the innermost `process_events` of `l` calls the next closure it took -/
  | runPosted (l : Nat)
  /-- the innermost `process_events` of `l` has called all that it took -/
  | drained (l : Nat)
  deriving DecidableEq, Repr

/-- The closure is called.  It reads `mActiveTimers` of its object first; behind that test is the
handler of the object, whose calls are further steps. -/
def State.call (tick : Tick) : State :=
  if (s.objects tick.owner).life = .alive then s else { s with calledDead := true }

/-- Timers of other objects than `o` among those that `ids` stop. -/
def stopsOther (l : EventLoop) (o : Nat) (ids : List Nat) : Bool :=
  l.timers.any fun r => r.tick.id ∈ ids && r.tick.owner != o

def create (o : Nat) (current : Option Nat) : Option State :=
  if (s.objects o).life = .unborn ∧ s.canBeCurrent current then
    some (s.setObject o ⟨.alive, current, []⟩)
  else none

/-- `Object::start_timer`.  The counter of the ids is an `int`. -/
def startTimer (o : Nat) (current : Option Nat) (intervalMs : Nat) (repeats : Bool) :
    Option State :=
  match (s.objects o).mThread with
  | none => none
  | some l =>
    if (s.objects o).life = .alive ∧ s.canBeCurrent current ∧ current = some l ∧
        (s.loops l).mNextTimerId < 2 ^ 31 - 1 then
      let object := s.objects o
      let id := (s.loops l).mNextTimerId + 1
      some ((s.setLoop l ((s.loops l).startTimer o intervalMs repeats)).setObject o
        { object with mActiveTimers := object.mActiveTimers ++ [id] })
    else none

/-- `Object::kill_timer`. -/
def killTimer (o : Nat) (current : Option Nat) (id : Nat) : Option State :=
  match (s.objects o).mThread with
  | none => none
  | some l =>
    if (s.objects o).life = .alive ∧ s.canBeCurrent current ∧ current = some l then
      let object := s.objects o
      let s := { s with stoppedOther := s.stoppedOther || stopsOther (s.loops l) o [id] }
      some ((s.setLoop l ((s.loops l).stopTimer id)).setObject o
        { object with mActiveTimers := object.mActiveTimers.filter (· ≠ id) })
    else none

/-- `Object::move_to_loop`: only the affinity of the objects changes. -/
def moveToLoop (o : Nat) (below : List Nat) (target : Option Nat) : Option State :=
  let running := fun l : Option Nat => (l.map fun l => (s.loops l).isRunning) = some true
  if ∀ x ∈ o :: below, (s.objects x).life = .alive then
    if (s.objects o).mThread = target then some s
    else if running (s.objects o).mThread ∨ running target then none
    else
      some { s with objects := fun x =>
        if x ∈ o :: below then { s.objects x with mThread := target } else s.objects x }
  else none

/-- `Object::~Object`: the active timers are stopped, the last one first, when the thread is that of
the affinity. -/
def destroy (o : Nat) (current : Option Nat) : Option State :=
  if (s.objects o).life = .alive ∧ s.canBeCurrent current then
    let object := s.objects o
    match object.mThread with
    | none => some (s.setObject o { object with life := .destroyed })
    | some l =>
      if current = some l then
        let s := { s with
          stoppedOther := s.stoppedOther || stopsOther (s.loops l) o object.mActiveTimers }
        some ((s.setLoop l (object.mActiveTimers.foldr (fun id l => l.stopTimer id)
          (s.loops l))).setObject o { object with life := .destroyed, mActiveTimers := [] })
      else some (s.setObject o { object with life := .destroyed })
  else none

/-- `EventLoop::exec` up to its loop; a preset exit returns at once. -/
def exec (l : Nat) : Option State :=
  let loop := s.loops l
  if loop.mInExec ∨ (loop.mExit ∧ loop.mHasExitCode) then none
  else some (s.setLoop l { loop with mInExec := true, mExit := false })

/-- The dispatcher calls a timer; the wrapper of a one-shot timer stops it first. -/
def fire (l id : Nat) : Option State :=
  match (s.loops l).timers.find? (·.tick.id = id) with
  | none => none
  | some r =>
    some ((if r.repeats then s else s.setLoop l ((s.loops l).stopTimer id)).call r.tick)

def runPosted (l : Nat) : Option State :=
  let loop := s.loops l
  match loop.draining with
  | (tick :: rest) :: outer =>
    some ((s.setLoop l { loop with draining := rest :: outer }).call tick)
  | _ => none

def machine : Machine State Label where
  init := initial
  step s
    | .create o current => create s o current
    | .startTimer o current intervalMs repeats => startTimer s o current intervalMs repeats
    | .killTimer o current id => killTimer s o current id
    | .moveToLoop o below target => moveToLoop s o below target
    | .destroy o current => destroy s o current
    | .exec l => exec s l
    | .exit l => some (s.setLoop l { s.loops l with mExit := true, mHasExitCode := true })
    | .leave l =>
      if (s.loops l).mInExec ∧ (s.loops l).mExit then
        some (s.setLoop l { s.loops l with mInExec := false })
      else none
    | .fire l id => fire s l id
    | .takePosts l =>
      some (s.setLoop l { s.loops l with
        mPostQueue := [], draining := (s.loops l).mPostQueue :: (s.loops l).draining })
    | .runPosted l => runPosted s l
    | .drained l =>
      match (s.loops l).draining with
      | [] :: outer => some (s.setLoop l { s.loops l with draining := outer })
      | _ => none

/-! ### Safe runs and careful callers -/

/-- No callback was called for an object that is not alive, and no timer of another object was
stopped by destroying or killing. -/
def Safe : Prop := s.calledDead = false ∧ s.stoppedOther = false

/-- Objects with an affinity are destroyed on its thread. -/
def OnAffinityThread : Label → Prop
  | .destroy o current => ∀ l, (s.objects o).mThread = some l → current = some l
  | _ => True

/-- The condition on a call: only own timers are killed, an object that moves to another loop has
no active timer, and an object that is destroyed has no closure posted. -/
def Careful : Label → Prop
  | .killTimer o _ id => id ∈ (s.objects o).mActiveTimers
  | .moveToLoop o below target => (s.objects o).mThread = target ∨
      ∀ x ∈ o :: below, (s.objects x).mThread = target ∨ (s.objects x).mActiveTimers = []
  | .destroy o _ => ∀ l, ∀ tick ∈ (s.loops l).posted, tick.owner ≠ o
  | _ => True

end CxxKit.Timers
