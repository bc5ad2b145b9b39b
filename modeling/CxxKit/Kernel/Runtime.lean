import CxxKit.Kernel.EventQueue
import CxxKit.Lib.Transition
import Mathlib.Logic.Function.Basic

/-!
Objects, event loops and the calls on them (`kernel/object.cpp`,
`kernel/event_loop.cpp`), as a machine whose steps are the calls and the returns of
the handlers the kernel calls into.

A call is one step up to the first handler it runs; what is left of it is kept in a
`Frame` of the calling thread, and any call may be made before the handler returns.
`~Object` is taken object by object: `delete` is one step up to the loop over the
children, and that loop is a frame.  Between its rounds any call may be made, since the
destructors of derived classes and of user data run there, and so do the posted closures
that `~EventLoop` runs.  Only the last phase of `move_to_loop` runs no code of others:
until it is done (`Pending`) nothing else happens.

A step is `none` when the call aborts (`CXXKIT_CHECK`) or touches an object that is no
longer there.  Addresses are never used again.  `history` records when events are
handed to their receiver, when they are deleted, and when the queue they are in goes
without them being deleted.
-/

namespace CxxKit.Kernel

open EventQueue Function

abbrev ThreadId := Nat

structure ObjectPrivate where
  mParent : Option Nat
  mChildren : List Nat
  mThread : Option Nat
deriving DecidableEq, Repr

structure EventLoopPrivate where
  mEventQueue : List EventEntry
  mInExec : Bool
  mExit : Bool
  mHasExitCode : Bool
deriving DecidableEq, Repr

/-- What a thread still has to do after a handler returns. -/
inductive Frame where
  /-- `exec`, with the loop that was current before -/
  | exec (loop : Nat) (previous : Option Nat)
  /-- `process_events` between two entries -/
  | processEvents (loop : Nat)
  /-- `process_events` inside `send_event` -/
  | dispatch (entry : EventEntry)
  /-- `set_parent` inside the `kChildRemoved` handler of the old parent -/
  | setParent (object : Nat) (parent : Option Nat)
  /-- the constructor of an `EventLoop` inside the `kChildAdded` handler of its parent -/
  | construct (loop : Nat)
  /-- `move_to_loop` while the objects in `rest` have not been relinked -/
  | relink (target : Option Nat) (moved : List (Nat × Option Nat))
      (rest : List Nat)
  /-- `~Object` in its loop over the children -/
  | destroying (object : Nat)
deriving DecidableEq, Repr

def Frame.destroyed : Frame → Option Nat
  | .destroying o => some o
  | _ => none

inductive Pending where
  | nothing
  /-- the moved objects whose queued entries have not been moved -/
  | migrating (target : Option Nat) (rest : List (Nat × Option Nat))
deriving DecidableEq, Repr

inductive Happening where
  | handed (event : Nat)
  | deleted (event : Nat)
  | lost (event : Nat)
deriving DecidableEq, Repr

structure State where
  objects : Nat → Option ObjectPrivate
  loops : Nat → Option EventLoopPrivate
  current : ThreadId → Option Nat
  frames : List (ThreadId × Frame)
  pending : Pending
  nextObject : Nat
  nextEvent : Nat
  history : List Happening

def State.init : State where
  objects := fun _ => none
  loops := fun _ => none
  current := fun _ => none
  frames := []
  pending := .nothing
  nextObject := 0
  nextEvent := 0
  history := []

namespace State

/-! ### Parts of the state -/

variable (s : State)

variable (t : ThreadId)

def alive (o : Nat) : Bool := (s.objects o).isSome

def queue (l : Nat) : List EventEntry :=
  match s.loops l with
  | none => []
  | some d => d.mEventQueue

/-- The innermost frame of a thread. -/
def top : Option Frame :=
  (s.frames.find? fun f => f.1 = t).map Prod.snd

def push (f : Frame) : State := { s with frames := (t, f) :: s.frames }

def pop : State :=
  { s with frames := s.frames.eraseP fun f => f.1 = t }

def modifyObject (o : Nat) (f : ObjectPrivate → ObjectPrivate) : State :=
  { s with objects := update s.objects o ((s.objects o).map f) }

def modifyLoop (l : Nat) (f : EventLoopPrivate → EventLoopPrivate) : State :=
  { s with loops := update s.loops l ((s.loops l).map f) }

def setQueue (l : Nat) (queue : List EventEntry) : State :=
  s.modifyLoop l fun d => { d with mEventQueue := queue }

/-- `delete` of the events of some entries. -/
def deleteEvents (entries : List EventEntry) : State :=
  { s with history := s.history ++ entries.map fun entry => .deleted entry.mEvent.id }

/-! ### Parents and children -/

/-- The second half of `set_parent`: the new parent is stored and told. -/
def adopt (o : Nat) : Option Nat → State
  | none => s
  | some p =>
    (s.modifyObject o fun d => { d with mParent := some p }).modifyObject p
      fun d => { d with mChildren := d.mChildren ++ [o] }

/-- The cycle check of `set_parent`, for `rounds` rounds: whether the way up from `it`
meets `o`. -/
def climb (s : State) (o : Nat) : Nat → Option Nat → Option Bool
  | _, none => some false
  | 0, some _ => none
  | rounds + 1, some it =>
    if it = o then some true
    else match s.objects it with
      | none => none
      | some d => climb s o rounds d.mParent

/-- `detach_child`. -/
def detachChild (p o : Nat) : State :=
  s.modifyObject p fun d => { d with mChildren := d.mChildren.filter (· ≠ o) }

def setParent (o : Nat) (parent : Option Nat) (rounds : Nat) : Option State :=
  match s.objects o with
  | none => none
  | some d =>
    if d.mParent = parent then some s
    else match s.climb o rounds parent with
      | none => none
      | some true => none
      | some false =>
        match d.mParent with
        | none => some (s.adopt o parent)
        | some old =>
          if s.alive old then some ((s.detachChild old o).push t (.setParent o parent))
          else none

/-- `set_parent` after the `kChildRemoved` handler. -/
def childRemoved : Option State :=
  match s.top t with
  | some (.setParent o parent) =>
    if s.alive o ∧ parent.all s.alive then
      some (((s.pop t).modifyObject o fun d => { d with mParent := none }).adopt o parent)
    else none
  | _ => none

/-! ### Construction -/

/-- A new object belongs to the current loop. -/
def create : State :=
  { s with
    objects := update s.objects s.nextObject (some ⟨none, [], s.current t⟩)
    nextObject := s.nextObject + 1 }

/-- `Object::Object(parent)`. -/
def construct (parent : Option Nat) : Option State :=
  if parent.all s.alive then some ((s.create t).adopt s.nextObject parent) else none

/-- The rest of the constructor of an `EventLoop`: a fresh private part replaces the one
the `Object` constructor filled in. -/
def installLoop (o : Nat) : State :=
  { s with
    objects := update s.objects o (some ⟨none, [], s.current t⟩)
    loops := update s.loops o (some ⟨[], false, true, false⟩) }

def newLoop : Option Nat → Option State
  | none => some ((s.create t).installLoop t s.nextObject)
  | some p => (s.construct t (some p)).map fun u => u.push t (.construct s.nextObject)

def constructed : Option State :=
  match s.top t with
  | some (.construct o) => if s.alive o then some ((s.pop t).installLoop t o) else none
  | _ => none

/-! ### Events -/

/-- `enqueue_event`; the event is created here. -/
def enqueueEvent (l receiver : Nat) (type : EventType) (priority : Int) : Option State :=
  if (s.loops l).isSome then
    let u := { s with nextEvent := s.nextEvent + 1 }
    if compresses (s.queue l) receiver type then
      some { u with history := s.history ++ [.deleted s.nextEvent] }
    else
      some (u.setQueue l
        (insertEntry ⟨receiver, ⟨s.nextEvent, type, l⟩, priority⟩ (s.queue l)))
  else none

/-- `EventLoopPrivate::remove_pending_events`. -/
def removeEntries (l receiver : Nat) : State :=
  let (taken, remaining) := takeEventsFor receiver (s.queue l)
  (s.setQueue l remaining).deleteEvents taken

/-- `purge_pending`; a null loop is tolerated. -/
def purgePending (loop : Option Nat) (receiver : Nat) : Option State :=
  match loop with
  | none => some s
  | some l => if (s.loops l).isSome then some (s.removeEntries l receiver) else none

def postEvent (receiver : Nat) (type : EventType) (priority : Int) : Option State :=
  match s.objects receiver with
  | none => none
  | some d =>
    if type = .kDeferredDelete then none
    else match d.mThread with
      | none => none
      | some l => s.enqueueEvent l receiver type priority

def deleteLater (o : Nat) : Option State :=
  match s.objects o with
  | none => none
  | some d =>
    match d.mThread.or (s.current t) with
    | none => none
    | some l => s.enqueueEvent l o .kDeferredDelete 0

/-- The two sweeps of `remove_pending_events` and `~Object`: the affinity loop and the
current one. -/
def sweep (o : Nat) : Option State :=
  match s.objects o with
  | none => none
  | some d => (s.purgePending d.mThread o).bind fun u => u.purgePending (s.current t) o

/-! ### Destruction -/

/-- The objects inside the loop of `~Object`. -/
def destroyed : List Nat := s.frames.filterMap fun f => f.2.destroyed

/-- `delete o`, up to the cascade: `~EventLoop` deletes what is queued, `~Object` sweeps
the two queues. -/
def delete (o : Nat) : Option State :=
  if o ∈ s.destroyed then none
  else (((s.deleteEvents (s.queue o)).setQueue o []).sweep t o).map fun u =>
    u.push t (.destroying o)

/-- The memory of an object is released.  The queue of a loop holds plain pointers: no
destructor deletes the events still in it. -/
def erase (o : Nat) : State :=
  { s with
    objects := update s.objects o none
    loops := update s.loops o none
    history := s.history ++ (s.queue o).map fun entry => .lost entry.mEvent.id }

/-- The end of `~Object`: the object is taken from its parent and is gone. -/
def release (o : Nat) : Option Nat → State
  | none => s.erase o
  | some p => (s.detachChild p o).erase o

/-- One round of the cascade of `~Object`: the first child is deleted, or there is none
left. -/
def cascade : Option State :=
  match s.top t with
  | some (.destroying o) =>
    match s.objects o with
    | none => none
    | some d =>
      match d.mChildren with
      | c :: _ => s.delete t c
      | [] =>
        if d.mParent.all s.alive then some ((s.pop t).release o d.mParent) else none
  | _ => none

/-! ### Migration -/

/-- `is_running`; a null loop is not running. -/
def isRunning : Option Nat → Option Bool
  | none => some false
  | some l => (s.loops l).map fun d => !d.mExit && d.mInExec

/-- The walk over the subtree in `move_to_loop`, for `rounds` rounds: every object with
the loop it belonged to. -/
def collect (s : State) : Nat → List Nat → List (Nat × Option Nat) →
    Option (List (Nat × Option Nat))
  | _, [], moved => some moved
  | 0, _ :: _, _ => none
  | rounds + 1, o :: pending, moved =>
    match s.objects o with
    | none => none
    | some d =>
      match d.mChildren.mapM fun c => (s.objects c).map fun child => (c, child.mThread) with
      | none => none
      | some children => s.collect rounds (pending ++ d.mChildren) (moved ++ children)

def moveToLoop (o : Nat) (target : Option Nat) (rounds : Nat) : Option State :=
  match s.objects o with
  | none => none
  | some d =>
    if d.mThread = target then some s
    else match s.isRunning d.mThread, s.isRunning target with
      | some false, some false =>
        (s.collect rounds [o] [(o, d.mThread)]).map fun moved =>
          s.push t (.relink target moved (moved.map Prod.fst))
      | _, _ => none

/-- The next object is bound to the target; its `kLoopChange` handler runs. -/
def relink : Option State :=
  match s.top t with
  | some (.relink target moved (o :: rest)) =>
    if s.alive o then
      some (((s.pop t).modifyObject o fun d => { d with mThread := target }).push t
        (.relink target moved rest))
    else none
  | _ => none

/-- Every object is relinked; the queued entries follow. -/
def migrate : Option State :=
  match s.top t with
  | some (.relink target moved []) => some { s.pop t with pending := .migrating target moved }
  | _ => none

/-- What `migrating` is after an object is done. -/
def migratingRest (target : Option Nat) (rest : List (Nat × Option Nat)) : Pending :=
  if rest = [] then .nothing else .migrating target rest

/-- The entries an object has on its old loop, and the state without them. -/
def takeFrom (o : Nat) : Option Nat → Option (List EventEntry × State)
  | none => some ([], s)
  | some l =>
    if (s.loops l).isSome then
      let (taken, remaining) := takeEventsFor o (s.queue l)
      some (taken, s.setQueue l remaining)
    else none

/-- The entries go to the end of the target's queue, or are deleted if there is none. -/
def giveTo (entries : List EventEntry) : Option Nat → Option State
  | none => some (s.deleteEvents entries)
  | some l =>
    if (s.loops l).isSome then some (s.setQueue l (s.queue l ++ entries)) else none

/-- The entries of one moved object change queues. -/
def transfer : Option State :=
  match s.pending with
  | .migrating target ((o, old) :: rest) =>
    let u := { s with pending := migratingRest target rest }
    if old = target then some u
    else (u.takeFrom o old).bind fun (entries, v) => v.giveTo entries target
  | _ => none

/-! ### Running a loop -/

def beginProcess (l : Nat) : Option State :=
  if (s.loops l).isSome then some (s.push t (.processEvents l)) else none

/-- The head of the queue is popped and sent; a filter may intercept it. -/
def dispatch (intercepted : Bool) : Option State :=
  match s.top t with
  | some (.processEvents l) =>
    match s.queue l with
    | [] => none
    | entry :: queue =>
      if s.alive entry.mReceiver then
        some { ((s.setQueue l queue).push t (.dispatch entry)) with
          history := s.history ++ if intercepted then [] else [.handed entry.mEvent.id] }
      else none
  | _ => none

def exit (l : Nat) : Option State :=
  if (s.loops l).isSome then
    some (s.modifyLoop l fun d => { d with mExit := true, mHasExitCode := true })
  else none

/-- `Object::event` and `EventLoop::event` on the event being dispatched. -/
def objectEvent : Option State :=
  match s.top t with
  | some (.dispatch entry) =>
    match entry.mEvent.type with
    | .kDeferredDelete => s.delete t entry.mReceiver
    | .kQuit => if (s.loops entry.mReceiver).isSome then s.exit entry.mReceiver else some s
    | .other => some s
  | _ => none

/-- `send_event` returns; the event is deleted. -/
def finishDispatch : Option State :=
  match s.top t with
  | some (.dispatch entry) => some ((s.pop t).deleteEvents [entry])
  | _ => none

/-- `process_events` finds the queue empty. -/
def endProcess : Option State :=
  match s.top t with
  | some (.processEvents l) =>
    if (s.loops l).isSome ∧ s.queue l = [] then some (s.pop t) else none
  | _ => none

/-- `exec` up to its loop; it returns at once when the loop is executing already or
`exit` was called before. -/
def exec (l : Nat) : Option State :=
  match s.loops l with
  | none => none
  | some d =>
    if d.mInExec then some s
    else if d.mExit && d.mHasExitCode then some s
    else
      let u := s.modifyLoop l fun d => { d with mInExec := true, mExit := false }
      some { u.push t (.exec l (s.current t)) with
        current := update s.current t (some l) }

def endExec : Option State :=
  match s.top t with
  | some (.exec l previous) =>
    match s.loops l with
    | none => none
    | some d =>
      if d.mExit then
        let u := s.modifyLoop l fun d => { d with mInExec := false }
        some { u.pop t with current := update s.current t previous }
      else none
  | _ => none

end State

/-! ### The machine -/

inductive Action where
  | newObject (parent : Option Nat)
  | newLoop (parent : Option Nat)
  | constructed
  | setParent (object : Nat) (parent : Option Nat) (rounds : Nat)
  | childRemoved
  | destroy (object : Nat)
  | cascade
  | postEvent (receiver : Nat) (type : EventType) (priority : Int)
  | deleteLater (object : Nat)
  | removePendingEvents (receiver : Nat)
  | moveToLoop (object : Nat) (target : Option Nat) (rounds : Nat)
  | relink
  | migrate
  | transfer
  | processEvents (loop : Nat)
  | dispatch (intercepted : Bool)
  | objectEvent
  | finishDispatch
  | endProcess
  | exec (loop : Nat)
  | endExec
  | exit (loop : Nat)
deriving DecidableEq, Repr

/-- The calls, made while nothing is pending. -/
def State.call (s : State) (t : ThreadId) : Action → Option State
  | .newObject parent => s.construct t parent
  | .newLoop parent => s.newLoop t parent
  | .constructed => s.constructed t
  | .setParent o parent rounds => s.setParent t o parent rounds
  | .childRemoved => s.childRemoved t
  | .destroy o => s.delete t o
  | .cascade => s.cascade t
  | .postEvent receiver type priority => s.postEvent receiver type priority
  | .deleteLater o => s.deleteLater t o
  | .removePendingEvents receiver => s.sweep t receiver
  | .moveToLoop o target rounds => s.moveToLoop t o target rounds
  | .relink => s.relink t
  | .migrate => s.migrate t
  | .processEvents l => s.beginProcess t l
  | .dispatch intercepted => s.dispatch t intercepted
  | .objectEvent => s.objectEvent t
  | .finishDispatch => s.finishDispatch t
  | .endProcess => s.endProcess t
  | .exec l => s.exec t l
  | .endExec => s.endExec t
  | .exit l => s.exit l
  | .transfer => none

/-- One step of a thread. -/
def State.step (s : State) : ThreadId × Action → Option State
  | (_, .transfer) => s.transfer
  | (t, action) => if s.pending = .nothing then s.call t action else none

def machine : Transition.Machine State (ThreadId × Action) where
  init := .init
  step := State.step

end CxxKit.Kernel
