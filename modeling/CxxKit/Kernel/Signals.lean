import CxxKit.Lib.SwapRemove
import CxxKit.Lib.Transition
import Mathlib.Logic.Function.Basic

/-!
Signals and slots (`kernel/signals.hpp`, `SignalBase`).

A run is any sequence of calls on the signals and of turns of the emissions in progress:
what a slot does when it is called, a recursive emission included, are the steps between
two turns of its emission.  An emission works on the slot list as it was at its start.

`disconnected` records the slots that one of the disconnecting calls has disconnected,
and every emission records its turns; the source stores neither.
-/

namespace CxxKit.Signals

open Function

/-- What `disconnect` compares of a callable: its `func_ptr` if it has one, its type, and
whether the type counts (`must_check_object`). -/
structure Callable where
  code : Option Nat
  type : Nat
  mustCheckObject : Bool
deriving DecidableEq, Repr

/-- `SlotState` and `SlotBase`, with the callable and the object of the derived class.
A tracked object is held weakly. -/
structure Slot where
  mIndex : Nat
  mGroup : Int
  mBlocked : Bool
  mConnected : Bool
  mCleaner : Nat
  callable : Callable
  object : Option Nat
  tracked : Bool
deriving DecidableEq, Repr

structure Group where
  gid : Int
  slts : List Nat
deriving DecidableEq, Repr

structure Signal where
  mSlots : List Group
  mBlock : Bool
deriving DecidableEq, Repr

/-- One turn of an emission: whether the slot was invoked, and how it stood then. -/
structure Turn where
  slot : Nat
  invoked : Bool
  disconnected : Bool
  blocked : Bool
  expired : Bool
deriving DecidableEq, Repr

/-- An emission: the slot list at its start, what is left of it, and the turns so far. -/
structure Emission where
  snapshot : List Nat
  rest : List Nat
  turns : List Turn
deriving DecidableEq, Repr

structure State where
  slots : Nat → Option Slot
  signals : Nat → Option Signal
  expired : List Nat
  emissions : List Emission
  nextSlot : Nat
  nextSignal : Nat
  disconnected : List Nat

def State.init : State where
  slots := fun _ => none
  signals := fun _ => none
  expired := []
  emissions := []
  nextSlot := 0
  nextSignal := 0
  disconnected := []

/-! ### Slots -/

namespace Slot

variable (slot : Slot)

def hasCallable (c : Callable) : Bool :=
  c.code.isSome && slot.callable.code == c.code

def hasFullCallable (c : Callable) : Bool :=
  slot.hasCallable c && (!c.mustCheckObject || slot.callable.type == c.type)

/-- The tracked object of the slot has died. -/
def expired (dead : List Nat) : Bool :=
  slot.tracked && slot.object.any (· ∈ dead)

/-- `get_object`; a tracked object that has died is null. -/
def getObject (dead : List Nat) : Option Nat :=
  if slot.expired dead then none else slot.object

def hasObject (dead : List Nat) (o : Option Nat) : Bool := slot.getObject dead == o

end Slot

/-! ### Slot lists -/

/-- `add_slot`: the slot goes to the end of its group, which is made if there is none; the
index it gets is returned as well. -/
def addSlot (x : Nat) (gid : Int) : List Group → List Group × Nat
  | [] => ([⟨gid, [x]⟩], 0)
  | g :: groups =>
    if g.gid < gid then
      let (rest, index) := addSlot x gid groups
      (g :: rest, index)
    else if g.gid = gid then ({ g with slts := g.slts ++ [x] } :: groups, g.slts.length)
    else (⟨gid, [x]⟩ :: g :: groups, 0)

def setIndex (slots : Nat → Option Slot) (x i : Nat) : Nat → Option Slot :=
  update slots x ((slots x).map fun slot => { slot with mIndex := i })

/-- The slot at the back takes the place of the `i`-th. -/
def removeAt (slots : Nat → Option Slot) (slts : List Nat) (i : Nat) :
    (Nat → Option Slot) × List Nat :=
  match slts.getLast? with
  | none => (slots, slts)
  | some back => (setIndex slots back i, SwapRemove.swapPop slts i)

/-- `clean`: the group of the slot is searched at the slot's index only. -/
def cleanGroups (slots : Nat → Option Slot) (x index : Nat) (gid : Int) :
    List Group → (Nat → Option Slot) × List Group
  | [] => (slots, [])
  | g :: groups =>
    if g.gid = gid then
      if g.slts[index]? = some x then
        let (slots, slts) := removeAt slots g.slts index
        (slots, { g with slts := slts } :: groups)
      else (slots, g :: groups)
    else
      let (slots, rest) := cleanGroups slots x index gid groups
      (slots, g :: rest)

/-- The inner loop of `disconnect_if`, for `rounds` rounds. -/
def disconnectLoop (cond : Nat → Bool) : Nat → (Nat → Option Slot) → List Nat → Nat →
    (Nat → Option Slot) × List Nat
  | 0, slots, slts, _ => (slots, slts)
  | rounds + 1, slots, slts, i =>
    match slts[i]? with
    | none => (slots, slts)
    | some x =>
      if cond x then
        let (slots, slts) := removeAt slots slts i
        disconnectLoop cond rounds slots slts i
      else disconnectLoop cond rounds slots slts (i + 1)

def disconnectGroups (cond : Nat → Bool) (slots : Nat → Option Slot) :
    List Group → (Nat → Option Slot) × List Group
  | [] => (slots, [])
  | g :: groups =>
    let (slots, slts) := disconnectLoop cond g.slts.length slots g.slts 0
    let (slots, rest) := disconnectGroups cond slots groups
    (slots, { g with slts := slts } :: rest)

/-- `disconnect(gid)` clears the first group with that id. -/
def clearGroup (gid : Int) : List Group → List Group
  | [] => []
  | g :: groups =>
    if g.gid = gid then { g with slts := [] } :: groups else g :: clearGroup gid groups

def groupSlots (gid : Int) : List Group → List Nat
  | [] => []
  | g :: groups => if g.gid = gid then g.slts else groupSlots gid groups

/-- Every slot of a list is told its signal. -/
def rerouteSlotsTo (slots : Nat → Option Slot) (list : List Nat) (target : Nat) :
    Nat → Option Slot :=
  fun x => if x ∈ list then (slots x).map fun slot => { slot with mCleaner := target }
    else slots x

/-- The slots of all groups, in the order of an emission. -/
def allSlots (groups : List Group) : List Nat := groups.flatMap (·.slts)

namespace State

variable (s : State)

def slotList (sig : Nat) : List Nat :=
  match s.signals sig with
  | none => []
  | some d => allSlots d.mSlots

def setSlot (x : Nat) (slot : Slot) : State :=
  { s with slots := update s.slots x (some slot) }

def setSignal (sig : Nat) (d : Signal) : State :=
  { s with signals := update s.signals sig (some d) }

/-! ### Connecting and disconnecting -/

def newSignal : State :=
  { s.setSignal s.nextSignal ⟨[], false⟩ with nextSignal := s.nextSignal + 1 }

def connect (sig : Nat) (gid : Int) (callable : Callable) (object : Option Nat)
    (tracked : Bool) : Option State :=
  match s.signals sig with
  | none => none
  | some d =>
    let (groups, index) := addSlot s.nextSlot gid d.mSlots
    let slot : Slot := ⟨index, gid, false, true, sig, callable, object, tracked⟩
    some { (s.setSignal sig { d with mSlots := groups }) with
      slots := update s.slots s.nextSlot (some slot)
      nextSlot := s.nextSlot + 1 }

/-- `clean`, on the signal the slot knows. -/
def clean (x : Nat) : Option State :=
  match s.slots x with
  | none => none
  | some slot =>
    match s.signals slot.mCleaner with
    | none => none
    | some d =>
      let (slots, groups) := cleanGroups s.slots x slot.mIndex slot.mGroup d.mSlots
      some { (s.setSignal slot.mCleaner { d with mSlots := groups }) with slots := slots }

/-- `SlotState::disconnect`, which `Connection::disconnect` calls. -/
def disconnect (x : Nat) : Option State :=
  match s.slots x with
  | none => none
  | some slot =>
    if slot.mConnected then
      { (s.setSlot x { slot with mConnected := false }) with
        disconnected := x :: s.disconnected }.clean x
    else some s

/-- `disconnect_if`. -/
def disconnectIf (sig : Nat) (cond : Nat → Bool) : Option State :=
  match s.signals sig with
  | none => none
  | some d =>
    let (slots, groups) := disconnectGroups cond s.slots d.mSlots
    some { (s.setSignal sig { d with mSlots := groups }) with
      slots := slots
      disconnected := (allSlots d.mSlots).filter cond ++ s.disconnected }

/-- A condition on the slot with a given number. -/
def matching (cond : Slot → Bool) (x : Nat) : Bool := (s.slots x).any cond

def disconnectCallable (sig : Nat) (c : Callable) : Option State :=
  s.disconnectIf sig (s.matching fun slot => slot.hasFullCallable c)

def disconnectObject (sig : Nat) (o : Option Nat) : Option State :=
  s.disconnectIf sig (s.matching fun slot => slot.hasObject s.expired o)

def disconnectBoth (sig : Nat) (c : Callable) (o : Option Nat) : Option State :=
  s.disconnectIf sig (s.matching fun slot => slot.hasObject s.expired o && slot.hasCallable c)

def disconnectGroup (sig : Nat) (gid : Int) : Option State :=
  match s.signals sig with
  | none => none
  | some d => some { (s.setSignal sig { d with mSlots := clearGroup gid d.mSlots }) with
      disconnected := groupSlots gid d.mSlots ++ s.disconnected }

def disconnectAll (sig : Nat) : Option State :=
  match s.signals sig with
  | none => none
  | some d => some { (s.setSignal sig { d with mSlots := [] }) with
      disconnected := allSlots d.mSlots ++ s.disconnected }

/-! ### Blocking -/

def setBlocked (x : Nat) (blocked : Bool) : Option State :=
  match s.slots x with
  | none => none
  | some slot => some (s.setSlot x { slot with mBlocked := blocked })

def setBlock (sig : Nat) (blocked : Bool) : Option State :=
  match s.signals sig with
  | none => none
  | some d => some (s.setSignal sig { d with mBlock := blocked })

/-! ### Emission -/

/-- `operator()` up to its first slot. -/
def emit (sig : Nat) : Option State :=
  match s.signals sig with
  | none => none
  | some d =>
    if d.mBlock then some s
    else some { s with emissions := s.emissions ++ [⟨allSlots d.mSlots, allSlots d.mSlots, []⟩] }

/-- The next slot of the `e`-th emission gets its turn: `SlotBase::operator()`, and
`call_slot` of a tracked slot. -/
def turn (s : State) (e : Nat) : Option State :=
  match s.emissions[e]? with
  | none => none
  | some emission =>
    match emission.rest with
    | [] => none
    | x :: rest =>
      match s.slots x with
      | none => none
      | some slot =>
        let dead := slot.expired s.expired
        let turn : Turn := ⟨x, slot.mConnected && !slot.mBlocked && !dead,
          decide (x ∈ s.disconnected), slot.mBlocked, dead⟩
        let emissions := s.emissions.set e
          { emission with rest := rest, turns := emission.turns ++ [turn] }
        if slot.mConnected && !slot.mBlocked && dead then
          { s with emissions := emissions }.disconnect x
        else some { s with emissions := emissions }

/-! ### Moving and destroying signals -/

/-- `SignalBase(SignalBase &&)`. -/
def moveConstruct (sig : Nat) : Option State :=
  match s.signals sig with
  | none => none
  | some d => some { ((s.setSignal sig { d with mSlots := [] }).setSignal s.nextSignal d) with
      slots := rerouteSlotsTo s.slots (allSlots d.mSlots) s.nextSignal
      nextSignal := s.nextSignal + 1 }

/-- `operator=(SignalBase &&)`; locking one mutex twice never returns. -/
def moveAssign (sig from' : Nat) : Option State :=
  if sig = from' then none
  else match s.signals sig, s.signals from' with
    | some d, some d' =>
      let slots := rerouteSlotsTo s.slots (allSlots d'.mSlots) sig
      some { ((s.setSignal sig d').setSignal from' d) with
        slots := rerouteSlotsTo slots (allSlots d.mSlots) from' }
    | _, _ => none

/-- `~SignalBase`. -/
def destroy (sig : Nat) : Option State :=
  (s.disconnectAll sig).map fun u => { u with signals := update u.signals sig none }

end State

/-! ### The machine -/

inductive Action where
  | newSignal
  | connect (sig : Nat) (gid : Int) (callable : Callable) (object : Option Nat) (tracked : Bool)
  | disconnect (slot : Nat)
  | disconnectCallable (sig : Nat) (c : Callable)
  | disconnectObject (sig : Nat) (o : Option Nat)
  | disconnectBoth (sig : Nat) (c : Callable) (o : Option Nat)
  | disconnectGroup (sig : Nat) (gid : Int)
  | disconnectAll (sig : Nat)
  | setBlocked (slot : Nat) (blocked : Bool)
  | setBlock (sig : Nat) (blocked : Bool)
  | emit (sig : Nat)
  | turn (emission : Nat)
  | expire (object : Nat)
  | moveConstruct (sig : Nat)
  | moveAssign (sig from' : Nat)
  | destroy (sig : Nat)
deriving DecidableEq, Repr

def State.step (s : State) : Action → Option State
  | .newSignal => some s.newSignal
  | .connect sig gid callable object tracked => s.connect sig gid callable object tracked
  | .disconnect x => s.disconnect x
  | .disconnectCallable sig c => s.disconnectCallable sig c
  | .disconnectObject sig o => s.disconnectObject sig o
  | .disconnectBoth sig c o => s.disconnectBoth sig c o
  | .disconnectGroup sig gid => s.disconnectGroup sig gid
  | .disconnectAll sig => s.disconnectAll sig
  | .setBlocked x blocked => s.setBlocked x blocked
  | .setBlock sig blocked => s.setBlock sig blocked
  | .emit sig => s.emit sig
  | .turn e => s.turn e
  | .expire o => some { s with expired := o :: s.expired }
  | .moveConstruct sig => s.moveConstruct sig
  | .moveAssign sig from' => s.moveAssign sig from'
  | .destroy sig => s.destroy sig

def machine : Transition.Machine State Action where
  init := .init
  step := State.step

end CxxKit.Signals
