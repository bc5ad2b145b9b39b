import CxxKit.Kernel.EventFilters

/-!
The filters of an event (`Object::send_event_internal`).

A delivery first goes over the filters of the application, if there is one, and then over
those of the receiver, from the last one to the first.  Both loops index the list as it is
at that moment, and what a filter does while it runs, deliveries of its own included, are
the installations and removals between its call and its return.  Reading beyond the end of
a list is undefined: there is no step.

A delivery records the lists its loops started with and the calls it has made, each with
the list at that moment; the source stores none of this.
-/

namespace CxxKit.FilterChains

open List Option

/-- The filters of the application, or the receiver's own. -/
inductive Chain where
  | globals | own
deriving DecidableEq, Repr

/-- `looping chain i`: the loop variable is `i` and its test comes next.  `running chain i`:
the filter that was found at position `i` runs. -/
inductive Point where
  | looping (chain : Chain) (i : Nat)
  | running (chain : Chain) (i : Nat)
  | returned
deriving DecidableEq, Repr

/-- Filters are installed and removed by the filter that runs; between deliveries anything
may happen to the objects. -/
def Point.permits : Point → EventFilters.Action → Bool
  | .returned, _ | .running _ _, .install _ _ | .running _ _, .remove _ _ => true
  | _, _ => false

structure Call where
  filter : Nat
  installed : List Nat
deriving DecidableEq, Repr

structure Delivery where
  app : Option Nat
  receiver : Nat
  point : Point
  globals : List Nat
  own : List Nat
  calls : List Call
deriving DecidableEq, Repr

namespace Delivery

/-- The object whose filters a loop goes over. -/
def host (d : Delivery) : Chain → Option Nat
  | .globals => d.app
  | .own => some d.receiver

/-- The filters a loop started with. -/
def start (d : Delivery) : Chain → List Nat
  | .globals => d.globals
  | .own => d.own

def called (d : Delivery) : List Nat := d.calls.map (·.filter)

end Delivery

structure State where
  objects : EventFilters.State
  delivery : Option Delivery

def State.init : State where
  objects := .init
  delivery := none

/-- The filters of a loop as they are now. -/
def filters (objects : EventFilters.State) (d : Delivery) (chain : Chain) : List Nat :=
  match d.host chain with
  | none => []
  | some o => objects.mFilters o

namespace State

variable (s : State)

/-- A delivery begins with the loop over the application's filters, if there is one. -/
def send (app : Option Nat) (receiver : Nat) : Option State :=
  if receiver ∈ s.objects.alive then
    match app with
    | none =>
      let own := s.objects.mFilters receiver
      some { s with delivery := some ⟨none, receiver, .looping .own own.length, [], own, []⟩ }
    | some a =>
      if a ∈ s.objects.alive then
        let globals := s.objects.mFilters a
        some { s with
          delivery := some ⟨some a, receiver, .looping .globals globals.length, globals, [], []⟩ }
      else none
  else none

/-- The test of a loop, and the call of the filter it finds.  After the loops the receiver
handles the event. -/
def next (d : Delivery) : Option State :=
  match d.point with
  | .looping .globals 0 =>
    let own := s.objects.mFilters d.receiver
    some { s with delivery := some { d with point := .looping .own own.length, own := own } }
  | .looping .own 0 => some { s with delivery := some { d with point := .returned } }
  | .looping chain (i + 1) =>
    match (filters s.objects d chain)[i]? with
    | none => none
    | some f => some { s with delivery := some { d with
        point := .running chain i
        calls := d.calls ++ [⟨f, filters s.objects d chain⟩] } }
  | _ => none

/-- The running filter returns; if it intercepts the event, the delivery is over. -/
def ret (d : Delivery) (intercepts : Bool) : Option State :=
  match d.point with
  | .running chain i => some { s with delivery := some { d with
      point := if intercepts then .returned else .looping chain i } }
  | _ => none

/-- Where the delivery is; before the first one it is as after one. -/
def point : Point :=
  match s.delivery with
  | none => .returned
  | some d => d.point

def edit (a : EventFilters.Action) : Option State :=
  if s.point.permits a then
    match s.objects.step a with
    | none => none
    | some objects => some { s with objects }
  else none

end State

inductive Action where
  | edit (action : EventFilters.Action)
  | send (app : Option Nat) (receiver : Nat)
  | next
  | ret (intercepts : Bool)
deriving DecidableEq, Repr

/-- Only one delivery is followed at a time. -/
def State.step (s : State) : Action → Option State
  | .edit a => s.edit a
  | .send app receiver =>
    if s.point = .returned then s.send app receiver else none
  | .next => s.delivery.bind s.next
  | .ret intercepts => s.delivery.bind fun d => s.ret d intercepts

open State

def machine : Transition.Machine State Action where
  init := .init
  step := State.step

/-! ### What a delivery should do -/

/-- Each filter is called at most once, the newest of each list first, none that was not
installed at its turn; and the next position the loop reads is in the list. -/
structure Delivery.Proper (objects : EventFilters.State) (d : Delivery) : Prop where
  once : d.called.Nodup
  newestFirst : d.called <+: d.globals.reverse ++ d.own.reverse
  installed : ∀ c ∈ d.calls, c.filter ∈ c.installed
  bounded : ∀ chain i, d.point = .looping chain (i + 1) →
    i < (filters objects d chain).length

def Proper (s : State) : Prop := ∀ d, s.delivery = some d → d.Proper s.objects

/-- Whenever a filter lets the event pass, the filters that stood before it when the loop
began still stand there; and the receiver has, when its own loop begins, none of the filters
the application had. -/
def Steady (s : State) : Action → Prop
  | .ret false => ∀ d chain i, s.delivery = some d → d.point = .running chain i →
      (filters s.objects d chain).take i = (d.start chain).take i
  | .next => ∀ d, s.delivery = some d → d.point = .looping .globals 0 →
      ∀ f ∈ s.objects.mFilters d.receiver, f ∉ d.globals
  | _ => True

/-! ### The invariant -/

section Lists

variable {α : Type*} {l l' : List α} {i : Nat}

theorem reverse_drop_isPrefix (l : List α) (i : Nat) : (l.drop i).reverse <+: l.reverse := by
  refine ⟨(l.take i).reverse, ?_⟩
  rw [← reverse_append, take_append_drop]

/-- Lists that agree up to a position agree at it. -/
theorem getElem?_of_take_eq (h : l.take (i + 1) = l'.take (i + 1)) : l[i]? = l'[i]? := by
  have hi : (l.take (i + 1))[i]? = (l'.take (i + 1))[i]? := by rw [h]
  rwa [getElem?_take_of_succ, getElem?_take_of_succ] at hi

theorem reverse_drop_eq {x : α} (h : l[i]? = some x) :
    (l.drop i).reverse = (l.drop (i + 1)).reverse ++ [x] := by
  obtain ⟨hi, rfl⟩ := List.getElem?_eq_some_iff.mp h
  rw [drop_eq_getElem_cons, reverse_cons]

end Lists

namespace Delivery

variable {d : Delivery} {objects : EventFilters.State}

/-- What was called before the loop over a list began. -/
def passed (d : Delivery) : Chain → List Nat
  | .globals => []
  | .own => d.globals.reverse

/-- What holds wherever a delivery is. -/
structure Started (d : Delivery) : Prop where
  globals : d.globals.Nodup
  own : d.own.Nodup
  apart : ∀ f ∈ d.own, f ∉ d.globals
  installed : ∀ c ∈ d.calls, c.filter ∈ c.installed

/-- What holds of a loop that has dealt with the positions from `i` on. -/
structure Reached (d : Delivery) (chain : Chain) (i : Nat) : Prop where
  called : d.called = d.passed chain ++ ((d.start chain).drop i).reverse
  pending : chain = .globals → d.own = []

def AtPoint (objects : EventFilters.State) (d : Delivery) : Point → Prop
  | .looping chain i => d.Reached chain i ∧
      (filters objects d chain).take i = (d.start chain).take i ∧ i ≤ (d.start chain).length
  | .running chain i => d.Reached chain i ∧ i < (d.start chain).length
  | .returned => d.called <+: d.globals.reverse ++ d.own.reverse

theorem Reached.isPrefix {chain : Chain} {i : Nat} (h : d.Reached chain i) :
    d.called <+: d.globals.reverse ++ d.own.reverse := by
  rw [h.called]
  cases chain with
  | globals =>
    rw [h.pending rfl]
    simpa [passed, start] using reverse_drop_isPrefix d.globals i
  | own => exact (prefix_append_right_inj _).mpr (reverse_drop_isPrefix d.own i)

theorem AtPoint.isPrefix {point : Point} (h : d.AtPoint objects point) :
    d.called <+: d.globals.reverse ++ d.own.reverse := by
  cases point with
  | looping chain i | running chain i => exact h.1.isPrefix
  | returned => exact h

theorem Started.proper (h : d.Started) (hpoint : d.AtPoint objects d.point) : d.Proper objects where
  once := by
    have hall : (d.globals.reverse ++ d.own.reverse).Nodup := by
      refine nodup_append.mpr
        ⟨nodup_reverse.mpr h.globals, nodup_reverse.mpr h.own, ?_⟩
      rintro f hf _ hf' rfl
      exact h.apart f (mem_reverse.mp hf') (mem_reverse.mp hf)
    exact hall.sublist hpoint.isPrefix.sublist
  newestFirst := hpoint.isPrefix
  installed := h.installed
  bounded := by
    intro chain i hloop
    rw [hloop] at hpoint
    obtain ⟨-, htake, hle⟩ := hpoint
    have hlength := congrArg List.length htake
    rw [length_take, length_take] at hlength
    omega

end Delivery

/-! ### Steps -/

structure Sound (s : State) : Prop where
  registered : s.objects.Registered
  started : ∀ d, s.delivery = some d → d.Started
  point : ∀ d, s.delivery = some d → d.AtPoint s.objects d.point

variable {s t : State} {d : Delivery}

section

variable (h : Sound s)

include h

theorem Sound.proper : Proper s :=
  fun d hd => (h.started d hd).proper (h.point d hd)

/-- The objects are as they were, and the delivery went on to `d`. -/
theorem Sound.goesOn (hstarted : d.Started)
    (hpoint : d.AtPoint s.objects d.point) : Sound { s with delivery := some d } := by
  refine ⟨h.registered, ?_, ?_⟩
  · rintro _ ⟨⟩
    exact hstarted
  · rintro _ ⟨⟩
    exact hpoint

theorem Sound.send {app : Option Nat} {receiver : Nat}
    (hstep : s.send app receiver = some t) : Sound t := by
  have hnodup := h.registered.consistent.fwd_nodup
  unfold State.send at hstep
  split at hstep
  · split at hstep
    · cases hstep
      refine h.goesOn ⟨.nil, hnodup receiver, fun _ _ => nofun, nofun⟩ ⟨⟨?_, nofun⟩, rfl, ?_⟩
      · simp [Delivery.called, Delivery.passed, Delivery.start]
      · exact Nat.le_refl _
    next a =>
      split at hstep
      · cases hstep
        refine h.goesOn ⟨hnodup a, .nil, nofun, nofun⟩ ⟨⟨?_, fun _ => rfl⟩, rfl, ?_⟩
        · simp [Delivery.called, Delivery.passed, Delivery.start]
        · exact Nat.le_refl _
      · cases hstep
  · cases hstep

section

variable (hd : s.delivery = some d)
include hd

theorem Sound.own (hpoint : d.point = .looping .globals 0)
    (hapart : ∀ f ∈ s.objects.mFilters d.receiver, f ∉ d.globals) :
    Sound { s with delivery := some { d with
      point := .looping .own (s.objects.mFilters d.receiver).length
      own := s.objects.mFilters d.receiver } } := by
  have hstarted := h.started d hd
  have hat := h.point d hd
  rw [hpoint] at hat
  obtain ⟨hreached, -, -⟩ := hat
  refine h.goesOn ⟨hstarted.globals, h.registered.consistent.fwd_nodup _, hapart,
    hstarted.installed⟩ ⟨⟨?_, nofun⟩, rfl, Nat.le_refl _⟩
  have hcalled := hreached.called
  simpa [Delivery.called, Delivery.passed, Delivery.start] using hcalled

/-- A filter is called: it is the one that stood there when the loop began. -/
theorem Sound.called {chain : Chain} {i f : Nat} (hpoint : d.point = .looping chain (i + 1))
    (hf : (filters s.objects d chain)[i]? = some f) : Sound { s with delivery := some { d with
      point := .running chain i
      calls := d.calls ++ [⟨f, filters s.objects d chain⟩] } } := by
  have hstarted := h.started d hd
  have hat := h.point d hd
  rw [hpoint] at hat
  obtain ⟨hreached, htake, hle⟩ := hat
  have hsame : (d.start chain)[i]? = some f := (getElem?_of_take_eq htake).symm.trans hf
  refine h.goesOn ⟨hstarted.globals, hstarted.own, hstarted.apart, ?_⟩ ⟨⟨?_, hreached.pending⟩, hle⟩
  · exact forall_mem_append.mpr ⟨hstarted.installed, forall_mem_singleton.mpr (mem_of_getElem? hf)⟩
  · have hcalled := hreached.called
    simp only [Delivery.called, map_append, map_singleton] at hcalled ⊢
    rw [hcalled, append_assoc, ← reverse_drop_eq hsame]
    cases chain <;> rfl

theorem Sound.next (hsteady : Steady s .next) (hstep : s.next d = some t) : Sound t := by
  unfold State.next at hstep
  split at hstep
  next hpoint =>
    cases hstep
    exact h.own hd hpoint (hsteady d hd hpoint)
  · cases hstep
    have hstarted := h.started d hd
    refine h.goesOn ⟨hstarted.globals, hstarted.own, hstarted.apart, hstarted.installed⟩ ?_
    exact (h.point d hd).isPrefix
  next chain i hpoint =>
    split at hstep
    · cases hstep
    next f hf =>
      cases hstep
      exact h.called hd hpoint hf
  · cases hstep

theorem Sound.ret {intercepts : Bool} (hsteady : Steady s (.ret intercepts))
    (hstep : s.ret d intercepts = some t) : Sound t := by
  unfold State.ret at hstep
  split at hstep
  next chain i hpoint =>
    cases hstep
    have hstarted := h.started d hd
    have hat := h.point d hd
    refine h.goesOn ⟨hstarted.globals, hstarted.own, hstarted.apart, hstarted.installed⟩ ?_
    cases intercepts with
    | true => exact hat.isPrefix
    | false =>
      rw [hpoint] at hat
      obtain ⟨hreached, hlt⟩ := hat
      have htake := hsteady d chain i hd hpoint
      cases chain with
      | globals | own => exact ⟨⟨hreached.called, hreached.pending⟩, htake, Nat.le_of_lt hlt⟩
  · cases hstep

end

/-- Edits happen while a filter runs or between deliveries, when nothing depends on the
lists. -/
theorem Sound.edit {a : EventFilters.Action} (hstep : s.edit a = some t) : Sound t := by
  unfold State.edit at hstep
  split at hstep
  next hpermits =>
    split at hstep
    · cases hstep
    next objects hobjects =>
      cases hstep
      refine ⟨h.registered.step hobjects, h.started, fun d hd => ?_⟩
      have hat := h.point d hd
      have hpoint : s.point = d.point := by
        rw [State.point, show s.delivery = some d from hd]
      rw [hpoint] at hpermits
      cases hcase : d.point with
      | looping chain i =>
        rw [hcase] at hpermits
        cases hpermits
      | running chain i | returned =>
        rw [hcase] at hat
        exact hat
  · cases hstep

theorem Sound.step {a : Action} (hsteady : Steady s a) (hstep : s.step a = some t) : Sound t := by
  cases a with
  | edit a => exact h.edit hstep
  | send app receiver =>
    simp only [State.step] at hstep
    split at hstep
    · exact h.send hstep
    · cases hstep
  | next =>
    obtain ⟨d, hd, hnext⟩ := bind_eq_some_iff.mp hstep
    exact h.next hd hsteady hnext
  | ret intercepts =>
    obtain ⟨d, hd, hret⟩ := bind_eq_some_iff.mp hstep
    exact h.ret hd hsteady hret

end

theorem sound_init : Sound init := ⟨EventFilters.State.registered_init, nofun, nofun⟩

open Transition

/-- **Deliveries are proper**, in every run in which no filter lets an event pass after the
filters before it were changed, and no filter is installed both on the application and on
the receiver. -/
theorem deliveries_proper (run : List Action) (h : machine.Meets Steady init run) :
    machine.Always Proper init run := by
  have hsound : machine.Always Sound init run := by
    refine Machine.always_of_meets ?_ sound_init h
    exact fun s a t hsound hsteady hstep => hsound.step hsteady hstep
  exact hsound.mono fun s h => h.proper

/-- An application, a receiver and three filters; the filter of the application removes
itself while it runs, and the newer one of the receiver's installs another object. -/
def steadyRun : List Action :=
  [.edit .newObject, .edit .newObject, .edit .newObject, .edit .newObject, .edit .newObject,
    .edit (.install 0 (some 2)), .edit (.install 1 (some 3)), .edit (.install 1 (some 4)),
    .send (some 0) 1, .next, .edit (.remove 0 (some 2)), .ret false, .next, .next,
    .edit (.install 1 (some 0)), .ret false, .next, .ret true]

theorem deliveries_proper_steady :
    ((machine.run init steadyRun).bind (·.delivery)).map (·.called) = some [2, 4, 3] ∧
      machine.Always Proper init steadyRun := by
  refine ⟨rfl, deliveries_proper steadyRun ?_⟩
  iterate 9
    rintro _ ⟨⟩
    refine ⟨trivial, ?_⟩
  -- the application's filter is called, removes itself and lets the event pass
  rintro _ ⟨⟩
  refine ⟨by rintro _ ⟨⟩ ⟨⟩, ?_⟩
  rintro _ ⟨⟩
  refine ⟨trivial, ?_⟩
  rintro _ ⟨⟩
  refine ⟨by rintro _ _ _ ⟨⟩ ⟨⟩; rfl, ?_⟩
  -- the receiver's loop begins
  rintro _ ⟨⟩
  refine ⟨by rintro _ ⟨⟩ -; decide, ?_⟩
  rintro _ ⟨⟩
  refine ⟨by rintro _ ⟨⟩ ⟨⟩, ?_⟩
  rintro _ ⟨⟩
  refine ⟨trivial, ?_⟩
  rintro _ ⟨⟩
  refine ⟨by rintro _ _ _ ⟨⟩ ⟨⟩; rfl, ?_⟩
  rintro _ ⟨⟩
  refine ⟨by rintro _ ⟨⟩ ⟨⟩, ?_⟩
  rintro _ ⟨⟩
  exact ⟨trivial, trivial⟩

/-- Three filters on one object; the newest removes the oldest while it runs. -/
def shiftingRun : List Action :=
  [.edit .newObject, .edit .newObject, .edit .newObject, .edit .newObject,
    .edit (.install 0 (some 1)), .edit (.install 0 (some 2)), .edit (.install 0 (some 3)),
    .send none 0, .next, .edit (.remove 0 (some 1)), .ret false, .next]

/-- The removal moves the newest filter to the next position: it is called a second time. -/
theorem filter_called_twice : ∃ s, machine.run init shiftingRun = some s ∧ ¬ Proper s := by
  refine ⟨_, rfl, fun h => ?_⟩
  have honce := (h _ rfl).once
  revert honce
  decide

end CxxKit.FilterChains
