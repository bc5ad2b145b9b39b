import CxxKit.Lib.Mirrored
import CxxKit.Lib.Transition
import CxxKit.Lib.While

/-!
Event filters (`kernel/object.cpp`).

An object lists the filters installed on it (`mFilters`, the newest last) and the objects it
watches as a filter (`mWatching`).  A call that follows a pointer to a destroyed object is
undefined: the step is `none`.  Numbers are not used again for new objects.
-/

namespace CxxKit.EventFilters

open List Mirrored

structure State where
  alive : List Nat
  lists : Lists Nat Nat
  next : Nat

def State.init : State where
  alive := []
  lists := ⟨fun _ => [], fun _ => []⟩
  next := 0

namespace State

variable (s : State)

abbrev mFilters (o : Nat) : List Nat := s.lists.fwd o

abbrev mWatching (f : Nat) : List Nat := s.lists.bwd f

def newObject : State := { s with alive := s.next :: s.alive, next := s.next + 1 }

/-- `o->remove_event_filter(filter)`; no list holds a null pointer. -/
def removeEventFilter (o : Nat) (filter : Option Nat) : Option State :=
  if o ∈ s.alive then
    match filter with
    | none => some s
    | some f => if f ∈ s.alive then some { s with lists := s.lists.unlink o f } else none
  else none

/-- `o->install_event_filter(filter)`. -/
def installEventFilter (o : Nat) (filter : Option Nat) : Option State :=
  match filter with
  | none => none
  | some f =>
    if f = o then none
    else
      match s.removeEventFilter o (some f) with
      | none => none
      | some s => some { s with lists := s.lists.link o f }

/-- `while (!d->mWatching.empty()) d->mWatching.back()->remove_event_filter(this)`. -/
def detachWatching (o : Nat) : Nat → State → Option State :=
  While.loop (fun s => (s.mWatching o).getLast?) fun w s => s.removeEventFilter w (some o)

/-- `while (!d->mFilters.empty()) this->remove_event_filter(d->mFilters.back())`. -/
def detachFilters (o : Nat) : Nat → State → Option State :=
  While.loop (fun s => (s.mFilters o).getLast?) fun f s => s.removeEventFilter o (some f)

/-- The part of `~Object` that deals with filters, each loop given `rounds` rounds. -/
def destroyIn (rounds : Nat) (s : State) (o : Nat) : Option State :=
  if o ∈ s.alive then
    match detachWatching o rounds s with
    | none => none
    | some s =>
      match detachFilters o rounds s with
      | none => none
      | some s => some { s with alive := s.alive.filter (· ≠ o) }
  else none

/-- How many filters and watched objects the object has. -/
def entries (o : Nat) : Nat := (s.mWatching o).length + (s.mFilters o).length

def destroy (o : Nat) : Option State := s.destroyIn (s.entries o + 1) o

end State

inductive Action where
  | newObject
  | install (o : Nat) (filter : Option Nat)
  | remove (o : Nat) (filter : Option Nat)
  | destroy (o : Nat)
deriving DecidableEq, Repr

def State.step (s : State) : Action → Option State
  | .newObject => some s.newObject
  | .install o filter => s.installEventFilter o filter
  | .remove o filter => s.removeEventFilter o filter
  | .destroy o => s.destroy o

open State

def machine : Transition.Machine State Action where
  init := .init
  step := step

/-! ### Consistency -/

variable {s t : State} {o f : Nat}

namespace State

/-- Both sides agree and hold nothing twice, and no list of any object names a destroyed one
or belongs to one. -/
structure Registered (s : State) : Prop where
  consistent : s.lists.Consistent
  filters_alive : ∀ o, ∀ f ∈ s.mFilters o, o ∈ s.alive ∧ f ∈ s.alive

theorem Registered.watching_alive (h : s.Registered) : ∀ o ∈ s.mWatching f,
    o ∈ s.alive ∧ f ∈ s.alive :=
  fun o ho => h.filters_alive o f ((h.consistent.mirror o f).mpr ho)

theorem removeEventFilter_some (ho : o ∈ s.alive) (hf : f ∈ s.alive) :
    s.removeEventFilter o (some f) = some { s with lists := s.lists.unlink o f } := by
  rw [removeEventFilter, if_pos ho]
  exact if_pos hf

theorem Registered.unlink (h : s.Registered) (o f : Nat) :
    Registered { s with lists := s.lists.unlink o f } where
  consistent := h.consistent.unlink o f
  filters_alive o' f' hf' := h.filters_alive o' f' (Lists.mem_fwd_unlink.mp hf').1

variable {filter : Option Nat}

/-- **Inversion of `remove_event_filter`.** -/
theorem removeEventFilter_inv (h : s.removeEventFilter o filter = some t) :
    o ∈ s.alive ∧ ((filter = none ∧ t = s) ∨
      ∃ f, filter = some f ∧ f ∈ s.alive ∧ t = { s with lists := s.lists.unlink o f }) := by
  unfold removeEventFilter at h
  split at h
  next ho =>
    refine ⟨ho, ?_⟩
    split at h
    · cases h
      exact .inl ⟨rfl, rfl⟩
    next f =>
      split at h
      next hf =>
        cases h
        exact .inr ⟨f, rfl, hf, rfl⟩
      · cases h
  · cases h

theorem Registered.remove (h : s.Registered) (hstep : s.removeEventFilter o filter = some t) :
    t.Registered := by
  obtain ⟨-, ⟨-, rfl⟩ | ⟨f, -, -, rfl⟩⟩ := removeEventFilter_inv hstep
  · exact h
  · exact h.unlink o f

theorem installEventFilter_inv (h : s.installEventFilter o filter = some t) :
    ∃ f, filter = some f ∧ f ≠ o ∧ o ∈ s.alive ∧ f ∈ s.alive ∧
      t = { s with lists := (s.lists.unlink o f).link o f } := by
  unfold installEventFilter at h
  split at h
  · cases h
  next f =>
    split at h
    · cases h
    next hne =>
      split at h
      · cases h
      next u hremove =>
        cases h
        obtain ⟨ho, ⟨hnone, -⟩ | ⟨f', hf', hf, rfl⟩⟩ := removeEventFilter_inv hremove
        · cases hnone
        · cases hf'
          exact ⟨f, rfl, hne, ho, hf, rfl⟩

theorem Registered.install (h : s.Registered) (hstep : s.installEventFilter o filter = some t) :
    t.Registered := by
  obtain ⟨f, -, -, ho, hf, rfl⟩ := installEventFilter_inv hstep
  have hnew : f ∉ (s.lists.unlink o f).fwd o := by
    intro hmem
    exact (Lists.mem_fwd_unlink.mp hmem).2 ⟨rfl, rfl⟩
  refine ⟨(h.consistent.unlink o f).link hnew, ?_⟩
  intro o' f' hf'
  rcases Lists.mem_fwd_link.mp hf' with hold | ⟨rfl, rfl⟩
  · exact h.filters_alive o' f' (Lists.mem_fwd_unlink.mp hold).1
  · exact ⟨ho, hf⟩

/-! ### The loops of the destructor -/

/-- What both loops keep; lists only get shorter. -/
structure Detaching (s t : State) : Prop where
  registered : t.Registered
  filters : ∀ o, (t.mFilters o).Sublist (s.mFilters o)
  watching : ∀ f, (t.mWatching f).Sublist (s.mWatching f)

theorem Registered.detaching (h : s.Registered) : Detaching s s :=
  ⟨h, fun _ => .refl _, fun _ => .refl _⟩

theorem Detaching.unlink {u : State} (h : Detaching s u) (o f : Nat) :
    Detaching s { u with lists := u.lists.unlink o f } where
  registered := h.registered.unlink o f
  filters o' := Lists.fwd_unlink_sublist.trans (h.filters o')
  watching f' := Lists.fwd_unlink_sublist (s := u.lists.flip).trans (h.watching f')

section

variable (h : s.Registered)

include h

/-- **The first loop** ends after at most one round for each watched object. -/
theorem detachWatching_total (o : Nat) :
    ∃ t, (∀ rounds, (s.mWatching o).length < rounds → detachWatching o rounds s = some t) ∧
      Detaching s t ∧ t.mWatching o = [] := by
  have hbody : ∀ u w, Detaching s u → (u.mWatching o).getLast? = some w →
      ∃ v, u.removeEventFilter w (some o) = some v ∧ Detaching s v ∧
        (v.mWatching o).length < (u.mWatching o).length := by
    intro u w hu hlast
    have hmem : w ∈ u.mWatching o := mem_of_getLast? hlast
    have halive := hu.registered.watching_alive w hmem
    refine ⟨_, removeEventFilter_some halive.1 halive.2, hu.unlink w o, ?_⟩
    exact Lists.length_fwd_unlink_lt (s := u.lists.flip) hmem
  obtain ⟨t, hloop, ht, hdone⟩ := While.loop_total (Detaching s)
    (fun u => (u.mWatching o).length) hbody h.detaching
  exact ⟨t, hloop, ht, getLast?_eq_none_iff.mp hdone⟩

/-- **The second loop** ends after at most one round for each filter. -/
theorem detachFilters_total (o : Nat) :
    ∃ t, (∀ rounds, (s.mFilters o).length < rounds → detachFilters o rounds s = some t) ∧
      Detaching s t ∧ t.mFilters o = [] := by
  have hbody : ∀ u f, Detaching s u → (u.mFilters o).getLast? = some f →
      ∃ v, u.removeEventFilter o (some f) = some v ∧ Detaching s v ∧
        (v.mFilters o).length < (u.mFilters o).length := by
    intro u f hu hlast
    have hmem : f ∈ u.mFilters o := mem_of_getLast? hlast
    have halive := hu.registered.filters_alive o f hmem
    exact ⟨_, removeEventFilter_some halive.1 halive.2, hu.unlink o f,
      Lists.length_fwd_unlink_lt hmem⟩
  obtain ⟨t, hloop, ht, hdone⟩ := While.loop_total (Detaching s)
    (fun u => (u.mFilters o).length) hbody h.detaching
  exact ⟨t, hloop, ht, getLast?_eq_none_iff.mp hdone⟩

/-- An object without entries can go. -/
theorem Registered.kill (hwatching : s.mWatching o = []) (hfilters : s.mFilters o = []) :
    Registered { s with alive := s.alive.filter (· ≠ o) } := by
  refine ⟨h.consistent, ?_⟩
  intro o' f hf
  have hmem : f ∈ s.mFilters o' := hf
  obtain ⟨ho', hf'⟩ := h.filters_alive o' f hmem
  have hne : o' ≠ o := by
    rintro rfl
    rw [hfilters] at hmem
    cases hmem
  have hnef : f ≠ o := by
    rintro rfl
    have hback := (h.consistent.mirror o' f).mp hmem
    rw [show s.lists.bwd f = [] from hwatching] at hback
    cases hback
  simp [mem_filter, ho', hf', hne, hnef]

/-- **Destruction ends**, however many rounds the loops are given beyond the entries. -/
theorem destroyIn_total (ho : o ∈ s.alive) :
    ∃ t, (∀ rounds, s.entries o < rounds → s.destroyIn rounds o = some t) ∧ t.Registered ∧
      o ∉ t.alive := by
  obtain ⟨u, hfirst, hu, hwatching⟩ := detachWatching_total h o
  obtain ⟨v, hsecond, hv, hfilters⟩ := detachFilters_total hu.registered o
  refine ⟨{ v with alive := v.alive.filter (· ≠ o) }, fun rounds hrounds => ?_, ?_, ?_⟩
  · have hbound : s.entries o = (s.mWatching o).length + (s.mFilters o).length := rfl
    have hfewer := (hu.filters o).length_le
    rw [destroyIn, if_pos ho, hfirst rounds (by omega)]
    dsimp only
    rw [hsecond rounds (by omega)]
  · refine hv.registered.kill ?_ hfilters
    have hsub := hv.watching o
    rw [hwatching] at hsub
    exact sublist_nil.mp hsub
  · simp [mem_filter]

theorem Registered.destroy (hstep : s.destroy o = some t) : t.Registered := by
  have ho : o ∈ s.alive := by
    unfold State.destroy destroyIn at hstep
    split at hstep
    · assumption
    · cases hstep
  obtain ⟨u, hrun, hu, -⟩ := destroyIn_total h ho
  rw [State.destroy, hrun _ (Nat.lt_succ_self _)] at hstep
  cases hstep
  exact hu

theorem Registered.newObject : s.newObject.Registered where
  consistent := h.consistent
  filters_alive o f hf :=
    ⟨mem_cons_of_mem _ (h.filters_alive o f hf).1,
      mem_cons_of_mem _ (h.filters_alive o f hf).2⟩

theorem Registered.step {a : Action} (hstep : s.step a = some t) : t.Registered := by
  cases a with
  | newObject =>
    cases hstep
    exact h.newObject
  | install o filter => exact h.install hstep
  | remove o filter => exact h.remove hstep
  | destroy o => exact h.destroy hstep

end

theorem registered_init : init.Registered where
  consistent := ⟨fun _ _ => ⟨nofun, nofun⟩, fun _ => .nil, fun _ => .nil⟩
  filters_alive := nofun

end State

open Transition

end CxxKit.EventFilters
