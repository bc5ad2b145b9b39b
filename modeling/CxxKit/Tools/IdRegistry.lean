import CxxKit.Lib.Service
import Mathlib.Algebra.Group.Int.Defs
import Mathlib.Data.Finset.Max

/-!
# The registry of ids

`IdRegistry` (`tools/id_registry.cpp`) hands out ids and takes them back: `mUsedIds` are the ids
registered, `mFreeIds` those to be reused.  A `std::set` is a `Finset`, whose first element is the
least one.

The constructor leaves `mCounter` uninitialised: a run begins with any value of it.  A registry is
observed with the set of the ids that were registered at some time, which the code does not keep.

* `stepRight_iff`: a request is served as the registry promises exactly when no id is free and the
  counter has one left to give, and an id is taken back so exactly when it is registered or free.
* `registry_runs_iff`: a run keeps the promise at each of its steps exactly when they are all so.
-/

namespace CxxKit.IdRegistry

open Finset Transition

structure Registry where
  mCounter : Int
  mFreeIds : Finset Int
  mUsedIds : Finset Int
  deriving DecidableEq

/-- What leaves the behaviour of the source undefined. -/
inductive Undefined where
  /-- `++mCounter` at the largest `int64_t` -/
  | overflow
  /-- `*end()` -/
  | endIterator
  deriving DecidableEq, Repr

section

variable (r : Registry)

/-- The constructor; `counter` is what the memory of `mCounter` holds. -/
def create (counter : Int) : Registry := ⟨counter, ∅, ∅⟩

/-- `IdRegistry::registered_id_count`. -/
def registeredIdCount : Nat := r.mUsedIds.card

/-- `IdRegistry::is_id_registered`. -/
def isIdRegistered (id : Int) : Bool := id ∈ r.mUsedIds

/-- `IdRegistry::register_id`. -/
def registerId (id : Int) : Registry where
  mCounter := r.mCounter
  mFreeIds := if id ∈ r.mFreeIds then r.mFreeIds.erase id else r.mFreeIds
  mUsedIds := if id ∉ r.mUsedIds then insert id r.mUsedIds else r.mUsedIds

/-- `IdRegistry::unregister_id`. -/
def unregisterId (id : Int) : Registry where
  mCounter := r.mCounter
  mFreeIds := if id ∉ r.mFreeIds then insert id r.mFreeIds else r.mFreeIds
  mUsedIds := if id ∈ r.mUsedIds then r.mUsedIds.erase id else r.mUsedIds

/-- `++mCounter` until the id is not in use: the loop of `request_id` while no id is free. -/
def nextId (used : Finset Int) (counter : Int) : Except Undefined Int :=
  if counter < 2 ^ 63 - 1 then
    if counter + 1 ∈ used then nextId used (counter + 1) else .ok (counter + 1)
  else .error .overflow
termination_by (2 ^ 63 - 1 - counter).toNat

/-- `IdRegistry::request_id`.  `*mFreeIds.erase(mFreeIds.begin())` is the element behind the one
that is erased; the loop is not entered then, since that element is still in the set. -/
def requestId : Except Undefined (Int × Registry) :=
  match r.mFreeIds.min with
  | none => do
    let id ← nextId r.mUsedIds r.mCounter
    return (id, registerId { r with mCounter := id } id)
  | some first =>
    match (r.mFreeIds.erase first).min with
    | none => .error .endIterator
    | some id => .ok (id, registerId { r with mFreeIds := r.mFreeIds.erase first } id)

/-! ### Runs -/

inductive Op where
  | request
  | register (id : Int)
  | unregister (id : Int)
  deriving DecidableEq, Repr

/-- A registry and the ids that were registered in it at some time. -/
structure Observed where
  registry : Registry
  ever : Finset Int

/-- The registry after a call, with what has been registered by then. -/
def Observed.next (o : Observed) (r : Registry) : Observed := ⟨r, o.ever ∪ r.mUsedIds⟩

def step (o : Observed) : Op → Except Undefined (Observed × Option Int)
  | .request => do
    let (id, r) ← requestId o.registry
    return (o.next r, some id)
  | .register id => .ok (o.next (registerId o.registry id), none)
  | .unregister id => .ok (o.next (unregisterId o.registry id), none)

/-- The calls to a registry whose counter begins with `counter`. -/
def service (counter : Int) : Service Observed Op (Option Int) Undefined :=
  ⟨⟨create counter, ∅⟩, step⟩

/-- No id is both free and registered, and every id that ever was registered is one of the two. -/
structure Sound (o : Observed) : Prop where
  disjoint : Disjoint o.registry.mFreeIds o.registry.mUsedIds
  kept : o.ever ⊆ o.registry.mUsedIds ∪ o.registry.mFreeIds

/-- A call does what the registry promises: it is defined, a request returns an id that was not
registered and registers it, an id that is not registered is not taken back, and the registry stays
sound. -/
def StepRight (o : Observed) (a : Op) : Prop :=
  ∃ t answer, step o a = .ok (t, answer) ∧ Sound t ∧
    (a = .request → ∃ id, answer = some id ∧ id ∉ o.registry.mUsedIds ∧ id ∈ t.registry.mUsedIds) ∧
    ∀ id, a = .unregister id → id ∉ o.registry.mUsedIds → t.registry = o.registry

/-- The condition on the registry before a call. -/
def Meets (o : Observed) : Op → Prop
  | .request => o.registry.mFreeIds = ∅ ∧
      ∃ id, o.registry.mCounter < id ∧ id < 2 ^ 63 ∧ id ∉ o.registry.mUsedIds
  | .register _ => True
  | .unregister id => id ∈ o.registry.mUsedIds ∨ id ∈ o.registry.mFreeIds

/-! ### The two sets -/

theorem registerId_used (id : Int) : (registerId r id).mUsedIds = insert id r.mUsedIds := by
  by_cases h : id ∈ r.mUsedIds
  · exact (if_neg (not_not.mpr h)).trans (insert_eq_of_mem h).symm
  · exact if_pos h

theorem registerId_free (id : Int) : (registerId r id).mFreeIds = r.mFreeIds.erase id := by
  by_cases h : id ∈ r.mFreeIds
  · exact if_pos h
  · exact (if_neg h).trans (erase_eq_of_notMem h).symm

theorem unregisterId_used (id : Int) : (unregisterId r id).mUsedIds = r.mUsedIds.erase id := by
  by_cases h : id ∈ r.mUsedIds
  · exact if_pos h
  · exact (if_neg h).trans (erase_eq_of_notMem h).symm

theorem unregisterId_free (id : Int) : (unregisterId r id).mFreeIds = insert id r.mFreeIds := by
  by_cases h : id ∈ r.mFreeIds
  · exact (if_neg (not_not.mpr h)).trans (insert_eq_of_mem h).symm
  · exact if_pos h

end

variable {id : Int} {r : Registry} {o : Observed} {used : Finset Int}

/-- The loop over the counter ends at an id that is not in use, if there is one. -/
theorem nextId_ok {counter : Int} (h : nextId used counter = .ok id) :
    counter < id ∧ id < 2 ^ 63 ∧ id ∉ used := by
  rw [nextId] at h
  split at h
  case isTrue hroom =>
    split at h
    case isTrue hused =>
      obtain ⟨hlt, hmax, hfree⟩ := nextId_ok h
      exact ⟨by omega, hmax, hfree⟩
    case isFalse hfree =>
      cases h
      exact ⟨by omega, by omega, hfree⟩
  case isFalse => cases h
termination_by (2 ^ 63 - 1 - counter).toNat

theorem nextId_isOk {counter : Int} (hlt : counter < id) (hmax : id < 2 ^ 63) (hfree : id ∉ used) :
    ∃ id', nextId used counter = .ok id' := by
  rw [nextId, if_pos (by omega)]
  split
  case isTrue hused =>
    have hne : counter + 1 ≠ id := fun h => hfree (h ▸ hused)
    exact nextId_isOk (show counter + 1 < id by omega) hmax hfree
  case isFalse => exact ⟨_, rfl⟩
termination_by (2 ^ 63 - 1 - counter).toNat

theorem requestId_of_empty (h : r.mFreeIds = ∅) : requestId r = (nextId r.mUsedIds r.mCounter).map
      fun id => (id, registerId { r with mCounter := id } id) := by
  rw [requestId, h]
  cases nextId r.mUsedIds r.mCounter <;> rfl

/-- A request while ids are free: the first of them is erased, and the second returned; a single
one is erased and `end()` is dereferenced. -/
theorem requestId_of_nonempty (h : r.mFreeIds.Nonempty) :
    ∃ first ∈ r.mFreeIds, (r.mFreeIds.erase first = ∅ ∧ requestId r = .error .endIterator) ∨
      ∃ id ∈ r.mFreeIds.erase first,
        requestId r = .ok (id, registerId { r with mFreeIds := r.mFreeIds.erase first } id) := by
  obtain ⟨first, hfirst⟩ := min_of_nonempty h
  refine ⟨first, mem_of_min hfirst, ?_⟩
  rcases (r.mFreeIds.erase first).eq_empty_or_nonempty with hempty | hrest
  · refine .inl ⟨hempty, ?_⟩
    have hmin : (r.mFreeIds.erase first).min = none := by rw [hempty]; rfl
    rw [requestId, show r.mFreeIds.min = some first from hfirst]
    dsimp only
    rw [hmin]
  · obtain ⟨id, hid⟩ := min_of_nonempty hrest
    refine .inr ⟨id, mem_of_min hid, ?_⟩
    rw [requestId, show r.mFreeIds.min = some first from hfirst]
    dsimp only
    rw [show (r.mFreeIds.erase first).min = some id from hid]

/-! ### One call -/

/-- A sound registry in which every id was registered at some time. -/
structure Accounted (o : Observed) : Prop extends Sound o where
  used_ever : o.registry.mUsedIds ⊆ o.ever
  free_ever : o.registry.mFreeIds ⊆ o.ever

section

variable (h : Accounted o)
include h

theorem accounted_register (counter id : Int) :
    Accounted (o.next (registerId { o.registry with mCounter := counter } id)) := by
  refine ⟨⟨?_, ?_⟩, subset_union_right, ?_⟩
  · rw [Observed.next, registerId_used, registerId_free, disjoint_insert_right]
    exact ⟨notMem_erase id _, h.disjoint.mono_left (erase_subset id _)⟩
  · rw [Observed.next, registerId_used, registerId_free]
    refine union_subset (fun x hx => ?_) subset_union_left
    rcases eq_or_ne x id with rfl | hne
    · exact mem_union_left _ (mem_insert_self x _)
    · rcases mem_union.mp (h.kept hx) with hused | hfree
      · exact mem_union_left _ (mem_insert_of_mem hused)
      · exact mem_union_right _ (mem_erase.mpr ⟨hne, hfree⟩)
  · rw [Observed.next, registerId_free]
    exact ((erase_subset id _).trans h.free_ever).trans subset_union_left

theorem accounted_unregister (hid : id ∈ o.registry.mUsedIds ∨ id ∈ o.registry.mFreeIds) :
    Accounted (o.next (unregisterId o.registry id)) := by
  have hever : id ∈ o.ever := hid.elim (fun hu => h.used_ever hu) fun hf => h.free_ever hf
  refine ⟨⟨?_, ?_⟩, subset_union_right, ?_⟩
  · rw [Observed.next, unregisterId_used, unregisterId_free, disjoint_insert_left]
    exact ⟨notMem_erase id _, h.disjoint.mono_right (erase_subset id _)⟩
  · rw [Observed.next, unregisterId_used, unregisterId_free]
    refine union_subset (fun x hx => ?_) subset_union_left
    rcases eq_or_ne x id with rfl | hne
    · exact mem_union_right _ (mem_insert_self x _)
    · rcases mem_union.mp (h.kept hx) with hused | hfree
      · exact mem_union_left _ (mem_erase.mpr ⟨hne, hused⟩)
      · exact mem_union_right _ (mem_insert_of_mem hfree)
  · rw [Observed.next, unregisterId_free]
    exact (insert_subset hever h.free_ever).trans subset_union_left

omit h in
/-- An id that is free is taken back without a change. -/
theorem unregisterId_of_free (hused : id ∉ r.mUsedIds) (hfree : id ∈ r.mFreeIds) :
    unregisterId r id = r := by
  rw [unregisterId, if_neg (not_not.mpr hfree), if_neg hused]

/-- A request while an id is free is never right: the first free id is lost, or there is no second
one to return. -/
theorem not_right_of_free (hfree : o.registry.mFreeIds.Nonempty) : ¬ StepRight o .request := by
  rintro ⟨t, answer, hstep, hsound, -, -⟩
  obtain ⟨first, hfirst, ⟨-, hrequest⟩ | ⟨id, hid, hrequest⟩⟩ := requestId_of_nonempty hfree
  · rw [step, hrequest] at hstep
    cases hstep
  · rw [step, hrequest] at hstep
    cases hstep
    have hkept := hsound.kept (mem_union_left _ (h.free_ever hfirst))
    rw [Observed.next, registerId_used, registerId_free] at hkept
    rcases mem_union.mp hkept with hused | hleft
    · rcases mem_insert.mp hused with rfl | hused
      · exact notMem_erase _ _ hid
      · exact disjoint_left.mp h.disjoint hfirst hused
    · exact notMem_erase first _ (mem_of_mem_erase hleft)

theorem right_request_of_meets (hmeets : Meets o .request) : StepRight o .request := by
  obtain ⟨hempty, id, hlt, hmax, hfree⟩ := hmeets
  obtain ⟨id', hnext⟩ := nextId_isOk hlt hmax hfree
  obtain ⟨-, -, hfree'⟩ := nextId_ok hnext
  refine ⟨_, some id', by rw [step, requestId_of_empty hempty, hnext]; rfl,
    (accounted_register h id' id').toSound, fun _ => ⟨id', rfl, hfree', ?_⟩, by rintro _ ⟨⟩⟩
  rw [Observed.next, registerId_used]
  exact mem_insert_self id' _

theorem meets_of_right_request (hright : StepRight o .request) : Meets o .request := by
  rcases o.registry.mFreeIds.eq_empty_or_nonempty with hempty | hfree
  · obtain ⟨t, answer, hstep, -⟩ := hright
    rw [step, requestId_of_empty hempty] at hstep
    cases hnext : nextId o.registry.mUsedIds o.registry.mCounter with
    | error e =>
      rw [hnext] at hstep
      cases hstep
    | ok id => exact ⟨hempty, id, nextId_ok hnext⟩
  · exact absurd hright (not_right_of_free h hfree)

/-- **One call** is right exactly when the registry before it meets the condition. -/
theorem stepRight_iff (a : Op) : StepRight o a ↔ Meets o a := by
  cases a with
  | request => exact ⟨meets_of_right_request h, right_request_of_meets h⟩
  | register id =>
    refine ⟨fun _ => trivial, fun _ => ⟨_, none, rfl, ?_, by rintro ⟨⟩, by rintro _ ⟨⟩⟩⟩
    exact (accounted_register h o.registry.mCounter id).toSound
  | unregister id =>
    constructor
    · rintro ⟨t, answer, hstep, -, -, hsame⟩
      cases hstep
      by_contra hunknown
      obtain ⟨hused, hfree⟩ := not_or.mp hunknown
      have heq := congrArg Registry.mFreeIds (hsame id rfl hused)
      rw [Observed.next, unregisterId_free] at heq
      exact hfree (heq ▸ mem_insert_self id _)
    · intro hid
      refine ⟨_, none, rfl, (accounted_unregister h hid).toSound, by rintro ⟨⟩, ?_⟩
      rintro _ ⟨⟩ hused
      exact unregisterId_of_free hused (hid.resolve_left hused)

/-- A call that meets the condition keeps the registry accounted for. -/
theorem accounted_step {t : Observed} {a : Op} {answer : Option Int} (hmeets : Meets o a)
    (hstep : step o a = .ok (t, answer)) : Accounted t := by
  cases a with
  | request =>
    obtain ⟨hempty, -⟩ := hmeets
    rw [step, requestId_of_empty hempty] at hstep
    cases hnext : nextId o.registry.mUsedIds o.registry.mCounter with
    | error e =>
      rw [hnext] at hstep
      cases hstep
    | ok id =>
      rw [hnext] at hstep
      cases hstep
      exact accounted_register h id id
  | register id =>
    cases hstep
    exact accounted_register h o.registry.mCounter id
  | unregister id =>
    cases hstep
    exact accounted_unregister h hmeets

end

/-! ### Whole runs -/

theorem accounted_create (counter : Int) : Accounted ⟨create counter, ∅⟩ :=
  ⟨⟨disjoint_empty_left _, empty_subset _⟩, empty_subset _,
    empty_subset _⟩

/-- **Runs of a registry**: whatever the counter begins with, every call of a run is right exactly
when every call is made to a registry that meets the condition. -/
theorem registry_runs_iff (counter : Int) (calls : List Op) :
    (service counter).Guarded StepRight (service counter).init calls ↔
      (service counter).Guarded Meets (service counter).init calls :=
  Service.guarded_congr (fun _ a h => stepRight_iff h a)
    (fun _ _ _ _ h hmeets hstep => accounted_step h hmeets hstep) (accounted_create counter)

/-- Two ids are taken back and one is requested: the second is returned, and the first is neither
registered nor free.  With one id taken back the request dereferences `end()`, and an id that was
never registered becomes free. -/
theorem registry_loses_id : (∃ t, (service 0).run (service 0).init
        [.register 1, .register 2, .unregister 1, .unregister 2, .request] =
          .ok (t, [none, none, none, none, some 2]) ∧
        1 ∈ t.ever ∧ 1 ∉ t.registry.mUsedIds ∧ 1 ∉ t.registry.mFreeIds) ∧
      (service 0).run (service 0).init [.register 1, .unregister 1, .request] =
        .error .endIterator ∧
      ∃ t, (service 0).run (service 0).init [.unregister 7] = .ok (t, [none]) ∧
        t.registry.mFreeIds = {7} := by
  refine ⟨⟨_, rfl, ?_⟩, rfl, ⟨_, rfl, ?_⟩⟩
  · decide
  · decide

end CxxKit.IdRegistry
