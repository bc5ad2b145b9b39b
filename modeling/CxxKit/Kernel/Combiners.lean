import CxxKit.Kernel.Signals
import Mathlib.Data.List.Basic
import Mathlib.Data.Nat.Basic

/-!
Signals whose slots return results (`kernel/signals.hpp`, `SignalBaseR`).

An emission hands a combiner a range of iterators over a snapshot of the slots.  An iterator
skips slots that are not connected or are blocked when it is made and whenever it is
advanced, and calls a slot when it is dereferenced; all iterators of an emission share one
cache.  What a slot does when it is called is any function of the world, which holds the
signals and slots and whatever else the slots read.

`calls` records the calls an emission has made and their results.
-/

namespace CxxKit.Signals

open List Option Prod

/-- `slot_result_cache`. -/
structure SlotResultCache (R : Type*) where
  slotId : Option Nat
  value : Option R

/-- What an emission has got to. -/
structure Emitting (σ R : Type*) where
  world : σ
  cache : SlotResultCache R
  calls : List (Nat × R)

/-- A combiner gets the slots from its first iterator to its last one. -/
abbrev Combiner (σ R : Type*) := List Nat → Emitting σ R → Option (Option R × Emitting σ R)

variable {σ R : Type*} (signals : σ → State) (call : Nat → σ → R × σ)

/-- Connected and not blocked; the snapshot keeps its slots alive. -/
def callable (w : σ) (x : Nat) : Bool :=
  ((signals w).slots x).any fun slot => slot.mConnected && !slot.mBlocked

/-! ### `slot_call_iterator` -/

namespace SlotCallIterator

/-- Iterators are given by the slots from their position to the last. -/
def normalize (w : σ) : List Nat → List Nat
  | [] => []
  | x :: rest => if callable signals w x then x :: rest else normalize w rest

def cached (x : Nat) (cache : SlotResultCache R) : Bool :=
  cache.slotId == some x && cache.value.isSome

/-- `operator*`; at the end the check fails. -/
def deref (it : List Nat) (e : Emitting σ R) : Option (R × Emitting σ R) :=
  match it with
  | [] => none
  | x :: _ =>
    let e :=
      if cached x e.cache then e
      else
        let (r, w) := call x e.world
        ⟨w, ⟨some x, some r⟩, e.calls ++ [(x, r)]⟩
    e.cache.value.map fun r => (r, e)

/-- `operator++`; at the end the check fails. -/
def increment (it : List Nat) (e : Emitting σ R) : Option (List Nat × Emitting σ R) :=
  match it with
  | [] => none
  | _ :: rest => some (normalize signals e.world rest, { e with cache := ⟨none, none⟩ })

variable {signals}

theorem length_normalize_le (w : σ) (it : List Nat) :
    (normalize signals w it).length ≤ it.length := by
  induction it with
  | nil => exact Nat.le_refl 0
  | cons x rest ih =>
    unfold normalize
    split
    · exact Nat.le_refl _
    · exact Nat.le_succ_of_le ih

/-- Every round of a combiner's loop leaves fewer slots. -/
theorem increment_lt {it next : List Nat} {e e' : Emitting σ R}
    (h : increment signals it e = some (next, e')) : next.length < it.length := by
  cases it with
  | nil => cases h
  | cons x rest =>
    cases h
    exact Nat.lt_succ_of_le (length_normalize_le ..)

end SlotCallIterator

/-! ### Combiners -/

open SlotCallIterator

/-- The loop the combiners have in common: `put` takes a result into the value so far. -/
def combine (put : Option R → R → Option R) (first : List Nat) (e : Emitting σ R)
    (value : Option R) : Option (Option R × Emitting σ R) :=
  if first = [] then some (value, e)
  else
    match deref call first e with
    | none => none
    | some (r, e) =>
      match h : increment signals first e with
      | none => none
      | some (next, e) =>
        have : next.length < first.length := increment_lt h
        combine put next e (put value r)
termination_by first.length

/-- `optional_last_value`. -/
def optionalLastValue : Combiner σ R :=
  fun first e => combine signals call (fun _ r => some r) first e none

/-- The body of the loop of `maximum`. -/
def putMaximum [LT R] [DecidableLT R] (maxValue : Option R) (value : R) : Option R :=
  match maxValue with
  | none => some value
  | some m => if m < value then some value else some m

def maximum [LT R] [DecidableLT R] : Combiner σ R :=
  fun first e => combine signals call putMaximum first e none

/-! ### Emission -/

def combinerRange (comb : Combiner σ R) (slotPtrs : List Nat) (w : σ) :
    Option (Option R × Emitting σ R) :=
  comb (SlotCallIterator.normalize signals w slotPtrs) ⟨w, ⟨none, none⟩, []⟩

/-- `SignalBaseR::operator()`. -/
def emitResult (comb : Combiner σ R) (sig : Nat) (w : σ) : Option (Option R × Emitting σ R) :=
  match (signals w).signals sig with
  | none => none
  | some d =>
    if d.mBlock then combinerRange signals comb [] w
    else combinerRange signals comb (allSlots d.mSlots) w

/-- The slots an emission goes over. -/
def Signal.snapshot (d : Signal) : List Nat := if d.mBlock then [] else allSlots d.mSlots

/-! ### What the calls are -/

/-- The slots of a snapshot, each with the world in which an emission arrives at it if every
slot that is callable on arrival is called. -/
def arrivals : List Nat → σ → List (Nat × σ)
  | [], _ => []
  | x :: rest, w => (x, w) :: arrivals rest (if callable signals w x then (call x w).2 else w)

/-- The call made on an arrival, if any. -/
def callOn (arrival : Nat × σ) : Option (Nat × R) :=
  if callable signals arrival.2 arrival.1 then
    some (arrival.1, (call arrival.1 arrival.2).1)
  else none

def callsOf (snapshot : List Nat) (w : σ) : List (Nat × R) :=
  (arrivals signals call snapshot w).filterMap (callOn signals call)

/-- The world after the last slot. -/
def worldAfter : List Nat → σ → σ
  | [], w => w
  | x :: rest, w => worldAfter rest (if callable signals w x then (call x w).2 else w)

variable {signals call}

variable (snapshot : List Nat)

theorem arrivals_slots (w : σ) : (arrivals signals call snapshot w).map fst = snapshot := by
  induction snapshot generalizing w with
  | nil => rfl
  | cons x rest ih => exact congrArg (x :: ·) (ih _)

/-- Each slot is called at most once, in the order of the snapshot. -/
theorem callsOf_sublist (w : σ) :
    ((callsOf signals call snapshot w).map fst).Sublist snapshot := by
  induction snapshot generalizing w with
  | nil => exact .slnil
  | cons x rest ih =>
    unfold callsOf arrivals
    rw [filterMap_cons]
    split
    · exact (ih _).cons x
    next r hcall =>
      unfold callOn at hcall
      split at hcall <;> cases hcall
      exact (ih _).cons_cons x

section Called

variable {x : Nat} {rest : List Nat} {w : σ}

theorem callsOf_called (h : callable signals w x = true) : callsOf signals call (x :: rest) w =
      (x, (call x w).1) :: callsOf signals call rest (call x w).2 := by
  simp [callsOf, arrivals, callOn, h]

theorem callsOf_skipped (h : callable signals w x = false) :
    callsOf signals call (x :: rest) w = callsOf signals call rest w := by
  simp [callsOf, arrivals, callOn, h]

/-- A round of the loop at a slot nobody has called yet: the slot is called once, and the
iterator goes on in the world the call leaves. -/
theorem combine_cons (put : Option R → R → Option R) (calls : List (Nat × R)) (value : Option R) :
    combine signals call put (x :: rest) ⟨w, ⟨none, none⟩, calls⟩ value =
      combine signals call put (SlotCallIterator.normalize signals (call x w).2 rest)
        ⟨(call x w).2, ⟨none, none⟩, calls ++ [(x, (call x w).1)]⟩ (put value (call x w).1) := by
  rw [combine]
  rfl

end Called

/-- **The loop of a combiner** ends, and takes in the results of the calls in order. -/
theorem combine_eq (put : Option R → R → Option R) (snapshot : List Nat) (w : σ)
    (calls : List (Nat × R)) (value : Option R) :
    combine signals call put (SlotCallIterator.normalize signals w snapshot)
        ⟨w, ⟨none, none⟩, calls⟩ value =
      some (((callsOf signals call snapshot w).map snd).foldl put value,
        ⟨worldAfter signals call snapshot w, ⟨none, none⟩,
          calls ++ callsOf signals call snapshot w⟩) := by
  induction snapshot generalizing w calls value with
  | nil =>
    rw [combine]
    simp [SlotCallIterator.normalize, callsOf, arrivals, worldAfter]
  | cons x rest ih =>
    cases h : callable signals w x with
    | true =>
      rw [SlotCallIterator.normalize, if_pos h, combine_cons, ih, callsOf_called h, worldAfter,
        if_pos h]
      simp
    | false =>
      have hskip : ¬ callable signals w x = true := by simp [h]
      rw [SlotCallIterator.normalize, if_neg hskip, ih, callsOf_skipped h, worldAfter, if_neg hskip]

/-! ### The two combiners -/

theorem foldl_last (value : Option R) (results : List R) :
    results.foldl (fun _ r => some r) value = results.getLast?.or value := by
  induction results generalizing value with
  | nil => rfl
  | cons r results ih =>
    rw [foldl_cons, ih]
    cases results with
    | nil => rfl
    | cons r' results =>
      rfl

/-- The value is one of the results and no other is greater; without results there is none. -/
def IsMaximum [LT R] (value : Option R) (results : List R) : Prop :=
  match value with
  | none => results = []
  | some m => m ∈ results ∧ ∀ r ∈ results, ¬ m < r

variable {value : Option R}

theorem IsMaximum.put [Preorder R] [DecidableLT R] {results : List R} (h : IsMaximum value results)
    (r : R) : IsMaximum (putMaximum value r) (results ++ [r]) := by
  cases value with
  | none =>
    obtain rfl : results = [] := h
    refine ⟨mem_singleton_self r, fun r' hr' => ?_⟩
    rw [mem_singleton.mp hr']
    exact lt_irrefl r
  | some m =>
    obtain ⟨hmem, hmax⟩ := h
    unfold putMaximum
    dsimp only
    split
    next hlt =>
      refine ⟨mem_append_right _ (mem_singleton_self r), fun r' hr' => ?_⟩
      rcases mem_append.mp hr' with hold | hnew
      · exact fun hless => hmax r' hold (lt_trans hlt hless)
      · rw [mem_singleton.mp hnew]
        exact lt_irrefl r
    next hnot =>
      refine ⟨mem_append_left _ hmem, fun r' hr' => ?_⟩
      rcases mem_append.mp hr' with hold | hnew
      · exact hmax r' hold
      · rw [mem_singleton.mp hnew]
        exact hnot

theorem foldl_maximum [Preorder R] [DecidableLT R] {seen : List R} (h : IsMaximum value seen)
    (results : List R) : IsMaximum (results.foldl putMaximum value) (seen ++ results) := by
  induction results generalizing value seen with
  | nil => rwa [append_nil]
  | cons r results ih =>
    have hput := ih (h.put r)
    rwa [append_assoc] at hput

theorem emitResult_eq {sig : Nat} {w : σ} {d : Signal} (hd : (signals w).signals sig = some d)
    (comb : Combiner σ R) :
    emitResult signals comb sig w = combinerRange signals comb d.snapshot w := by
  unfold emitResult Signal.snapshot
  rw [hd]
  dsimp only
  split <;> rfl

variable (signals call)

/-- **An emission with results.** Under both combiners the slots of the snapshot that are
connected and not blocked on arrival are called, each once and in order, and no others.
`optional_last_value` returns the last result, `maximum` one than which none is greater. -/
theorem emission_combines_results [Preorder R] [DecidableLT R] {sig : Nat} {w : σ} {d : Signal}
    (hd : (signals w).signals sig = some d) :
    let calls := callsOf signals call d.snapshot w
    (arrivals signals call d.snapshot w).map fst = d.snapshot ∧
      (calls.map fst).Sublist d.snapshot ∧
      (∃ e, emitResult signals (optionalLastValue signals call) sig w =
          some ((calls.map snd).getLast?, e) ∧
        e.calls = calls ∧ e.world = worldAfter signals call d.snapshot w) ∧
      ∃ value e, emitResult signals (maximum signals call) sig w = some (value, e) ∧
        e.calls = calls ∧ e.world = worldAfter signals call d.snapshot w ∧
        IsMaximum value (calls.map snd) := by
  intro calls
  let ended : Emitting σ R := ⟨worldAfter signals call d.snapshot w, ⟨none, none⟩, calls⟩
  have hstart : IsMaximum (none : Option R) [] := rfl
  refine ⟨arrivals_slots .., callsOf_sublist .., ⟨ended, ?_, rfl, rfl⟩,
    _, ended, ?_, rfl, rfl, foldl_maximum hstart (calls.map snd)⟩
  · rw [emitResult_eq hd, combinerRange, optionalLastValue, combine_eq, foldl_last, or_none]
    rfl
  · rw [emitResult_eq hd, combinerRange, maximum, combine_eq]
    rfl

/-- Three slots of one group. -/
def threeSlots : State :=
  (machine.run .init [.newSignal, .connect 0 0 ⟨none, 0, false⟩ none false,
    .connect 0 0 ⟨none, 0, false⟩ none false, .connect 0 0 ⟨none, 0, false⟩ none false]).getD .init

/-- A slot that blocks the next one and returns how many are to come after that. -/
def blockNext (x : Nat) (w : State) : Nat × State := (1 - x, (w.setBlocked (x + 1) true).getD w)

theorem emission_combines_blocking : callsOf id blockNext [0, 1, 2] threeSlots = [(0, 1), (2, 0)] ∧
      ∃ value e, emitResult id (maximum id blockNext) 0 threeSlots = some (value, e) ∧
        e.calls = [(0, 1), (2, 0)] ∧ IsMaximum value [1, 0] := by
  have hsignal : id threeSlots.signals 0 = some ⟨[⟨0, [0, 1, 2]⟩], false⟩ := rfl
  obtain ⟨-, -, -, value, e, hrun, hcalls, -, hmax⟩ :=
    emission_combines_results id blockNext hsignal
  exact ⟨rfl, value, e, hrun, hcalls, hmax⟩

end CxxKit.Signals
