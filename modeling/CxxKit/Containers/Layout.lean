import CxxKit.Containers.RawHashSet
import Mathlib.Data.List.Basic
import Mathlib.Data.Nat.Init

/-!
The two arrays of a table against each other.

`Table.WellFormed` is what may be said of a table without knowing how it came
about: the control bytes `0 .. mCapacity - 1` and the slots agree on which slots
hold an element, and the sentinel follows them.  Where the elements sit, which
bytes are tombstones and whether a control byte is the `H2` of its element is left
open.  The two loops that walk over a whole table, iteration and the loop of
`resize` over the old arrays, need no more than that: they see the elements in
slot order.
-/

namespace CxxKit.RawHashSet

open List

namespace Table

variable {κ ν β : Type} {t : Table β}

/-- The elements a table stores, in slot order. -/
def contents (t : Table β) : List β := t.mSlots.filterMap id

@[simp] theorem contents_unallocated : (unallocated : Table β).contents = [] := rfl

/-- A table as it may stand in memory. -/
structure WellFormed (t : Table β) : Prop where
  slots : t.mSlots.length = t.mCapacity
  size : t.mSize = t.contents.length
  byte : ∀ (i : Nat) (s : Option β), t.mSlots[i]? = some s →
    ∃ c, t.mCtrl[i]? = some c ∧ c ≠ .kSentinel ∧ isFull c = s.isSome
  last : t.mCapacity ≠ 0 → t.mCtrl.drop t.mCapacity = [.kSentinel]

/-- A byte that is neither full nor the sentinel is one that iteration skips. -/
theorem isEmptyOrDeleted_eq {c : Ctrl} (hc : c ≠ .kSentinel) : isEmptyOrDeleted c = !isFull c := by
  cases c with
  | kEmpty => rfl
  | kDeleted => rfl
  | kSentinel => exact absurd rfl hc
  | full h => simp

theorem drop_eq_cons {α : Type} {xs : List α} {i : Nat} {x : α} (h : xs[i]? = some x) :
    xs.drop i = x :: xs.drop (i + 1) := by
  obtain ⟨hlt, rfl⟩ := List.getElem?_eq_some_iff.mp h
  exact drop_eq_getElem_cons hlt

namespace WellFormed

theorem exists_slot (h : t.WellFormed) {i : Nat} (hi : i < t.mCapacity) :
    ∃ s, t.mSlots[i]? = some s :=
  ⟨_, getElem?_eq_getElem (by rw [h.slots]; exact hi)⟩

theorem slotAt_full {i : Nat} {v : β} (hv : t.mSlots[i]? = some (some v)) : t.slotAt i = .ok v := by
  simp [slotAt, hv]

section

variable (h : t.WellFormed) {i : Nat}

include h

theorem iterator_full {v : β} (hv : t.mSlots[i]? = some (some v)) : t.iterator i = .ok i := by
  obtain ⟨c, hc, hne, hfull⟩ := h.byte i _ hv
  rw [iterator, drop_eq_cons hc, skipEmptyOrDeleted, isEmptyOrDeleted_eq hne, hfull]
  rfl

theorem iterator_vacant (hv : t.mSlots[i]? = some none) : t.iterator i = t.iterator (i + 1) := by
  obtain ⟨c, hc, hne, hfull⟩ := h.byte i _ hv
  rw [iterator, drop_eq_cons hc, skipEmptyOrDeleted, isEmptyOrDeleted_eq hne, hfull]
  rfl

section

variable (hcap : t.mCapacity ≠ 0)
include hcap

/-- `end()` is the index of the sentinel byte. -/
theorem sentinel_eq : t.sentinel = .ok t.mCapacity := by
  rw [sentinel, iterator, h.last hcap]
  rfl

/-- Wherever skipping starts, it stops at a full slot or at the sentinel. -/
theorem iterator_ok (hi : i ≤ t.mCapacity) :
    ∃ j, t.iterator i = .ok j ∧ i ≤ j ∧ j ≤ t.mCapacity := by
  induction hi using Nat.decreasingInduction with
  | self => exact ⟨_, h.sentinel_eq hcap, Nat.le_refl _, Nat.le_refl _⟩
  | of_succ i hi ih =>
    obtain ⟨s, hs⟩ := h.exists_slot hi
    cases s with
    | some v => exact ⟨i, h.iterator_full hs, Nat.le_refl _, Nat.le_of_lt hi⟩
    | none =>
      obtain ⟨j, hj, hle, hcap⟩ := ih
      exact ⟨j, (h.iterator_vacant hs).trans hj, by omega, hcap⟩

/-- Iterating from slot `i` on sees the elements from slot `i` on. -/
theorem iterate_from (hi : i ≤ t.mCapacity) (fuel : Nat) (hfuel : t.mCapacity - i < fuel) :
    t.iterator i >>= t.iterate fuel = .ok ((t.mSlots.drop i).filterMap id) := by
  induction hi using Nat.decreasingInduction generalizing fuel with
  | self =>
    obtain ⟨fuel, rfl⟩ := Nat.exists_eq_add_of_lt hfuel
    have hend := h.sentinel_eq hcap
    have hiter : t.iterator t.mCapacity = .ok t.mCapacity := hend
    have hdrop : t.mSlots.drop t.mCapacity = [] := by
      rw [← h.slots]
      exact drop_length
    simp [hiter, hdrop, hend, iterate]
  | of_succ i hi ih =>
    obtain ⟨s, hs⟩ := h.exists_slot hi
    rw [drop_eq_cons hs]
    cases s with
    | none =>
      rw [h.iterator_vacant hs]
      exact ih fuel (by omega)
    | some v =>
      obtain ⟨fuel, rfl⟩ : ∃ m, fuel = m + 1 := ⟨fuel - 1, by omega⟩
      have hrest := ih fuel (by omega)
      have hne : (i == t.mCapacity) = false := by simpa using Nat.ne_of_lt hi
      rw [h.iterator_full hs, ok_bind, iterate, h.sentinel_eq hcap]
      simp only [hne, slotAt_full hs, Bool.false_eq_true, if_false, ok_bind, pure_eq_ok]
      cases hit : t.iterator (i + 1) with
      | error e => simp [hit] at hrest
      | ok it =>
        rw [hit, ok_bind] at hrest
        rw [ok_bind, hrest]
        rfl

/-- Iteration sees the elements in slot order and stops at the sentinel. -/
theorem elements_eq : t.elements = .ok t.contents :=
  h.iterate_from hcap (Nat.zero_le _) (t.mCapacity + 1) (Nat.lt_succ_self _)

end

/-- The loop of `resize` over the old arrays is a fold over the old elements. -/
theorem resizeWith_eq (P : Policy κ ν β)
    (prepare : Table β → κ → Except Fault (Table β × Nat × Bool)) (newCap : Nat) :
    resizeWith P prepare t newCap =
      t.contents.foldlM (uncheckedInsertWith P prepare) (fresh newCap) := by
  have hloop : ∀ (n i : Nat) (acc : Table β), i + n = t.mCapacity →
      (range' i n).foldlM (fun acc i => do
          let c ← t.readCtrl i
          if isFull c then uncheckedInsertWith P prepare acc (← t.slotAt i)
          else pure acc) acc =
        ((t.mSlots.drop i).filterMap id).foldlM (uncheckedInsertWith P prepare) acc := by
    intro n
    induction n with
    | zero =>
      intro i acc hi
      rw [drop_eq_nil_of_le (by rw [h.slots]; omega)]
      rfl
    | succ n ih =>
      intro i acc hi
      obtain ⟨s, hs⟩ := h.exists_slot (show i < t.mCapacity by omega)
      obtain ⟨c, hc, -, hfull⟩ := h.byte i s hs
      have hread : t.readCtrl i = .ok c := by simp [readCtrl, hc]
      have hrest := fun acc => ih (i + 1) acc (by omega)
      rw [range'_succ, foldlM_cons, hread, drop_eq_cons hs]
      cases s with
      | none =>
        simp only [hfull, Option.isSome_none, Bool.false_eq_true, if_false, ok_bind,
          pure_eq_ok] at hrest ⊢
        exact hrest acc
      | some v =>
        simp only [hfull, Option.isSome_some, if_true, slotAt_full hs, filterMap_cons, id,
          foldlM_cons, ok_bind] at hrest ⊢
        cases uncheckedInsertWith P prepare acc v with
        | error e => rfl
        | ok u => exact hrest u
  have := hloop t.mCapacity 0 (fresh newCap) (Nat.zero_add _)
  rw [resizeWith, range_eq_range']
  exact this

end

end WellFormed

end Table

end CxxKit.RawHashSet
