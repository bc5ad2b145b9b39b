import Mathlib.Data.Fintype.Card
import Mathlib.Logic.Function.Basic

/-!
Reference-counted blocks and a finite family of pointers into them.

A block carries the number of pointers that share it and is freed when the last of
them lets go.  Every change of pointers is a `rebind`: one block is retained, one
is released and the pointers are replaced.  If the two balance the pointers, the
counts stay exact and every pointer reads the block it names (`Exact.rebind`,
`Exact.value?_rebind`); a block with one reference can be changed in place without
any other pointer noticing (`Exact.value?_modify`).
-/

namespace Counted

open Finset Function Option

/-- A block and the number of references to it. -/
structure Cell (β : Type*) where
  count : Nat
  value : β

structure Heap (ι β : Type*) where
  cells : Nat → Option (Cell β)
  next : Nat
  ptr : ι → Option Nat

variable {ι β : Type*}

namespace Heap

/-- What is stored at an address. -/
def valueAt (h : Heap ι β) (a : Nat) : Option β :=
  (h.cells a).map Cell.value

/-- What a pointer reads. -/
def value? (h : Heap ι β) (i : ι) : Option β :=
  (h.ptr i).bind h.valueAt

def hasOneRef (h : Heap ι β) (i : ι) : Bool :=
  ((h.ptr i).bind h.cells).any fun c => c.count == 1

def put (a : Nat) (c : Option (Cell β)) (h : Heap ι β) : Heap ι β :=
  { h with cells := update h.cells a c }

@[simp] theorem put_cells_self (a : Nat) (c : Option (Cell β)) (h : Heap ι β) :
    (h.put a c).cells a = c :=
  update_self ..

theorem put_cells_ne {a b : Nat} (hne : b ≠ a) (c : Option (Cell β)) (h : Heap ι β) :
    (h.put a c).cells b = h.cells b :=
  update_of_ne hne ..

def retain (p : Option Nat) (h : Heap ι β) : Heap ι β :=
  match p with
  | none => h
  | some a => h.put a ((h.cells a).map fun c => { c with count := c.count + 1 })

/-- The last release frees the block. -/
def release (p : Option Nat) (h : Heap ι β) : Heap ι β :=
  match p with
  | none => h
  | some a =>
    h.put a ((h.cells a).bind fun c =>
      if c.count = 1 then none else some { c with count := c.count - 1 })

/-- Retain `p`, release `q`, and let the pointers be `ptr`. -/
def rebind (p q : Option Nat) (ptr : ι → Option Nat) (h : Heap ι β) : Heap ι β :=
  { (h.retain p).release q with ptr := ptr }

/-- A new block that nothing refers to yet. -/
def create (b : β) (h : Heap ι β) : Heap ι β :=
  { h with cells := update h.cells h.next (some ⟨0, b⟩), next := h.next + 1 }

variable [DecidableEq ι]

def assign (i : ι) (p : Option Nat) (h : Heap ι β) : Heap ι β :=
  h.rebind p (h.ptr i) (update h.ptr i p)

/-- Point `i` at a new block. -/
def adopt (i : ι) (b : β) (h : Heap ι β) : Heap ι β :=
  (h.create b).assign i (some h.next)

/-- Hand the reference of `j` over to `i`. -/
def transfer (i j : ι) (h : Heap ι β) : Heap ι β :=
  h.rebind none (update h.ptr j none i)
    (update (update h.ptr j none) i (h.ptr j))

def swap (i j : ι) (h : Heap ι β) : Heap ι β :=
  h.rebind none none (update (update h.ptr i (h.ptr j)) j (h.ptr i))

omit [DecidableEq ι] in
/-- Change the block `i` refers to in place. -/
def modify (i : ι) (f : β → β) (h : Heap ι β) : Heap ι β :=
  match h.ptr i with
  | none => h
  | some a => h.put a ((h.cells a).map fun c => { c with value := f c.value })

end Heap

/-! ### Counting the pointers to a block -/

section Holders

variable [Fintype ι]

/-- The pointers to the block at `a`. -/
def holders (ptr : ι → Option Nat) (a : Nat) : Finset ι :=
  univ.filter fun i => ptr i = some a

@[simp] theorem mem_holders {ptr : ι → Option Nat} {a : Nat} {i : ι} :
    i ∈ holders ptr a ↔ ptr i = some a := by
  simp [holders]

variable [DecidableEq ι] (ptr : ι → Option Nat) (a : Nat) (i j : ι)

theorem card_holders_update (p : Option Nat) :
    (holders (update ptr i p) a).card + (if ptr i = some a then 1 else 0) =
      (holders ptr a).card + (if p = some a then 1 else 0) := by
  have hself (f : ι → Option Nat) :
      (holders f a).card = ((holders f a).erase i).card + (if f i = some a then 1 else 0) := by
    split
    next h => exact (card_erase_add_one (mem_holders.mpr h)).symm
    next h => rw [erase_eq_of_notMem (mt mem_holders.mp h), Nat.add_zero]
  have hrest : (holders (update ptr i p) a).erase i = (holders ptr a).erase i := by
    ext j
    simp only [mem_erase, mem_holders]
    refine and_congr_right fun hj => ?_
    rw [update_of_ne hj]
  rw [hself (update ptr i p), hself ptr, hrest, update_self]
  omega

theorem card_holders_transfer : (holders (update (update ptr j none) i (ptr j)) a).card +
        (if update ptr j none i = some a then 1 else 0) = (holders ptr a).card := by
  have hinner := card_holders_update ptr a j none
  have houter := card_holders_update (update ptr j none) a i (ptr j)
  rw [if_neg (show ¬ none = some a by nofun)] at hinner
  omega

theorem card_holders_swap : (holders (update (update ptr i (ptr j)) j (ptr i)) a).card =
      (holders ptr a).card := by
  have hinner := card_holders_update ptr a i (ptr j)
  have houter := card_holders_update (update ptr i (ptr j)) a j (ptr i)
  have hj : update ptr i (ptr j) j = ptr j := by
    by_cases h : j = i
    · rw [h, update_self]
    · rw [update_of_ne h]
  rw [hj] at houter
  omega

end Holders

/-! ### Exact counts -/

section Exact

variable [Fintype ι]

/-- Every count is the number of pointers, and every pointer names a block. -/
structure Exact (h : Heap ι β) : Prop where
  counted : ∀ a c, h.cells a = some c → c.count = (holders h.ptr a).card
  placed : ∀ i a, h.ptr i = some a → ∃ c, h.cells a = some c
  fresh : ∀ a, h.next ≤ a → h.cells a = none

variable {h : Heap ι β} {p q : Option Nat} {ptr : ι → Option Nat} {a : Nat} {i j : ι} {c : Cell β}

omit [Fintype ι] in
theorem rebind_cells_none (ha : h.cells a = none) : (h.rebind p q ptr).cells a = none := by
  have hretain : (h.retain p).cells a = none := by
    cases p with
    | none => exact ha
    | some b =>
      by_cases hb : a = b
      · simp [Heap.retain, ← hb, ha]
      · rw [Heap.retain, Heap.put_cells_ne hb, ha]
  show ((h.retain p).release q).cells a = none
  cases q with
  | none => exact hretain
  | some b =>
    by_cases hb : a = b
    · simp [Heap.release, ← hb, hretain]
    · rw [Heap.release, Heap.put_cells_ne hb, hretain]

omit [Fintype ι] in
theorem retain_cells (hc : h.cells a = some c) :
    (h.retain p).cells a = some ⟨c.count + (if p = some a then 1 else 0), c.value⟩ := by
  cases p with
  | none => exact hc
  | some b =>
    by_cases hb : a = b
    · simp [Heap.retain, ← hb, hc]
    · have hne : ¬ some b = some a := fun heq => hb (some.inj heq).symm
      rw [Heap.retain, Heap.put_cells_ne hb, hc, if_neg hne, Nat.add_zero]

omit [Fintype ι] in
theorem release_cells (hc : h.cells a = some c) : (h.release q).cells a =
      if q = some a then (if c.count = 1 then none else some ⟨c.count - 1, c.value⟩)
      else some c := by
  cases q with
  | none => exact hc
  | some b =>
    by_cases hb : a = b
    · simp [Heap.release, ← hb, hc]
    · have hne : ¬ some b = some a := fun heq => hb (some.inj heq).symm
      rw [Heap.release, Heap.put_cells_ne hb, hc, if_neg hne]

namespace Exact

/-- `ptr` has one pointer more to `p` and one fewer to `q`. -/
def Balanced (h : Heap ι β) (p q : Option Nat) (ptr : ι → Option Nat) : Prop :=
  ∀ a, (holders ptr a).card + (if q = some a then 1 else 0) =
    (holders h.ptr a).card + (if p = some a then 1 else 0)

section

variable (hx : Exact h)
include hx

section

variable (hbal : Balanced h p q ptr)
include hbal

/-- A block stays, with its value, as long as something refers to it. -/
theorem rebind_cells (hc : h.cells a = some c) : (h.rebind p q ptr).cells a =
      if q = some a ∧ (holders ptr a).card = 0 then none
      else some ⟨(holders ptr a).card, c.value⟩ := by
  have hcount := hx.counted a c hc
  have ha := hbal a
  have hrelease := release_cells (q := q) (retain_cells (p := p) hc)
  show ((h.retain p).release q).cells a = _
  rw [hrelease, hcount, ← ha]
  by_cases hq : q = some a
  · rw [if_pos hq, if_pos hq]
    dsimp only
    by_cases hzero : (holders ptr a).card = 0
    · rw [if_pos (by omega), if_pos ⟨hq, hzero⟩]
    · have hnot : ¬ (q = some a ∧ (holders ptr a).card = 0) := fun hboth => hzero hboth.2
      rw [if_neg (by omega), if_neg hnot, Nat.add_sub_cancel]
  · have hnot : ¬ (q = some a ∧ (holders ptr a).card = 0) := fun hboth => hq hboth.1
    rw [if_neg hq, if_neg hq, if_neg hnot, Nat.add_zero]

theorem rebind_cells_held (hc : h.cells a = some c) (hheld : ptr i = some a) :
    (h.rebind p q ptr).cells a = some ⟨(holders ptr a).card, c.value⟩ := by
  have hpos : 0 < (holders ptr a).card := card_pos.mpr ⟨i, mem_holders.mpr hheld⟩
  rw [hx.rebind_cells hbal hc, if_neg (fun hboth => by omega)]

theorem rebind (hplaced : ∀ i a, ptr i = some a → ∃ c, h.cells a = some c) :
    Exact (h.rebind p q ptr) where
  counted a c' hc' := by
    cases hc : h.cells a with
    | none =>
      rw [rebind_cells_none hc] at hc'
      cases hc'
    | some c =>
      rw [hx.rebind_cells hbal hc] at hc'
      split at hc'
      · cases hc'
      · cases hc'
        rfl
  placed i a hi := by
    obtain ⟨c, hc⟩ := hplaced i a hi
    exact ⟨_, hx.rebind_cells_held hbal hc hi⟩
  fresh a ha := by
    refine rebind_cells_none (hx.fresh a ?_)
    cases p <;> cases q <;> exact ha

/-- After a change of pointers each of them reads the block it now names. -/
theorem value?_rebind (i : ι) : (h.rebind p q ptr).value? i = (ptr i).bind h.valueAt := by
  show (ptr i).bind (h.rebind p q ptr).valueAt = _
  cases hi : ptr i with
  | none => rfl
  | some a =>
    show ((h.rebind p q ptr).cells a).map Cell.value = (h.cells a).map Cell.value
    cases hc : h.cells a with
    | none => rw [rebind_cells_none hc]
    | some c => rw [hx.rebind_cells_held hbal hc hi]; rfl

end

theorem create (b : β) : Exact (h.create b) where
  counted a c hc := by
    by_cases ha : a = h.next
    · subst ha
      obtain rfl : (⟨0, b⟩ : Cell β) = c := by simpa [Heap.create] using hc
      -- nothing can refer to an address that was free
      refine (card_eq_zero.mpr (eq_empty_of_forall_notMem fun i hi => ?_)).symm
      obtain ⟨c, hc⟩ := hx.placed i h.next (mem_holders.mp hi)
      rw [hx.fresh h.next (Nat.le_refl _)] at hc
      cases hc
    · refine hx.counted a c ?_
      simpa [Heap.create, update_of_ne ha] using hc
  placed i a hi := by
    by_cases ha : a = h.next
    · exact ⟨_, by rw [ha]; exact update_self ..⟩
    · obtain ⟨c, hc⟩ := hx.placed i a hi
      exact ⟨c, by simpa [Heap.create, update_of_ne ha] using hc⟩
  fresh a ha := by
    have hne : a ≠ h.next := by
      have : h.next + 1 ≤ a := ha
      omega
    have hle : h.next ≤ a := Nat.le_of_succ_le ha
    simpa [Heap.create, update_of_ne hne] using hx.fresh a hle

theorem ptr_ne_next (i : ι) : h.ptr i ≠ some h.next := by
  intro hi
  obtain ⟨c, hc⟩ := hx.placed i h.next hi
  rw [hx.fresh h.next (Nat.le_refl _)] at hc
  cases hc

end

omit [Fintype ι] in
theorem valueAt_create_ne (b : β) (ha : a ≠ h.next) : (h.create b).valueAt a = h.valueAt a := by
  simp [Heap.valueAt, Heap.create, update_of_ne ha]

theorem value?_eq_some (hx : Exact h) (hi : h.ptr i = some a) :
    ∃ b, h.valueAt a = some b ∧ h.value? i = some b := by
  obtain ⟨c, hc⟩ := hx.placed i a hi
  have hvalue : h.valueAt a = some c.value := by rw [Heap.valueAt, hc]; rfl
  exact ⟨c.value, hvalue, by rw [Heap.value?, hi]; exact hvalue⟩

theorem value?_eq_none (hx : Exact h) : h.value? i = none ↔ h.ptr i = none := by
  constructor
  · intro hnone
    cases hi : h.ptr i with
    | none => rfl
    | some a =>
      obtain ⟨b, _, hb⟩ := hx.value?_eq_some hi
      rw [hb] at hnone
      cases hnone
  · intro hi
    rw [Heap.value?, hi]
    rfl

variable [DecidableEq ι]

omit [Fintype ι] in
theorem bind_update (f : Nat → Option β) : (update h.ptr i p j).bind f =
      update (fun j => (h.ptr j).bind f) i (p.bind f) j := by
  by_cases hj : j = i
  · subst hj
    rw [update_self, update_self]
  · rw [update_of_ne hj, update_of_ne hj]

theorem balanced_assign (h : Heap ι β) (i : ι) (p : Option Nat) :
    Balanced h p (h.ptr i) (update h.ptr i p) :=
  fun a => card_holders_update h.ptr a i p

section

variable (hx : Exact h)

include hx

theorem assign (i : ι) (hp : ∀ a, p = some a → ∃ c, h.cells a = some c) : Exact (h.assign i p) := by
  refine hx.rebind (balanced_assign h i p) fun j a hj => ?_
  by_cases hji : j = i
  · rw [hji, update_self] at hj
    exact hp a hj
  · rw [update_of_ne hji] at hj
    exact hx.placed j a hj

theorem value?_assign (i : ι) (p : Option Nat) :
    (h.assign i p).value? = update h.value? i (p.bind h.valueAt) := by
  funext j
  exact (hx.value?_rebind (balanced_assign h i p) j).trans (bind_update h.valueAt)

theorem adopt (i : ι) (b : β) : Exact (h.adopt i b) := by
  refine (hx.create b).assign i fun a ha => ?_
  cases ha
  exact ⟨_, update_self ..⟩

theorem value?_adopt (i : ι) (b : β) : (h.adopt i b).value? = update h.value? i (some b) := by
  have hold : (h.create b).value? = h.value? := by
    funext j
    show (h.ptr j).bind (h.create b).valueAt = (h.ptr j).bind h.valueAt
    cases hj : h.ptr j with
    | none => rfl
    | some a =>
      have hne : a ≠ h.next := fun heq => hx.ptr_ne_next j (heq ▸ hj)
      exact valueAt_create_ne b hne
  have hnew : (h.create b).valueAt h.next = some b := by
    simp [Heap.valueAt, Heap.create]
  rw [Heap.adopt, (hx.create b).value?_assign, hold]
  exact congrArg _ hnew

/-- A block that another pointer still holds outlives a pointer's move to a new one. -/
theorem valueAt_adopt (b : β) (hji : j ≠ i) (hj : h.ptr j = some a) :
    (h.adopt i b).valueAt a = h.valueAt a := by
  have hread := congrFun (hx.value?_adopt i b) j
  rw [update_of_ne hji] at hread
  have hptr : (h.adopt i b).ptr j = some a :=
    (update_of_ne hji ..).trans hj
  rwa [Heap.value?, hptr, Heap.value?, hj] at hread

theorem transfer (i j : ι) : Exact (h.transfer i j) := by
  refine hx.rebind (fun a => card_holders_transfer h.ptr a i j) fun k a hk => ?_
  by_cases hki : k = i
  · rw [hki, update_self] at hk
    exact hx.placed j a hk
  · rw [update_of_ne hki] at hk
    by_cases hkj : k = j
    · rw [hkj, update_self] at hk
      cases hk
    · rw [update_of_ne hkj] at hk
      exact hx.placed k a hk

theorem value?_transfer (i j k : ι) : (h.transfer i j).value? k =
      update (update h.value? j none) i (h.value? j) k := by
  refine (hx.value?_rebind (fun a => card_holders_transfer h.ptr a i j) k).trans ?_
  by_cases hki : k = i
  · rw [hki, update_self, update_self]
    rfl
  · rw [update_of_ne hki, update_of_ne hki]
    exact bind_update h.valueAt

theorem swap (i j : ι) : Exact (h.swap i j) := by
  refine hx.rebind (fun a => by simp [card_holders_swap]) fun k a hk => ?_
  by_cases hkj : k = j
  · rw [hkj, update_self] at hk
    exact hx.placed i a hk
  · rw [update_of_ne hkj] at hk
    by_cases hki : k = i
    · rw [hki, update_self] at hk
      exact hx.placed j a hk
    · rw [update_of_ne hki] at hk
      exact hx.placed k a hk

theorem value?_swap (i j k : ι) : (h.swap i j).value? k =
      update (update h.value? i (h.value? j)) j (h.value? i) k := by
  refine (hx.value?_rebind (fun a => by simp [card_holders_swap]) k).trans ?_
  by_cases hkj : k = j
  · rw [hkj, update_self, update_self]
    rfl
  · rw [update_of_ne hkj, update_of_ne hkj]
    exact bind_update h.valueAt

end

/-! ### Sole references -/

omit [DecidableEq ι] in
theorem hasOneRef_iff (hx : Exact h) (hi : h.ptr i = some a) :
    h.hasOneRef i = true ↔ (holders h.ptr a).card = 1 := by
  obtain ⟨c, hc⟩ := hx.placed i a hi
  rw [Heap.hasOneRef, hi, bind_some, hc, any_some, beq_iff_eq, hx.counted a c hc]

omit [DecidableEq ι] in
theorem ptr_ne_of_hasOneRef (hx : Exact h) (hi : h.ptr i = some a) (hone : h.hasOneRef i = true)
    (hji : j ≠ i) : h.ptr j ≠ some a := by
  intro hj
  obtain ⟨k, hk⟩ := card_eq_one.mp ((hx.hasOneRef_iff hi).mp hone)
  have hik : i ∈ ({k} : Finset ι) := hk ▸ mem_holders.mpr hi
  have hjk : j ∈ ({k} : Finset ι) := hk ▸ mem_holders.mpr hj
  exact hji ((mem_singleton.mp hjk).trans (mem_singleton.mp hik).symm)

omit [DecidableEq ι] in
theorem exists_ptr_of_not_hasOneRef (hx : Exact h) (hi : h.ptr i = some a)
    (hone : h.hasOneRef i = false) : ∃ j, j ≠ i ∧ h.ptr j = some a := by
  have hmem : i ∈ holders h.ptr a := mem_holders.mpr hi
  have hne : (holders h.ptr a).card ≠ 1 := fun hcard => by
    rw [(hx.hasOneRef_iff hi).mpr hcard] at hone
    cases hone
  have hpos : 0 < (holders h.ptr a).card := card_pos.mpr ⟨i, hmem⟩
  obtain ⟨j, hj, hji⟩ := exists_mem_ne (show 1 < (holders h.ptr a).card by omega) i
  exact ⟨j, hji, mem_holders.mp hj⟩

theorem hasOneRef_adopt (hx : Exact h) (i : ι) (b : β) : (h.adopt i b).hasOneRef i = true := by
  have hi : (h.adopt i b).ptr i = some h.next := update_self ..
  have hcount := card_holders_update h.ptr h.next i (some h.next)
  have hzero : (holders h.ptr h.next).card = 0 :=
    card_eq_zero.mpr (eq_empty_of_forall_notMem fun j hj =>
      hx.ptr_ne_next j (mem_holders.mp hj))
  rw [if_neg (hx.ptr_ne_next i), if_pos rfl, hzero] at hcount
  exact ((hx.adopt i b).hasOneRef_iff hi).mpr hcount

/-- The block of a sole reference is freed when the reference moves to a new block. -/
theorem valueAt_adopt_eq_none (hx : Exact h) (b : β) (hi : h.ptr i = some a)
    (hone : h.hasOneRef i = true) : (h.adopt i b).valueAt a = none := by
  obtain ⟨c, hc⟩ := (hx.create b).placed i a hi
  have hne : a ≠ h.next := fun heq => hx.ptr_ne_next i (heq ▸ hi)
  have hcount := card_holders_update h.ptr a i (some h.next)
  have hother : ¬ some h.next = some a := fun heq => hne (some.inj heq).symm
  rw [if_pos hi, if_neg hother, (hx.hasOneRef_iff hi).mp hone] at hcount
  have hcells := (hx.create b).rebind_cells (balanced_assign (h.create b) i (some h.next)) hc
  rw [if_pos ⟨hi, Nat.succ.inj hcount⟩] at hcells
  exact congrArg (Option.map Cell.value) hcells

/-! ### Changing a block in place -/

omit [DecidableEq ι] in
theorem modify (hx : Exact h) (i : ι) (f : β → β) : Exact (h.modify i f) := by
  cases hi : h.ptr i with
  | none =>
    rw [Heap.modify, hi]
    exact hx
  | some a =>
    obtain ⟨c, hc⟩ := hx.placed i a hi
    rw [Heap.modify, hi]
    dsimp only
    rw [hc, map_some]
    refine ⟨fun a' c' hc' => ?_, fun j a' hj => ?_, fun a' ha' => ?_⟩
    · by_cases ha : a' = a
      · rw [ha, Heap.put_cells_self] at hc'
        cases hc'
        rw [ha]
        exact hx.counted a c hc
      · rw [Heap.put_cells_ne ha] at hc'
        exact hx.counted a' c' hc'
    · by_cases ha : a' = a
      · exact ⟨_, by rw [ha, Heap.put_cells_self]⟩
      · obtain ⟨c', hc'⟩ := hx.placed j a' hj
        exact ⟨c', by rw [Heap.put_cells_ne ha, hc']⟩
    · have hnone := hx.fresh a' ha'
      have hne : a' ≠ a := fun heq => by
        rw [heq, hc] at hnone
        cases hnone
      rw [Heap.put_cells_ne hne, hnone]

omit [Fintype ι] [DecidableEq ι] in
theorem ptr_modify (i : ι) (f : β → β) : (h.modify i f).ptr = h.ptr := by
  unfold Heap.modify
  split <;> rfl

omit [Fintype ι] [DecidableEq ι] in
theorem valueAt_modify (f : β → β) (hi : h.ptr i = some a) (a' : Nat) :
    (h.modify i f).valueAt a' = if a' = a then (h.valueAt a).map f else h.valueAt a' := by
  simp only [Heap.modify, hi, Heap.valueAt]
  by_cases ha : a' = a
  · rw [if_pos ha, ha, Heap.put_cells_self]
    cases h.cells a <;> rfl
  · rw [if_neg ha, Heap.put_cells_ne ha]

/-- A change in place through a sole reference is seen through that reference only. -/
theorem value?_modify (hx : Exact h) (f : β → β) (hone : h.hasOneRef i = true) :
    (h.modify i f).value? = update h.value? i ((h.value? i).map f) := by
  funext j
  rw [Heap.value?, ptr_modify]
  cases hi : h.ptr i with
  | none =>
    simp [Heap.hasOneRef, hi] at hone
  | some a =>
    by_cases hji : j = i
    · rw [hji, update_self, Heap.value?, hi]
      exact (valueAt_modify f hi a).trans (if_pos rfl)
    · rw [update_of_ne hji, Heap.value?]
      cases hj : h.ptr j with
      | none => rfl
      | some a' =>
        have hne : a' ≠ a := fun heq => hx.ptr_ne_of_hasOneRef hi hone hji (heq ▸ hj)
        exact (valueAt_modify f hi a').trans (if_neg hne)

omit [Fintype ι] [DecidableEq ι] in
theorem hasOneRef_modify (f : β → β) : (h.modify i f).hasOneRef i = h.hasOneRef i := by
  cases hi : h.ptr i with
  | none => rw [Heap.modify, hi]
  | some a =>
    rw [Heap.hasOneRef, ptr_modify, hi, Heap.hasOneRef, hi, Heap.modify, hi]
    simp only [bind_some, Heap.put_cells_self]
    cases h.cells a <;> rfl

end Exact

end Exact

end Counted
