import Mathlib.Logic.Function.Basic
import CxxKit.Lib.Transition

/-!
The open-addressing table `detail::raw_hash_set` and its front ends
`flat_hash_map` / `flat_hash_set` (`containers/detail/raw_hash_set.hpp`,
`containers/flat_hash_map.hpp`, `containers/flat_hash_set.hpp`).

A table is the control array, the slot array, the capacity and the size.  A null
`mCtrl` is the empty control array, so a read through it is a read out of range.
Everything that reads memory answers in `Except Fault`:

* `invalidRead` — a control byte or slot outside the arrays, or a slot that holds
  no element, is read;
* `diverges` — a `while (true)` probe loop does not stop.  The probe loops get
  `mCapacity` rounds of fuel; `findLoop_endless` and `probeLoop_endless` show that
  a loop which has not stopped after that many rounds never stops;
* `assertFailed` — `assert(res.second)` in `unchecked_insert`.

Sizes and hashes are natural numbers: allocation is taken to succeed.
-/

namespace CxxKit.RawHashSet

open Function List

/-! ### Control bytes -/

/-- `enum Ctrl : int8_t`; the values `0..127` are the `H2` of an occupied slot. -/
inductive Ctrl where
  | kEmpty
  | kDeleted
  | kSentinel
  | full (h2 : Fin 128)
deriving DecidableEq, Repr

/-- The `int8_t` value of a control byte. -/
def Ctrl.val : Ctrl → Int
  | .kEmpty => -128
  | .kDeleted => -2
  | .kSentinel => -1
  | .full h => h.val

def isEmpty (c : Ctrl) : Bool := c == .kEmpty

def isFull (c : Ctrl) : Bool := decide (0 ≤ c.val)

def isEmptyOrDeleted (c : Ctrl) : Bool := decide (c.val < Ctrl.kSentinel.val)

@[simp] theorem isEmpty_iff {c : Ctrl} : isEmpty c = true ↔ c = .kEmpty := by simp [isEmpty]

@[simp] theorem isFull_kEmpty : isFull .kEmpty = false := rfl
@[simp] theorem isFull_kDeleted : isFull .kDeleted = false := rfl
@[simp] theorem isFull_kSentinel : isFull .kSentinel = false := rfl
@[simp] theorem isFull_full (h : Fin 128) : isFull (.full h) = true := by simp [isFull, Ctrl.val]

@[simp] theorem isEmptyOrDeleted_kEmpty : isEmptyOrDeleted .kEmpty = true := rfl
@[simp] theorem isEmptyOrDeleted_kDeleted : isEmptyOrDeleted .kDeleted = true := rfl
@[simp] theorem isEmptyOrDeleted_kSentinel : isEmptyOrDeleted .kSentinel = false := rfl
@[simp] theorem isEmptyOrDeleted_full (h : Fin 128) : isEmptyOrDeleted (.full h) = false := by
  have hnot : ¬ ((h.val : Int) < -1) := by omega
  exact decide_eq_false hnot

/-- The upper bits of a hash seed the probe sequence. -/
def H1 (hash : Nat) : Nat := hash >>> 7

/-- The lower seven bits of a hash go to the control byte. -/
def H2 (hash : Nat) : Ctrl :=
  .full ⟨hash &&& 0x7F, Nat.lt_of_le_of_lt Nat.and_le_right (by decide)⟩

@[simp] theorem isFull_H2 (hash : Nat) : isFull (H2 hash) = true := isFull_full _

/-! ### Probe sequence and capacities -/

def kWidth : Nat := 1

structure ProbeSeq where
  mPos : Nat
  mMask : Nat
  mStride : Nat
deriving DecidableEq, Repr

def ProbeSeq.start (hash mask : Nat) : ProbeSeq := ⟨H1 hash &&& mask, mask, 0⟩

def ProbeSeq.next (seq : ProbeSeq) : ProbeSeq :=
  let stride := seq.mStride + kWidth
  ⟨(seq.mPos + stride) &&& seq.mMask, seq.mMask, stride⟩

def kMinCapacity : Nat := 16

def growthThreshold (capacity : Nat) : Nat := capacity - capacity / 8

def nextCapacity (capacity : Nat) : Nat := if capacity = 0 then kMinCapacity else capacity * 2

/-! ### Keys and policies -/

/-- A hash function with the key equality it is used with: an equivalence under
which equal keys have equal hashes, as `Hash` and `Eq` must be. -/
structure KeyHash (κ : Type) where
  hash : κ → Nat
  eq : κ → κ → Bool
  eq_refl : ∀ a, eq a a = true
  eq_symm : ∀ a b, eq a b = true → eq b a = true
  eq_trans : ∀ a b c, eq a b = true → eq b c = true → eq a c = true
  hash_eq : ∀ a b, eq a b = true → hash a = hash b

/-- `Policy`: how a stored element relates to its key.  `construct k` is the
element `operator[]` builds for a missing key, `setMapped v x` is the element
after `x` was assigned through the reference it returns. -/
structure Policy (κ ν β : Type) where
  key : β → κ
  construct : κ → β
  setMapped : β → ν → β
  key_construct : ∀ k, key (construct k) = k
  key_setMapped : ∀ v x, key (setMapped v x) = key v

/-- `FlatHashMapPolicy`: pairs keyed by their first component. -/
def flatHashMapPolicy (κ ν : Type) [Inhabited ν] : Policy κ ν (κ × ν) where
  key v := v.1
  construct k := (k, default)
  setMapped v x := (v.1, x)
  key_construct _ := rfl
  key_setMapped _ _ := rfl

/-- `FlatHashSetPolicy`: an element is its own key and has no mapped part. -/
def flatHashSetPolicy (κ : Type) : Policy κ Unit κ where
  key v := v
  construct k := k
  setMapped v _ := v
  key_construct _ := rfl
  key_setMapped _ _ := rfl

/-! ### Tables -/

inductive Fault where
  | invalidRead
  | diverges
  | assertFailed
deriving DecidableEq, Repr

@[simp] theorem ok_bind {α β : Type} (a : α) (f : α → Except Fault β) :
    Except.ok a >>= f = f a := rfl

@[simp] theorem error_bind {α β : Type} (e : Fault) (f : α → Except Fault β) :
    Except.error e >>= f = .error e := rfl

@[simp] theorem pure_eq_ok {α : Type} (a : α) : (pure a : Except Fault α) = .ok a := rfl

structure Table (β : Type) where
  mCtrl : List Ctrl
  mSlots : List (Option β)
  mCapacity : Nat
  mSize : Nat
deriving DecidableEq, Repr

namespace Table

variable {κ ν β : Type}

/-- `raw_hash_set()`: no storage. -/
def unallocated : Table β := ⟨[], [], 0, 0⟩

/-- Storage for `capacity` elements with an initialised control array: all bytes
`kEmpty`, then the sentinel (`kWidth - 1` clones follow it, that is none). -/
def fresh (capacity : Nat) : Table β :=
  ⟨replicate capacity .kEmpty ++ [.kSentinel], replicate capacity none, capacity, 0⟩

def readCtrl (t : Table β) (i : Nat) : Except Fault Ctrl :=
  match t.mCtrl[i]? with
  | some c => .ok c
  | none => .error .invalidRead

def slotAt (t : Table β) (i : Nat) : Except Fault β :=
  match t.mSlots[i]? with
  | some (some v) => .ok v
  | _ => .error .invalidRead

/-! #### Iterators

An iterator is the index of its control byte; every construction and increment
skips empty and deleted bytes. -/

def skipEmptyOrDeleted : List Ctrl → Nat → Except Fault Nat
  | [], _ => .error .invalidRead
  | c :: cs, i => if isEmptyOrDeleted c then skipEmptyOrDeleted cs (i + 1) else .ok i

def iterator (t : Table β) (i : Nat) : Except Fault Nat := skipEmptyOrDeleted (t.mCtrl.drop i) i

def begin (t : Table β) : Except Fault Nat := t.iterator 0

def sentinel (t : Table β) : Except Fault Nat := t.iterator t.mCapacity

def iterate (t : Table β) : Nat → Nat → Except Fault (List β)
  | 0, _ => .error .diverges
  | fuel + 1, it => do
      let last ← t.sentinel
      if it == last then pure []
      else
        let v ← t.slotAt it
        let it ← t.iterator (it + 1)
        let rest ← iterate t fuel it
        pure (v :: rest)

/-- The elements seen by `for (auto it = begin(); it != end(); ++it)`. -/
def elements (t : Table β) : Except Fault (List β) := do
  let it ← t.begin
  t.iterate (t.mCapacity + 1) it

section Operations

variable (K : KeyHash κ) (P : Policy κ ν β)

/-! #### Lookup -/

def findLoop (t : Table β) (k : κ) : Nat → ProbeSeq → Except Fault Nat
  | 0, _ => .error .diverges
  | fuel + 1, seq => do
      let c ← t.readCtrl seq.mPos
      let hit ← if isFull c && H2 (K.hash k) == c then
          do let v ← t.slotAt seq.mPos
             pure (K.eq k (P.key v))
        else pure false
      if hit then t.iterator seq.mPos
      else if isEmpty c then t.sentinel
      else findLoop t k fuel seq.next

variable (t : Table β)

def find (k : κ) : Except Fault Nat :=
  if t.mCapacity = 0 then t.sentinel
  else findLoop K P t k t.mCapacity (.start (K.hash k) (t.mCapacity - 1))

def contains (k : κ) : Except Fault Bool := do
  let it ← find K P t k
  let last ← t.sentinel
  return it != last

def count (k : κ) : Except Fault Nat := do
  let it ← find K P t k
  let last ← t.sentinel
  return if it != last then 1 else 0

/-! #### Insertion -/

/-- Where the probe of `find_or_prepare_insert` stops: at the slot of an equal
key, or at an empty byte with the slot an insertion would take. -/
inductive Probe where
  | present (pos : Nat)
  | vacant (target : Nat)
deriving DecidableEq, Repr

def probeLoop (t : Table β) (k : κ) : Nat → ProbeSeq → Nat → Except Fault Probe
  | 0, _, _ => .error .diverges
  | fuel + 1, seq, firstDeleted => do
      let pos := seq.mPos
      let c ← t.readCtrl pos
      if isFull c then
        let hit ← if c == H2 (K.hash k) then
            do let v ← t.slotAt pos
               pure (K.eq k (P.key v))
          else pure false
        if hit then pure (.present pos)
        else probeLoop t k fuel seq.next firstDeleted
      else if isEmpty c then
        pure (.vacant (if firstDeleted ≠ t.mCapacity then firstDeleted else pos))
      else
        let firstDeleted := if firstDeleted = t.mCapacity then pos else firstDeleted
        probeLoop t k fuel seq.next firstDeleted

def probe (k : κ) : Except Fault Probe :=
  probeLoop K P t k t.mCapacity (.start (K.hash k) (t.mCapacity - 1)) t.mCapacity

def constructSlot (i : Nat) (v : β) : Table β :=
  { t with mSlots := t.mSlots.set i (some v), mSize := t.mSize + 1 }

/-- `unchecked_insert` over a given `find_or_prepare_insert`. -/
def uncheckedInsertWith (prepare : Table β → κ → Except Fault (Table β × Nat × Bool))
    (t : Table β) (v : β) : Except Fault (Table β) := do
  let (t, i, new) ← prepare t (P.key v)
  if new then pure (t.constructSlot i v)
  else .error .assertFailed

/-- `resize` over a given `find_or_prepare_insert`: a fresh control array, then
every full slot of the old one inserted again in index order. -/
def resizeWith (prepare : Table β → κ → Except Fault (Table β × Nat × Bool))
    (t : Table β) (newCap : Nat) : Except Fault (Table β) :=
  foldlM (fun acc i => do
    let c ← t.readCtrl i
    if isFull c then uncheckedInsertWith P prepare acc (← t.slotAt i)
    else pure acc) (fresh newCap) (range t.mCapacity)

/-- `find_or_prepare_insert`; `depth` bounds the recursion through `resize`. -/
def findOrPrepareInsertAt : Nat → Table β → κ → Except Fault (Table β × Nat × Bool)
  | 0, _, _ => .error .diverges
  | depth + 1, t, k => do
      match ← probe K P t k with
      | .present pos => pure (t, pos, false)
      | .vacant target =>
        if t.mSize + 1 > growthThreshold t.mCapacity then
          let t ← resizeWith P (findOrPrepareInsertAt depth) t (nextCapacity t.mCapacity)
          findOrPrepareInsertAt depth t k
        else pure ({ t with mCtrl := t.mCtrl.set target (H2 (K.hash k)) }, target, true)

/-- Growing re-inserts into a table with room for everything, so the recursion
is two calls deep. -/
def findOrPrepareInsert : Table β → κ → Except Fault (Table β × Nat × Bool) :=
  findOrPrepareInsertAt K P 2

def uncheckedInsert (v : β) : Except Fault (Table β) :=
  uncheckedInsertWith P (findOrPrepareInsert K P) t v

def resize (newCap : Nat) : Except Fault (Table β) :=
  resizeWith P (findOrPrepareInsert K P) t newCap

/-- `while (!enough(cap)) cap *= 2`. -/
def doubleUntil (enough : Nat → Bool) : Nat → Nat → Except Fault Nat
  | 0, _ => .error .diverges
  | fuel + 1, cap => if enough cap then .ok cap else doubleUntil enough fuel (cap * 2)

def reserve (n : Nat) : Except Fault (Table β) :=
  if n > growthThreshold t.mCapacity then do
    let cap ← doubleUntil (fun cap => !decide (growthThreshold cap < n)) (n + 1)
      (if t.mCapacity = 0 then kMinCapacity else t.mCapacity)
    resize K P t cap
  else .ok t

/-- `raw_hash_set(size_t bucket_count_hint)`. -/
def ofHint (hint : Nat) : Except Fault (Table β) :=
  if hint > 0 then do
    let cap ← doubleUntil (fun cap => !decide (cap < hint)) (hint + 1) kMinCapacity
    resize K P unallocated cap
  else .ok unallocated

def emplaceImpl (v : β) : Except Fault (Table β × Nat × Bool) := do
  let t ← if t.mCapacity = 0 then reserve K P t kMinCapacity else pure t
  let (t, i, new) ← findOrPrepareInsert K P t (P.key v)
  let t := if new then t.constructSlot i v else t
  let it ← t.iterator i
  return (t, it, new)

/-! #### Erasing and clearing -/

def eraseAt (idx : Nat) : Except Fault (Table β) := do
  let next := (idx + 1) &&& (t.mCapacity - 1)
  let c ← t.readCtrl next
  return { t with
    mSlots := t.mSlots.set idx none
    mCtrl := t.mCtrl.set idx (if isEmpty c then .kEmpty else .kDeleted)
    mSize := t.mSize - 1 }

def erase (k : κ) : Except Fault (Table β × Nat) := do
  let it ← find K P t k
  let last ← t.sentinel
  if it == last then pure (t, 0)
  else pure (← t.eraseAt it, 1)

def clear : Table β :=
  if t.mCapacity = 0 then t
  else
    { t with
      mSlots := zipWith (fun c s => if isFull c then none else s) t.mCtrl t.mSlots
      mCtrl := replicate t.mCapacity .kEmpty ++ [.kSentinel]
      mSize := 0 }

/-! #### Copies -/

def copyFrom (t o : Table β) : Except Fault (Table β) := do
  let vs ← o.elements
  vs.foldlM (uncheckedInsert K P) t

/-- `raw_hash_set(const raw_hash_set &)`. -/
def copyConstruct (o : Table β) : Except Fault (Table β) :=
  if o.mCapacity > 0 then do
    let t ← resize K P unallocated o.mCapacity
    copyFrom K P t o
  else .ok unallocated

/-- `operator=(const raw_hash_set &)` of an object other than the source. -/
def copyAssign (t o : Table β) : Except Fault (Table β) :=
  let t := t.clear
  if o.mCapacity > 0 then do
    let t ← if t.mCapacity < o.mCapacity then resize K P t o.mCapacity else pure t
    copyFrom K P t o
  else .ok t

end Operations

end Table

/-! ### Families of containers and the operations on them -/

/-- An operation of the public interface on the container objects `a`, `b`, ….
`construct`, `copyConstruct` and `moveConstruct` put a new object in place of the
one the handle named before. -/
inductive Op (κ ν β : Type) where
  | construct (a : Nat) (hint : Nat)
  | insert (a : Nat) (v : β)
  | emplace (a : Nat) (v : β)
  | subscript (a : Nat) (k : κ)
  | subscriptSet (a : Nat) (k : κ) (x : ν)
  | find (a : Nat) (k : κ)
  | contains (a : Nat) (k : κ)
  | count (a : Nat) (k : κ)
  | size (a : Nat)
  | erase (a : Nat) (k : κ)
  | eraseIter (a : Nat) (it : Nat)
  | iterate (a : Nat)
  | clear (a : Nat)
  | reserve (a : Nat) (n : Nat)
  | copyConstruct (a b : Nat)
  | copyAssign (a b : Nat)
  | moveConstruct (a b : Nat)
  | moveAssign (a b : Nat)
  | swap (a b : Nat)

/-- What the caller sees of an operation.  An iterator is seen through the element
it points at, `none` for `end()`. -/
inductive Answer (β : Type) where
  | done
  | element (v : Option β)
  | inserted (v : β) (new : Bool)
  | flag (b : Bool)
  | number (n : Nat)
  | elements (vs : List β)
deriving DecidableEq, Repr

/-- The container objects by handle. -/
abbrev Family (β : Type) := Nat → Table β

namespace Family

variable {κ ν β : Type} (K : KeyHash κ) (P : Policy κ ν β)

/-- `*it`, or nothing when `it == end()`. -/
def deref (t : Table β) (it : Nat) : Except Fault (Option β) := do
  let last ← t.sentinel
  if it == last then pure none
  else pure (some (← t.slotAt it))

def emplaceAt (s : Family β) (a : Nat) (v : β) : Except Fault (Family β × Answer β) := do
  let (t, it, new) ← (s a).emplaceImpl K P v
  return (update s a t, .inserted (← t.slotAt it) new)

def step (s : Family β) : Op κ ν β → Except Fault (Family β × Answer β)
  | .construct a hint => do return (update s a (← Table.ofHint K P hint), .done)
  | .insert a v => emplaceAt K P s a v
  | .emplace a v => emplaceAt K P s a v
  | .subscript a k => do
      let (t, it, _) ← (s a).emplaceImpl K P (P.construct k)
      return (update s a t, .element (some (← t.slotAt it)))
  | .subscriptSet a k x => do
      let (t, it, _) ← (s a).emplaceImpl K P (P.construct k)
      let v ← t.slotAt it
      return (update s a { t with mSlots := t.mSlots.set it (some (P.setMapped v x)) }, .done)
  | .find a k => do return (s, .element (← deref (s a) (← (s a).find K P k)))
  | .contains a k => do return (s, .flag (← (s a).contains K P k))
  | .count a k => do return (s, .number (← (s a).count K P k))
  | .size a => .ok (s, .number (s a).mSize)
  | .erase a k => do
      let (t, n) ← (s a).erase K P k
      return (update s a t, .number n)
  | .eraseIter a it => do
      let v ← (s a).slotAt it
      return (update s a (← (s a).eraseAt it), .element (some v))
  | .iterate a => do return (s, .elements (← (s a).elements))
  | .clear a => .ok (update s a (s a).clear, .done)
  | .reserve a n => do return (update s a (← (s a).reserve K P n), .done)
  | .copyConstruct a b => do return (update s a (← (s b).copyConstruct K P), .done)
  | .copyAssign a b =>
    if a = b then .ok (s, .done)
    else do return (update s a (← (s a).copyAssign K P (s b)), .done)
  | .moveConstruct a b => .ok (update (update s a (s b)) b .unallocated, .done)
  | .moveAssign a b =>
    if a = b then .ok (s, .done)
    else .ok (update (update s a (s b)) b .unallocated, .done)
  | .swap a b => .ok (update (update s a (s b)) b (s a), .done)

/-- The family as a machine that forgets the answers: a faulting operation is a
step that cannot be taken. -/
def machine : Transition.Machine (Family β) (Op κ ν β) where
  init := fun _ => .unallocated
  step s op := match step K P s op with
    | .ok (t, _) => some t
    | .error _ => none

end Family

end CxxKit.RawHashSet
