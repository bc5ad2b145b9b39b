import CxxKit.Lib.Counted
import CxxKit.Lib.Service
import CxxKit.Lib.Window

/-!
`Buffer` (`tools/buffer.hpp`) and the copy-on-write `SharedBuffer` over it
(`tools/shared_buffer.hpp`, `tools/shared_buffer.cpp`).

A `SharedBuffer` handle is a `SharedRefPtr` to a reference-counted `Buffer` and the
slice of it that the handle shows.  The model is a finite family of handles, all
default-constructed at first; a handle that has not been constructed or has been
destroyed is one that holds nothing.  The bytes of fresh storage are whatever the
allocator left there: each call comes with a `fill` for the storage it may allocate.

The debug checks of the library are compiled out.  Those on arguments are duties of
the caller, and a call that breaks one is `Fault.outOfRange`.
-/

namespace CxxKit

open Function List

open Window (window overwrite)

/-! ### `BufferT<uint8_t>` -/

/-- The bytes found in fresh storage. -/
abbrev Fill := Nat → UInt8

def uninitialised (fill : Fill) (n : Nat) : List UInt8 :=
  (range n).map fill

@[simp] theorem length_uninitialised (fill : Fill) (n : Nat) :
    (uninitialised fill n).length = n := by
  simp [uninitialised]

/-- `mData` is the whole storage, so `mCapacity` is its length. -/
structure Buffer where
  mSize : Nat
  mData : List UInt8
  bounded : mSize ≤ mData.length

namespace Buffer

def capacity (b : Buffer) : Nat :=
  b.mData.length

/-- `BufferT(size, capacity)`. -/
def alloc (size capacity : Nat) (fill : Fill) : Buffer where
  mSize := size
  mData := uninitialised fill (max size capacity)
  bounded := by simp

/-- `BufferT(data, size, capacity)`. -/
def ofBytes (data : List UInt8) (capacity : Nat) (fill : Fill) : Buffer where
  mSize := data.length
  mData := overwrite 0 data (uninitialised fill (max data.length capacity))
  bounded := by rw [Window.length_overwrite] <;> simp

/-- `ensure_capacity_with_headroom(capacity, true)`. -/
def ensureCapacityWithHeadroom (capacity : Nat) (fill : Fill) (b : Buffer) : Buffer :=
  if capacity ≤ b.capacity then b
  else
    let newCapacity := max capacity (b.capacity + b.capacity / 2)
    { mSize := b.mSize
      mData := b.mData.take b.mSize ++ uninitialised fill (newCapacity - b.mSize)
      bounded := by
        have := b.bounded
        simp only [length_append, length_take]
        omega }

theorem le_capacity_ensureCapacityWithHeadroom (capacity : Nat) (fill : Fill) (b : Buffer) :
    capacity ≤ (b.ensureCapacityWithHeadroom capacity fill).mData.length := by
  unfold ensureCapacityWithHeadroom
  split
  next h => exact h
  next h =>
    have hsize := b.bounded
    simp only [length_append, length_take, length_uninitialised]
    omega

def setSize (size : Nat) (fill : Fill) (b : Buffer) : Buffer where
  mSize := size
  mData := (b.ensureCapacityWithHeadroom size fill).mData
  bounded := b.le_capacity_ensureCapacityWithHeadroom size fill

def appendData (data : List UInt8) (fill : Fill) (b : Buffer) : Buffer :=
  if data.length = 0 then b
  else
    let b' := b.ensureCapacityWithHeadroom (b.mSize + data.length) fill
    { mSize := b.mSize + data.length
      mData := overwrite b.mSize data b'.mData
      bounded := by
        have hroom : b.mSize + data.length ≤ b'.mData.length :=
          b.le_capacity_ensureCapacityWithHeadroom _ fill
        rwa [Window.length_overwrite hroom] }

def clear (b : Buffer) : Buffer where
  mSize := 0
  mData := b.mData
  bounded := Nat.zero_le _

/-- `data()[index] = value`. -/
def write (index : Nat) (value : UInt8) (b : Buffer) : Buffer where
  mSize := b.mSize
  mData := b.mData.set index value
  bounded := by rw [length_set]; exact b.bounded

end Buffer

/-! ### `SharedBuffer` -/

namespace SharedBuffer

/-- `mOffset` and `mSize` of a handle. -/
structure Slice where
  mOffset : Nat
  mSize : Nat
  deriving DecidableEq

/-- The handles `i : ι`: `heap.ptr i` is the `mBuffer` of handle `i`. -/
structure State (ι : Type) where
  heap : Counted.Heap ι Buffer
  slice : ι → Slice

/-- The bytes given to a call: memory of the caller's own, or the bytes of a handle
from `data() + offset` on. -/
inductive Data (ι : Type) where
  | bytes (data : List UInt8)
  | view (j : ι) (offset length : Nat)

/-- The bytes are bytes that the handle shows. -/
def Data.InRange {ι : Type} (s : State ι) : Data ι → Prop
  | .bytes _ => True
  | .view j offset length => offset + length ≤ (s.slice j).mSize

instance {ι : Type} (s : State ι) (data : Data ι) : Decidable (data.InRange s) := by
  cases data <;> unfold Data.InRange <;> infer_instance

/-- A `const uint8_t *` and a size. -/
inductive Pointer where
  | bytes (data : List UInt8)
  | block (address position length : Nat)

namespace Pointer

def length : Pointer → Nat
  | .bytes data => data.length
  | .block _ _ length => length

/-- The bytes lie in the block at `a`. -/
def Inside (a : Option Nat) : Pointer → Prop
  | .bytes _ => False
  | .block address _ _ => a = some address

/-- The bytes and the `length` bytes of the block at `a` from `position` on overlap. -/
def Overlaps (a : Option Nat) (position : Nat) : Pointer → Prop
  | .bytes _ => False
  | .block address start length =>
    a = some address ∧ start < position + length ∧ position < start + length

instance (a : Option Nat) (p : Pointer) : Decidable (p.Inside a) := by
  cases p <;> unfold Inside <;> infer_instance

instance (a : Option Nat) (position : Nat) (p : Pointer) : Decidable (p.Overlaps a position) := by
  cases p <;> unfold Overlaps <;> infer_instance

end Pointer

/-- What a call can run into. -/
inductive Fault where
  /-- An argument out of the range that the caller has to keep to. -/
  | outOfRange
  /-- `memcpy` from storage that has been freed. -/
  | dangling
  /-- `memcpy` between ranges that overlap. -/
  | overlap
  deriving DecidableEq

/-- The bytes a `memcpy` from the pointer reads. -/
def load {ι : Type} (heap : Counted.Heap ι Buffer) : Pointer → Except Fault (List UInt8)
  | .bytes data => .ok data
  | .block address position length =>
    match heap.valueAt address with
    | none => .error .dangling
    | some b => .ok (window position length b.mData)

/-- `mBuffer->append_data(data, size)` of handle `i`.  A buffer that grows frees its old
storage before it copies. -/
def appendInPlace {ι : Type} (i : ι) (p : Pointer) (fill : Fill) (heap : Counted.Heap ι Buffer) :
    Except Fault (Counted.Heap ι Buffer) :=
  match heap.value? i with
  | none => .error .dangling
  | some b =>
    if p.length = 0 then .ok heap
    else if p.Inside (heap.ptr i) ∧ b.capacity < b.mSize + p.length then .error .dangling
    else if p.Overlaps (heap.ptr i) b.mSize then .error .overlap
    else (load heap p).map fun data => heap.modify i (·.appendData data fill)

namespace State

variable {ι : Type} [DecidableEq ι]

def init : State ι where
  heap := { cells := fun _ => none, next := 0, ptr := fun _ => none }
  slice := fun _ => ⟨0, 0⟩

omit [DecidableEq ι] in
/-- The bytes a reader finds from `data()` to `data() + size()`. -/
def shows (s : State ι) (i : ι) : List UInt8 :=
  match s.heap.value? i with
  | none => []
  | some b => window (s.slice i).mOffset (s.slice i).mSize b.mData

omit [DecidableEq ι] in
def size (s : State ι) (i : ι) : Nat :=
  (s.slice i).mSize

omit [DecidableEq ι] in
def capacity (s : State ι) (i : ι) : Nat :=
  match s.heap.value? i with
  | none => 0
  | some b => b.capacity - (s.slice i).mOffset

omit [DecidableEq ι] in
/-- `data() + offset` of a handle; `data()` of an empty handle is null. -/
def pointer (s : State ι) : Data ι → Pointer
  | .bytes data => .bytes data
  | .view j offset length =>
    match s.heap.ptr j with
    | none => .bytes []
    | some a => .block a ((s.slice j).mOffset + offset) length

variable (i : ι)

/-- `mBuffer = new RefCountedBuffer(..)`, with the slice that goes with it. -/
def install (b : Buffer) (w : Slice) (s : State ι) : State ι where
  heap := s.heap.adopt i b
  slice := update s.slice i w

def unshareAndEnsureCapacity (newCapacity : Nat) (fill : Fill) (s : State ι) : State ι :=
  match s.heap.value? i with
  | none => s
  | some b =>
    if s.heap.hasOneRef i = true ∧ newCapacity ≤ s.capacity i then s
    else
      let w := s.slice i
      s.install i (.ofBytes (window w.mOffset w.mSize b.mData) newCapacity fill) ⟨0, w.mSize⟩

/-- `SharedBuffer(size, capacity)`, assigned to `i`. -/
def construct (size capacity : Nat) (fill : Fill) (s : State ι) : State ι :=
  if 0 < size ∨ 0 < capacity then s.install i (.alloc size capacity fill) ⟨0, size⟩
  else { heap := s.heap.assign i none, slice := update s.slice i ⟨0, size⟩ }

/-- `SharedBuffer(data, size, capacity)`, assigned to `i`. -/
def constructFrom (data : Data ι) (capacity : Nat) (fill : Fill) (s : State ι) :
    Except Fault (State ι) :=
  let p := s.pointer data
  if 0 < p.length ∨ 0 < capacity then
    (load s.heap p).map fun bytes => s.install i (.ofBytes bytes capacity fill) ⟨0, p.length⟩
  else .ok { heap := s.heap.assign i none, slice := update s.slice i ⟨0, p.length⟩ }

/-- The copy constructor, `operator=(const SharedBuffer &)` and
`set_data(const SharedBuffer &)`. -/
def copy (i j : ι) (s : State ι) : State ι :=
  if i = j then s
  else { heap := s.heap.assign i (s.heap.ptr j), slice := update s.slice i (s.slice j) }

/-- The move constructor and `operator=(SharedBuffer &&)`. -/
def move (i j : ι) (s : State ι) : State ι where
  heap := s.heap.transfer i j
  slice := update (update s.slice i (s.slice j)) j ⟨0, 0⟩

/-- `set_data(data, size)`. -/
def setData (data : Data ι) (fill : Fill) (s : State ι) : Except Fault (State ι) :=
  let p := s.pointer data
  let w : Slice := ⟨0, p.length⟩
  match s.heap.value? i with
  | none =>
    if 0 < p.length then
      (load s.heap p).map fun bytes => s.install i (.ofBytes bytes p.length fill) w
    else .ok { heap := s.heap.assign i none, slice := update s.slice i w }
  | some _ =>
    if s.heap.hasOneRef i = false then
      (load s.heap p).map fun bytes => s.install i (.ofBytes bytes (s.capacity i) fill) w
    else
      (appendInPlace i p fill (s.heap.modify i Buffer.clear)).map fun heap =>
        { heap := heap, slice := update s.slice i w }

/-- `append_data(data, size)`. -/
def appendData (data : Data ι) (fill : Fill) (s : State ι) : Except Fault (State ι) :=
  let p := s.pointer data
  match s.heap.value? i with
  | none =>
    (load s.heap p).map fun bytes => s.install i (.ofBytes bytes p.length fill) ⟨0, p.length⟩
  | some _ =>
    let newCapacity := max (s.capacity i) ((s.slice i).mSize + p.length)
    let s' := s.unshareAndEnsureCapacity i newCapacity fill
    let w := s'.slice i
    -- what lies to the right of the slice is dropped
    let heap' := s'.heap.modify i (·.setSize (w.mOffset + w.mSize) fill)
    (appendInPlace i p fill heap').map fun heap =>
      { heap := heap, slice := update s'.slice i ⟨w.mOffset, w.mSize + p.length⟩ }

def setSize (size : Nat) (fill : Fill) (s : State ι) : State ι :=
  match s.heap.value? i with
  | none => if 0 < size then s.install i (.alloc size size fill) ⟨0, size⟩ else s
  | some _ =>
    if size ≤ (s.slice i).mSize then
      { s with slice := update s.slice i ⟨(s.slice i).mOffset, size⟩ }
    else
      let s' := s.unshareAndEnsureCapacity i (max (s.capacity i) size) fill
      let w := s'.slice i
      { heap := s'.heap.modify i (·.setSize (size + w.mOffset) fill)
        slice := update s'.slice i ⟨w.mOffset, size⟩ }

def ensureCapacity (newCapacity : Nat) (fill : Fill) (s : State ι) : State ι :=
  match s.heap.value? i with
  | none => if 0 < newCapacity then s.install i (.alloc 0 newCapacity fill) ⟨0, 0⟩ else s
  | some _ =>
    if newCapacity ≤ s.capacity i then s else s.unshareAndEnsureCapacity i newCapacity fill

def clear (fill : Fill) (s : State ι) : State ι :=
  match s.heap.value? i with
  | none => s
  | some _ =>
    if s.heap.hasOneRef i = true then
      { heap := s.heap.modify i Buffer.clear, slice := update s.slice i ⟨0, 0⟩ }
    else s.install i (.alloc 0 (s.capacity i) fill) ⟨0, 0⟩

/-- `slice(offset, length)` of `j`, assigned to `i`. -/
def sliceOf (i j : ι) (offset length : Nat) (s : State ι) : State ι where
  heap := s.heap.assign i (s.heap.ptr j)
  slice := update s.slice i ⟨(s.slice j).mOffset + offset, length⟩

/-- `mutable_data()`; the pointer it returns is to the slice of `i` afterwards. -/
def mutableData (fill : Fill) (s : State ι) : State ι :=
  match s.heap.value? i with
  | none => s
  | some _ => s.unshareAndEnsureCapacity i (s.capacity i) fill

/-- `mutable_data()[index] = value`. -/
def write (index : Nat) (value : UInt8) (fill : Fill) (s : State ι) : State ι :=
  let s' := s.mutableData i fill
  { s' with heap := s'.heap.modify i (·.write ((s'.slice i).mOffset + index) value) }

def swap (i j : ι) (s : State ι) : State ι where
  heap := s.heap.swap i j
  slice := update (update s.slice i (s.slice j)) j (s.slice i)

end State

/-! ### Calls -/

inductive Op (ι : Type) where
  | construct (i : ι) (size capacity : Nat)
  | constructFrom (i : ι) (data : Data ι) (capacity : Nat)
  | copy (i j : ι)
  | move (i j : ι)
  | setData (i : ι) (data : Data ι)
  | appendData (i : ι) (data : Data ι)
  | setSize (i : ι) (size : Nat)
  | ensureCapacity (i : ι) (newCapacity : Nat)
  | clear (i : ι)
  | slice (i j : ι) (offset length : Nat)
  | mutableData (i : ι)
  | write (i : ι) (index : Nat) (value : UInt8)
  | swap (i j : ι)

/-- The ranges a caller has to keep to. -/
def Op.InRange {ι : Type} (s : State ι) : Op ι → Prop
  | .constructFrom _ data _ | .setData _ data | .appendData _ data => data.InRange s
  | .slice _ j offset length => offset + length ≤ (s.slice j).mSize
  | .write i index _ => index < (s.slice i).mSize
  | _ => True

instance {ι : Type} (s : State ι) (op : Op ι) : Decidable (op.InRange s) := by
  cases op <;> unfold Op.InRange <;> infer_instance

section Calls

variable {ι : Type} [DecidableEq ι]

def perform (fill : Fill) (s : State ι) : Op ι → Except Fault (State ι)
  | .construct i size capacity => .ok (s.construct i size capacity fill)
  | .constructFrom i data capacity => s.constructFrom i data capacity fill
  | .copy i j => .ok (s.copy i j)
  | .move i j => .ok (s.move i j)
  | .setData i data => s.setData i data fill
  | .appendData i data => s.appendData i data fill
  | .setSize i size => .ok (s.setSize i size fill)
  | .ensureCapacity i newCapacity => .ok (s.ensureCapacity i newCapacity fill)
  | .clear i => .ok (s.clear i fill)
  | .slice i j offset length => .ok (s.sliceOf i j offset length)
  | .mutableData i => .ok (s.mutableData i fill)
  | .write i index value => .ok (s.write i index value fill)
  | .swap i j => .ok (s.swap i j)

/-- The handles as a service: a call is answered with what every handle then shows. -/
def handles : Transition.Service (State ι) (Op ι × Fill) (ι → List UInt8) Fault where
  init := .init
  step s call :=
    if call.1.InRange s then (perform call.2 s call.1).map fun t => (t, t.shows)
    else .error .outOfRange

end Calls

end SharedBuffer

end CxxKit
