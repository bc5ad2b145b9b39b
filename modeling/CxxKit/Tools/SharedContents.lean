import CxxKit.Tools.SharedBuffer

/-!
`SharedBuffer` handles behave as independent lists of bytes.

`ListStep l op l'` is what a call does to a family of lists that share nothing; only
the bytes that a new or a growing buffer exposes are left open.  The handles are
`Sound` when every count is exact and every slice lies in the buffer it is a slice
of.  Each call below keeps a family sound and changes what it shows as `ListStep` says,
because a block is written in place only through its sole reference.

`Op.Separate` excludes the calls that are given a handle's own bytes and destroy them
before they have copied them.
-/

namespace CxxKit

open Buffer Function List Option Window

/-! ### Buffers -/

namespace Buffer

variable {b : Buffer} {fill : Fill} {data : List UInt8} {o n size : Nat}

variable (capacity : Nat)

theorem window_ensureCapacityWithHeadroom (fill : Fill) (h : o + n ≤ b.mSize) :
    window o n (b.ensureCapacityWithHeadroom capacity fill).mData = window o n b.mData := by
  unfold ensureCapacityWithHeadroom
  split
  · rfl
  · have hlen : (b.mData.take b.mSize).length = b.mSize := by
      rw [length_take, Nat.min_eq_left b.bounded]
    rw [window_append_left (by omega), window_take h]

theorem mData_setSize (h : size ≤ b.capacity) : (b.setSize size fill).mData = b.mData := by
  show (b.ensureCapacityWithHeadroom size fill).mData = b.mData
  rw [ensureCapacityWithHeadroom, if_pos h]

theorem mSize_appendData : (b.appendData data fill).mSize = b.mSize + data.length := by
  unfold appendData
  split
  next h => rw [h, Nat.add_zero]
  next h => rfl

/-- What is appended follows what the buffer ends in. -/
theorem window_appendData (data : List UInt8) (fill : Fill) (hsize : b.mSize = o + n) :
    window o (n + data.length) (b.appendData data fill).mData = window o n b.mData ++ data := by
  unfold appendData
  split
  next h => rw [h, length_eq_zero_iff.mp h, append_nil, Nat.add_zero]
  next h =>
    have hroom := b.le_capacity_ensureCapacityWithHeadroom (b.mSize + data.length) fill
    have hkept := window_ensureCapacityWithHeadroom (b.mSize + data.length) fill
      (Nat.le_of_eq hsize.symm)
    dsimp only
    rw [hsize] at hroom hkept ⊢
    rw [window_overwrite (by omega), hkept]

theorem window_ofBytes : window 0 data.length (ofBytes data capacity fill).mData = data := by
  have h := @window_overwrite _ 0 0 (uninitialised fill (max data.length capacity)) data
    (Nat.zero_le _)
  rwa [Nat.zero_add, window_zero_right] at h

theorem le_capacity_ofBytes : capacity ≤ (ofBytes data capacity fill).capacity := by
  show capacity ≤ (overwrite 0 data (uninitialised fill (max data.length capacity))).length
  rw [length_overwrite] <;> rw [length_uninitialised] <;> omega

end Buffer

namespace SharedBuffer

/-! ### Independent lists -/

section Lists

variable {ι : Type} [DecidableEq ι]

omit [DecidableEq ι] in
/-- The bytes a call is given, if the handles show `l`. -/
def Data.read (l : ι → List UInt8) : Data ι → List UInt8
  | .bytes data => data
  | .view j offset length => window offset length (l j)

/-- What a call does to independent lists. -/
def ListStep (l : ι → List UInt8) (op : Op ι) (l' : ι → List UInt8) : Prop :=
  match op with
  | .construct i size _ => ∃ exposed, exposed.length = size ∧ l' = update l i exposed
  | .constructFrom i data _ => l' = update l i (data.read l)
  | .copy i j => l' = update l i (l j)
  | .move i j => l' = update (update l i (l j)) j []
  | .setData i data => l' = update l i (data.read l)
  | .appendData i data => l' = update l i (l i ++ data.read l)
  | .setSize i size =>
    ∃ exposed, exposed.length = size - (l i).length ∧
      l' = update l i ((l i).take size ++ exposed)
  | .ensureCapacity _ _ => l' = l
  | .clear i => l' = update l i []
  | .slice i j offset length => l' = update l i (window offset length (l j))
  | .mutableData _ => l' = l
  | .write i index value => l' = update l i ((l i).set index value)
  | .swap i j => l' = update (update l i (l j)) j (l i)

end Lists

/-! ### Sound families -/

/-- The bytes of a slice. -/
def Slice.read (w : Slice) : Option Buffer → List UInt8
  | none => []
  | some b => window w.mOffset w.mSize b.mData

def Slice.Fits (w : Slice) : Option Buffer → Prop
  | none => w = ⟨0, 0⟩
  | some b => w.mOffset + w.mSize ≤ b.mSize

namespace State

variable {ι : Type} {s t : State ι} {i j : ι}

theorem shows_eq_read (s : State ι) (i : ι) : s.shows i = (s.slice i).read (s.heap.value? i) := by
  unfold shows
  cases s.heap.value? i with
  | none => rfl
  | some b => rfl

variable {b : Buffer} {w : Slice}

theorem shows_of_value (hb : s.heap.value? i = some b) :
    s.shows i = window (s.slice i).mOffset (s.slice i).mSize b.mData := by
  rw [shows_eq_read, hb, Slice.read]

theorem shows_of_none (h : s.heap.value? i = none) : s.shows i = [] := by
  rw [shows_eq_read, h]
  rfl

theorem capacity_of_value (hb : s.heap.value? i = some b) :
    s.capacity i = b.capacity - (s.slice i).mOffset := by
  rw [capacity, hb]

variable [Fintype ι]

/-- Every count is exact, and every slice lies in its buffer. -/
structure Sound (s : State ι) : Prop where
  exact : Counted.Exact s.heap
  fits : ∀ i, (s.slice i).Fits (s.heap.value? i)

theorem Sound.inside (hs : s.Sound) (hb : s.heap.value? i = some b) :
    (s.slice i).mOffset + (s.slice i).mSize ≤ b.mSize := by
  have h := hs.fits i
  rwa [hb] at h

theorem Sound.length_shows (hs : s.Sound) (i : ι) : (s.shows i).length = (s.slice i).mSize := by
  have hfits := hs.fits i
  rw [shows_eq_read]
  cases hb : s.heap.value? i with
  | none =>
    rw [hb] at hfits
    rw [show s.slice i = ⟨0, 0⟩ from hfits]
    rfl
  | some b =>
    rw [hb] at hfits
    exact length_window (Nat.le_trans hfits b.bounded)

theorem Sound.mSize_le_capacity (hs : s.Sound) (hb : s.heap.value? i = some b) :
    (s.slice i).mSize ≤ s.capacity i := by
  have hin := hs.inside hb
  have hbound : b.mSize ≤ b.capacity := b.bounded
  rw [capacity_of_value hb]
  omega

theorem sound_init : (State.init : State ι).Sound where
  exact :=
    { counted := nofun
      placed := nofun
      fresh := fun _ _ => rfl }
  fits _ := rfl

variable [DecidableEq ι]

omit [DecidableEq ι] in
theorem sound_of_slices {l : ι → List UInt8} (hx : Counted.Exact t.heap)
    (h : ∀ k, (t.slice k).Fits (t.heap.value? k) ∧ (t.slice k).read (t.heap.value? k) = l k) :
    t.Sound ∧ t.shows = l :=
  ⟨⟨hx, fun k => (h k).1⟩, funext fun k => (shows_eq_read t k).trans (h k).2⟩

/-- `t` is sound, and shows what `s` shows but for `x` at `i`. -/
structure Becomes (s : State ι) (i : ι) (x : List UInt8) (t : State ι) : Prop where
  sound : t.Sound
  shows : t.shows = update s.shows i x

section

variable (hs : s.Sound)

include hs

theorem Sound.becomes {v : Option Buffer} (hx : Counted.Exact t.heap)
    (hvalue : t.heap.value? = update s.heap.value? i v)
    (hslice : t.slice = update s.slice i w) (hfits : w.Fits v) :
    s.Becomes i (w.read v) t := by
  have h := sound_of_slices (l := update s.shows i (w.read v)) hx fun k => by
    rw [hvalue, hslice]
    by_cases hk : k = i
    · rw [hk, update_self, update_self, update_self]
      exact ⟨hfits, rfl⟩
    · rw [update_of_ne hk, update_of_ne hk, update_of_ne hk]
      exact ⟨hs.fits k, (shows_eq_read s k).symm⟩
  exact ⟨h.1, h.2⟩

theorem Sound.install (hfits : w.mOffset + w.mSize ≤ b.mSize) :
    s.Becomes i (window w.mOffset w.mSize b.mData) (s.install i b w) :=
  hs.becomes (v := some b) (hs.exact.adopt i b) (hs.exact.value?_adopt i b) rfl hfits

/-- A buffer made of the bytes a call is given. -/
theorem Sound.install_ofBytes (data : List UInt8) (capacity : Nat) (fill : Fill) :
    s.Becomes i data (s.install i (.ofBytes data capacity fill) ⟨0, data.length⟩) := by
  have h := hs.install (i := i) (b := .ofBytes data capacity fill) (w := ⟨0, data.length⟩)
    (Nat.le_of_eq (Nat.zero_add _))
  rwa [window_ofBytes] at h

/-- A buffer of fresh storage shows as many bytes as it is asked to. -/
theorem Sound.install_alloc (size capacity : Nat) (fill : Fill) : ∃ exposed, exposed.length = size ∧
      s.Becomes i exposed (s.install i (.alloc size capacity fill) ⟨0, size⟩) := by
  have hmade := hs.install (i := i) (b := .alloc size capacity fill) (w := ⟨0, size⟩)
    (Nat.le_of_eq (Nat.zero_add _))
  refine ⟨_, length_window ?_, hmade⟩
  show 0 + size ≤ (uninitialised fill (max size capacity)).length
  rw [length_uninitialised]
  omega

/-- A change in place through the only reference. -/
theorem Sound.modify (f : Buffer → Buffer) (w : Slice)
    (hone : s.heap.hasOneRef i = true) (hb : s.heap.value? i = some b)
    (hfits : w.mOffset + w.mSize ≤ (f b).mSize) :
    s.Becomes i (window w.mOffset w.mSize (f b).mData)
      { heap := s.heap.modify i f, slice := update s.slice i w } := by
  have hvalue := hs.exact.value?_modify f hone
  rw [hb] at hvalue
  exact hs.becomes (v := some (f b)) (hs.exact.modify i f) hvalue rfl hfits

/-- A reference to what `j` refers to, with a slice of its own. -/
theorem Sound.assign (i j : ι) (hfits : w.Fits (s.heap.value? j)) :
    s.Becomes i (w.read (s.heap.value? j))
      { heap := s.heap.assign i (s.heap.ptr j), slice := update s.slice i w } :=
  hs.becomes (hs.exact.assign i fun a ha => hs.exact.placed j a ha)
    (hs.exact.value?_assign i (s.heap.ptr j)) rfl hfits

theorem Sound.reset (i : ι) :
    s.Becomes i [] { heap := s.heap.assign i none, slice := update s.slice i ⟨0, 0⟩ } :=
  hs.becomes (v := none) (hs.exact.assign i nofun) (hs.exact.value?_assign i none) rfl rfl

/-- A handle may show less of its buffer, or more. -/
theorem Sound.reslice (hb : s.heap.value? i = some b) (hfits : w.mOffset + w.mSize ≤ b.mSize) :
    s.Becomes i (window w.mOffset w.mSize b.mData)
      { s with slice := update s.slice i w } := by
  have hvalue : s.heap.value? = update s.heap.value? i (some b) := by
    rw [← hb, update_eq_self]
  exact hs.becomes (v := some b) hs.exact hvalue rfl hfits

end

theorem Becomes.self (h : s.Becomes i (s.shows i) t) : t.shows = s.shows := by
  rw [h.shows, update_eq_self]

/-! ### `unshare_and_ensure_capacity` -/

omit [Fintype ι] in
theorem unshare_cases (hb : s.heap.value? i = some b) (newCapacity : Nat) (fill : Fill) :
    (s.heap.hasOneRef i = true ∧ newCapacity ≤ s.capacity i ∧
        s.unshareAndEnsureCapacity i newCapacity fill = s) ∨
      (¬ (s.heap.hasOneRef i = true ∧ newCapacity ≤ s.capacity i) ∧
        s.unshareAndEnsureCapacity i newCapacity fill =
          s.install i (.ofBytes (s.shows i) newCapacity fill) ⟨0, (s.slice i).mSize⟩) := by
  unfold unshareAndEnsureCapacity
  rw [hb, shows_of_value hb]
  dsimp only
  by_cases h : s.heap.hasOneRef i = true ∧ newCapacity ≤ s.capacity i
  · rw [if_pos h]
    exact .inl ⟨h.1, h.2, rfl⟩
  · rw [if_neg h]
    exact .inr ⟨h, rfl⟩

/-- What holds once the block of `i` is its own and has room for `newCapacity` bytes. -/
structure Unshared (s : State ι) (i : ι) (newCapacity : Nat) (t : State ι) : Prop where
  sound : t.Sound
  shows : t.shows = s.shows
  one : t.heap.hasOneRef i = true
  held : ∃ b, t.heap.value? i = some b
  size : (t.slice i).mSize = (s.slice i).mSize
  room : newCapacity ≤ t.capacity i

theorem Sound.unshared (hs : s.Sound) (hb : s.heap.value? i = some b)
    (newCapacity : Nat) (fill : Fill) :
    s.Unshared i newCapacity (s.unshareAndEnsureCapacity i newCapacity fill) := by
  rcases unshare_cases hb newCapacity fill with ⟨hone, hroom, heq⟩ | ⟨_, heq⟩
  · rw [heq]
    exact ⟨hs, rfl, hone, ⟨b, hb⟩, rfl, hroom⟩
  · have hmade := hs.install_ofBytes (i := i) (s.shows i) newCapacity fill
    rw [hs.length_shows] at hmade
    have hnew := congrFun (hs.exact.value?_adopt i (.ofBytes (s.shows i) newCapacity fill)) i
    rw [update_self] at hnew
    have hslice : (s.install i (.ofBytes (s.shows i) newCapacity fill)
        ⟨0, (s.slice i).mSize⟩).slice i = ⟨0, (s.slice i).mSize⟩ := update_self ..
    rw [heq]
    refine ⟨hmade.sound, hmade.self, hs.exact.hasOneRef_adopt i _, ⟨_, hnew⟩, ?_, ?_⟩
    · rw [hslice]
    · rw [capacity_of_value hnew, hslice]
      exact le_capacity_ofBytes newCapacity

/-! ### The bytes a call is given -/

omit [DecidableEq ι] in
theorem Sound.shows_of_ptr_none (hs : s.Sound) (hj : s.heap.ptr j = none) :
    s.slice j = ⟨0, 0⟩ ∧ s.shows j = [] := by
  have hnone := hs.exact.value?_eq_none.mpr hj
  have hfits := hs.fits j
  rw [hnone] at hfits
  exact ⟨hfits, shows_of_none hnone⟩

omit [DecidableEq ι] in
/-- The pointer of a call is to the bytes it is given. -/
theorem Sound.pointer_reads (hs : s.Sound) {data : Data ι} (hdata : data.InRange s) :
    (s.pointer data).length = (data.read s.shows).length ∧
      load s.heap (s.pointer data) = .ok (data.read s.shows) := by
  cases data with
  | bytes data => exact ⟨rfl, rfl⟩
  | view j offset length =>
    have hrange : offset + length ≤ (s.slice j).mSize := hdata
    cases hj : s.heap.ptr j with
    | none =>
      have hnone := (hs.shows_of_ptr_none hj).2
      rw [pointer, hj]
      dsimp only [Data.read]
      rw [hnone, window, drop_nil, take_nil]
      exact ⟨rfl, rfl⟩
    | some a =>
      obtain ⟨b, hat, hb⟩ := hs.exact.value?_eq_some hj
      rw [pointer, hj]
      constructor
      · refine (length_window ?_).symm
        rw [hs.length_shows]
        exact hrange
      · dsimp only [Data.read, load]
        rw [hat, shows_of_value hb, window_window hrange]

omit [DecidableEq ι] in
/-- The bytes in storage that a change leaves alone are still there after it. -/
theorem load_modify (hx : Counted.Exact s.heap) {f : Buffer → Buffer}
    (hb : s.heap.value? i = some b) (hkeep : (f b).mData = b.mData) (p : Pointer) :
    load (s.heap.modify i f) p = load s.heap p := by
  cases p with
  | bytes data => rfl
  | block a position length =>
    cases hi : s.heap.ptr i with
    | none =>
      rw [hx.value?_eq_none.mpr hi] at hb
      cases hb
    | some a' =>
      have hat : s.heap.valueAt a' = some b := by rwa [Counted.Heap.value?, hi] at hb
      simp only [load, Counted.Exact.valueAt_modify f hi]
      by_cases ha : a = a'
      · rw [if_pos ha, ha, hat, map_some]
        dsimp only
        rw [hkeep]
      · rw [if_neg ha]

omit [DecidableEq ι] in
/-- Bytes in the block of a sole reference are bytes of that reference's handle. -/
theorem Sound.eq_of_hasOneRef (hs : s.Sound) {a : Nat} (hi : s.heap.ptr i = some a)
    (hone : s.heap.hasOneRef i = true) (hj : s.heap.ptr j = some a) : j = i := by
  by_contra hji
  exact hs.exact.ptr_ne_of_hasOneRef hi hone hji hj

end State

/-- The call copies no bytes that it destroys.  Given its own bytes, a handle that is
the only one of its block needs room for them behind its own when it appends, and
has to find them behind where they go when it is set to them. -/
def Op.Separate {ι : Type} (s : State ι) : Op ι → Prop
  | .setData i (.view j offset length) =>
    i = j → s.heap.hasOneRef i = true → length ≤ (s.slice i).mOffset + offset
  | .appendData i (.view j _ length) =>
    i = j → s.heap.hasOneRef i = true → (s.slice i).mSize + length ≤ s.capacity i
  | _ => True

namespace State

variable {ι : Type} {s t : State ι} {i j : ι} [Fintype ι] [DecidableEq ι]

variable {b : Buffer} {data : Data ι} {bytes : List UInt8}

theorem appendInPlace_spec {heap : Counted.Heap ι Buffer} (hx : Counted.Exact heap) {p : Pointer}
    (fill : Fill) (hone : heap.hasOneRef i = true) (hb : heap.value? i = some b)
    (hload : load heap p = .ok bytes) (hlen : p.length = bytes.length)
    (hroom : p.Inside (heap.ptr i) → b.mSize + p.length ≤ b.capacity)
    (hapart : ¬ p.Overlaps (heap.ptr i) b.mSize) :
    ∃ heap', appendInPlace i p fill heap = .ok heap' ∧ Counted.Exact heap' ∧
      heap'.value? = update heap.value? i (some (b.appendData bytes fill)) := by
  simp only [appendInPlace, hb]
  by_cases hzero : p.length = 0
  · have hsame : b.appendData bytes fill = b := by
      rw [Buffer.appendData, if_pos (hlen ▸ hzero)]
    rw [if_pos hzero, hsame, ← hb, update_eq_self]
    exact ⟨heap, rfl, hx, rfl⟩
  · have hstays : ¬ (p.Inside (heap.ptr i) ∧ b.capacity < b.mSize + p.length) := by
      rintro ⟨hin, hgrows⟩
      have := hroom hin
      omega
    have hvalue := hx.value?_modify (·.appendData bytes fill) hone
    rw [hb] at hvalue
    rw [if_neg hzero, if_neg hstays, if_neg hapart, hload]
    exact ⟨_, rfl, hx.modify i _, hvalue⟩

/-- A block that ends where the slice does shows what is appended to it. -/
theorem Sound.appended (hs : s.Sound) {heap' : Counted.Heap ι Buffer} {w : Slice} {fill : Fill}
    (hx : Counted.Exact heap')
    (hvalue : heap'.value? = update s.heap.value? i (some (b.appendData bytes fill)))
    (hsize : b.mSize = w.mOffset + w.mSize) :
    s.Becomes i (window w.mOffset w.mSize b.mData ++ bytes)
      ⟨heap', update s.slice i ⟨w.mOffset, w.mSize + bytes.length⟩⟩ := by
  rw [← window_appendData bytes fill hsize]
  refine hs.becomes (v := some (b.appendData bytes fill)) (w := ⟨w.mOffset, w.mSize + bytes.length⟩)
    hx hvalue rfl ?_
  show w.mOffset + (w.mSize + bytes.length) ≤ (b.appendData bytes fill).mSize
  rw [mSize_appendData, hsize, Nat.add_assoc]

/-- Unsharing a handle leaves the bytes to append where they are, and in front of the
place they are copied to. -/
theorem Sound.pointer_unshared (hs : s.Sound) (hb : s.heap.value? i = some b)
    (fill : Fill) (newCapacity : Nat) (hdata : data.InRange s)
    (hsep : (Op.appendData i data).Separate s)
    (hcap : newCapacity = max (s.capacity i) ((s.slice i).mSize + (s.pointer data).length)) :
    let s' := s.unshareAndEnsureCapacity i newCapacity fill
    load s'.heap (s.pointer data) = load s.heap (s.pointer data) ∧
      ¬ (s.pointer data).Overlaps (s'.heap.ptr i)
        ((s'.slice i).mOffset + (s'.slice i).mSize) := by
  cases data with
  | bytes data => exact ⟨rfl, id⟩
  | view j offset length =>
    have hrange : offset + length ≤ (s.slice j).mSize := hdata
    cases hj : s.heap.ptr j with
    | none =>
      rw [pointer, hj]
      exact ⟨rfl, id⟩
    | some a =>
      rw [pointer, hj] at hcap ⊢
      rcases unshare_cases hb newCapacity fill with ⟨hone, _, heq⟩ | ⟨hmoved, heq⟩
      · rw [heq]
        refine ⟨rfl, ?_⟩
        rintro ⟨hi, _, hbehind⟩
        rw [hs.eq_of_hasOneRef hi hone hj] at hrange hbehind
        omega
      · rw [heq]
        constructor
        · -- another handle keeps the old block alive
          have hkept : ∃ k, k ≠ i ∧ s.heap.ptr k = some a := by
            by_cases hji : j = i
            · subst hji
              cases hone : s.heap.hasOneRef j with
              | false => exact hs.exact.exists_ptr_of_not_hasOneRef hj hone
              | true =>
                have hroom : (s.slice j).mSize + length ≤ s.capacity j := hsep rfl hone
                have hle : newCapacity ≤ s.capacity j := by
                  rw [hcap]
                  exact max_le (Nat.le_refl _) hroom
                exact absurd ⟨hone, hle⟩ hmoved
            · exact ⟨j, hji, hj⟩
          obtain ⟨k, hki, hk⟩ := hkept
          have hat := hs.exact.valueAt_adopt (.ofBytes (s.shows i) newCapacity fill) hki hk
          simp only [load, State.install, hat]
        · rintro ⟨hi, _⟩
          have hnew : (s.heap.adopt i (.ofBytes (s.shows i) newCapacity fill)).ptr i =
              some s.heap.next := update_self ..
          exact hs.exact.ptr_ne_next j (hj.trans (hi.symm.trans hnew))

section

variable (hs : s.Sound)

include hs

omit [DecidableEq ι] in
/-- Setting a handle to bytes of its own copies them to in front of where they are. -/
theorem Sound.pointer_set (hb : s.heap.value? i = some b)
    (hone : s.heap.hasOneRef i = true) (hdata : data.InRange s)
    (hsep : (Op.setData i data).Separate s) :
    ((s.pointer data).Inside (s.heap.ptr i) → (s.pointer data).length ≤ b.capacity) ∧
      ¬ (s.pointer data).Overlaps (s.heap.ptr i) 0 := by
  cases data with
  | bytes data => exact ⟨False.elim, id⟩
  | view j offset length =>
    have hrange : offset + length ≤ (s.slice j).mSize := hdata
    cases hj : s.heap.ptr j with
    | none =>
      rw [pointer, hj]
      exact ⟨False.elim, id⟩
    | some a =>
      rw [pointer, hj]
      constructor
      · intro hi
        have hsize := hs.mSize_le_capacity hb
        rw [hs.eq_of_hasOneRef hi hone hj] at hrange
        rw [capacity_of_value hb] at hsize
        show length ≤ b.capacity
        omega
      · rintro ⟨hi, hfront, _⟩
        obtain rfl := hs.eq_of_hasOneRef hi hone hj
        have hbehind := hsep rfl hone
        omega

/-! ### The calls -/

variable (i)

variable (fill : Fill)

theorem Sound.construct (size capacity : Nat) (fill : Fill) : ∃ exposed, exposed.length = size ∧
      s.Becomes i exposed (s.construct i size capacity fill) := by
  unfold State.construct
  split
  · exact hs.install_alloc size capacity fill
  next h =>
    obtain rfl : size = 0 := by omega
    exact ⟨[], rfl, hs.reset i⟩

theorem Sound.constructFrom (capacity : Nat) (fill : Fill) (hdata : data.InRange s) :
    ∃ t, s.constructFrom i data capacity fill = .ok t ∧ s.Becomes i (data.read s.shows) t := by
  unfold State.constructFrom
  dsimp only
  obtain ⟨hlen, hload⟩ := hs.pointer_reads hdata
  rw [hload, hlen]
  split
  · exact ⟨_, rfl, hs.install_ofBytes _ capacity fill⟩
  next h =>
    have hnil : data.read s.shows = [] := length_eq_zero_iff.mp (by omega)
    rw [hnil]
    exact ⟨_, rfl, hs.reset i⟩

theorem Sound.copy (i j : ι) : s.Becomes i (s.shows j) (s.copy i j) := by
  unfold State.copy
  split
  next h =>
    refine ⟨hs, ?_⟩
    rw [h, update_eq_self]
  next h =>
    have hcopied := hs.assign i j (hs.fits j)
    rwa [← shows_eq_read] at hcopied

theorem Sound.sliceOf (i j : ι) {offset length : Nat}
    (hrange : offset + length ≤ (s.slice j).mSize) :
    s.Becomes i (window offset length (s.shows j)) (s.sliceOf i j offset length) := by
  have hfits := hs.fits j
  have hread : window offset length (s.shows j) =
      (⟨(s.slice j).mOffset + offset, length⟩ : Slice).read (s.heap.value? j) := by
    rw [shows_eq_read]
    cases s.heap.value? j with
    | none => simp [Slice.read, window]
    | some b => exact window_window hrange
  rw [hread]
  refine hs.assign i j ?_
  cases hb : s.heap.value? j with
  | none =>
    rw [hb] at hfits
    rw [show s.slice j = ⟨0, 0⟩ from hfits] at hrange ⊢
    obtain ⟨rfl, rfl⟩ : offset = 0 ∧ length = 0 := by
      constructor <;> exact Nat.eq_zero_of_le_zero (by dsimp only at hrange; omega)
    rfl
  | some b =>
    have hin := hs.inside hb
    show (s.slice j).mOffset + offset + length ≤ b.mSize
    omega

theorem Sound.move (i j : ι) : (s.move i j).Sound ∧
      (s.move i j).shows = update (update s.shows i (s.shows j)) j [] := by
  refine sound_of_slices (hs.exact.transfer i j) fun k => ?_
  simp only [State.move, hs.exact.value?_transfer]
  by_cases hkj : k = j
  · rw [hkj, update_self, update_self]
    cases update (update s.heap.value? j none) i (s.heap.value? j) j with
    | none => exact ⟨rfl, rfl⟩
    | some b => exact ⟨Nat.zero_le _, window_zero_right⟩
  · rw [update_of_ne hkj, update_of_ne hkj]
    by_cases hki : k = i
    · rw [hki, update_self, update_self, update_self]
      exact ⟨hs.fits j, (shows_eq_read s j).symm⟩
    · rw [update_of_ne hki, update_of_ne hki, update_of_ne hki, update_of_ne hkj]
      exact ⟨hs.fits k, (shows_eq_read s k).symm⟩

theorem Sound.swap (i j : ι) : (s.swap i j).Sound ∧
      (s.swap i j).shows =
        update (update s.shows i (s.shows j)) j (s.shows i) := by
  refine sound_of_slices (hs.exact.swap i j) fun k => ?_
  simp only [State.swap, hs.exact.value?_swap]
  by_cases hkj : k = j
  · rw [hkj, update_self, update_self, update_self]
    exact ⟨hs.fits i, (shows_eq_read s i).symm⟩
  · rw [update_of_ne hkj, update_of_ne hkj, update_of_ne hkj]
    by_cases hki : k = i
    · rw [hki, update_self, update_self, update_self]
      exact ⟨hs.fits j, (shows_eq_read s j).symm⟩
    · rw [update_of_ne hki, update_of_ne hki, update_of_ne hki]
      exact ⟨hs.fits k, (shows_eq_read s k).symm⟩

theorem Sound.ensureCapacity (newCapacity : Nat) (fill : Fill) :
    (s.ensureCapacity i newCapacity fill).Sound ∧
      (s.ensureCapacity i newCapacity fill).shows = s.shows := by
  unfold State.ensureCapacity
  split
  next hnone =>
    split
    · obtain ⟨exposed, hlen, hmade⟩ := hs.install_alloc 0 newCapacity fill
      have hshown : exposed = s.shows i := by
        rw [shows_of_none hnone, length_eq_zero_iff.mp hlen]
      exact ⟨hmade.sound, (hshown ▸ hmade).self⟩
    · exact ⟨hs, rfl⟩
  next b hb =>
    split
    · exact ⟨hs, rfl⟩
    · have hown := hs.unshared hb newCapacity fill
      exact ⟨hown.sound, hown.shows⟩

theorem Sound.clear : s.Becomes i [] (s.clear i fill) := by
  unfold State.clear
  split
  next hnone =>
    refine ⟨hs, ?_⟩
    rw [← shows_of_none hnone, update_eq_self]
  next b hb =>
    split
    next hone =>
      have hcleared := hs.modify Buffer.clear ⟨0, 0⟩ hone hb (Nat.le_refl _)
      rwa [window_zero_right] at hcleared
    next =>
      obtain ⟨exposed, hlen, hmade⟩ := hs.install_alloc 0 (s.capacity i) fill
      rwa [length_eq_zero_iff.mp hlen] at hmade

theorem Sound.mutableData :
    (s.mutableData i fill).Sound ∧ (s.mutableData i fill).shows = s.shows := by
  unfold State.mutableData
  split
  · exact ⟨hs, rfl⟩
  next b hb =>
    have hown := hs.unshared hb (s.capacity i) fill
    exact ⟨hown.sound, hown.shows⟩

theorem Sound.write {index : Nat} (value : UInt8) (fill : Fill)
    (hindex : index < (s.slice i).mSize) :
    s.Becomes i ((s.shows i).set index value) (s.write i index value fill) := by
  cases hb : s.heap.value? i with
  | none =>
    have hfits := hs.fits i
    rw [hb] at hfits
    rw [show s.slice i = ⟨0, 0⟩ from hfits] at hindex
    exact absurd hindex (Nat.not_lt_zero index)
  | some b =>
    have hunshare : s.mutableData i fill = s.unshareAndEnsureCapacity i (s.capacity i) fill := by
      rw [State.mutableData, hb]
    have hown := hs.unshared hb (s.capacity i) fill
    obtain ⟨b', hb'⟩ := hown.held
    let s' := s.unshareAndEnsureCapacity i (s.capacity i) fill
    let f : Buffer → Buffer := (·.write ((s'.slice i).mOffset + index) value)
    have hin : (s'.slice i).mOffset + (s'.slice i).mSize ≤ b'.mSize := hown.sound.inside hb'
    have hwritten := hown.sound.modify f (s'.slice i) hown.one hb' hin
    have hbytes : window (s'.slice i).mOffset (s'.slice i).mSize (f b').mData =
        (s.shows i).set index value := by
      rw [← congrFun hown.shows i, shows_of_value hb']
      exact window_set value
    rw [hbytes, update_eq_self] at hwritten
    have hstate : s.write i index value fill = { s' with heap := s'.heap.modify i f } := by
      rw [State.write, hunshare]
    rw [hstate]
    exact ⟨hwritten.sound, by rw [hwritten.shows, hown.shows]⟩

theorem Sound.setSize (size : Nat) (fill : Fill) :
    ∃ exposed, exposed.length = size - (s.shows i).length ∧
      s.Becomes i ((s.shows i).take size ++ exposed) (s.setSize i size fill) := by
  unfold State.setSize
  split
  next hnone =>
    have hnil := shows_of_none hnone
    rw [hnil, take_nil]
    split
    · exact hs.install_alloc size size fill
    next h =>
      obtain rfl : size = 0 := by omega
      refine ⟨[], rfl, hs, ?_⟩
      rw [append_nil, ← hnil, update_eq_self]
  next b hb =>
    rw [hs.length_shows]
    split
    next hle =>
      have hcut := hs.reslice (w := ⟨(s.slice i).mOffset, size⟩) hb
        (Nat.le_trans (Nat.add_le_add_left hle _) (hs.inside hb))
      refine ⟨[], (Nat.sub_eq_zero_of_le hle).symm, ?_⟩
      rwa [append_nil, shows_of_value hb, take_window hle]
    next hgrows =>
      have hown := hs.unshared hb (max (s.capacity i) size) fill
      obtain ⟨b', hb'⟩ := hown.held
      let s' := s.unshareAndEnsureCapacity i (max (s.capacity i) size) fill
      let w := s'.slice i
      have hsize : w.mSize = (s.slice i).mSize := hown.size
      have hroom : size + w.mOffset ≤ b'.capacity := by
        have hcap : max (s.capacity i) size ≤ b'.capacity - w.mOffset := by
          have := hown.room
          rwa [capacity_of_value hb'] at this
        omega
      have hset := hown.sound.modify (·.setSize (size + w.mOffset) fill) ⟨w.mOffset, size⟩
        hown.one hb' (Nat.le_of_eq (Nat.add_comm _ _))
      rw [mData_setSize hroom] at hset
      -- the slice keeps its bytes and shows what the storage holds behind them
      have hgrown : window w.mOffset size b'.mData =
          (s.shows i).take size ++
            window (w.mOffset + w.mSize) (size - (s.slice i).mSize) b'.mData := by
        have hall : (s.shows i).take size = window w.mOffset w.mSize b'.mData := by
          rw [take_of_length_le (by rw [hs.length_shows]; omega), ← congrFun hown.shows i,
            shows_of_value hb']
        rw [hall, ← window_add]
        congr 1
        omega
      rw [hgrown] at hset
      refine ⟨_, length_window ?_, hset.sound, by rw [hset.shows, hown.shows]⟩
      have hlen : b'.mData.length = b'.capacity := rfl
      omega

theorem Sound.setData (hdata : data.InRange s) (hsep : (Op.setData i data).Separate s) :
    ∃ t, s.setData i data fill = .ok t ∧ s.Becomes i (data.read s.shows) t := by
  obtain ⟨hlen, hread⟩ := hs.pointer_reads hdata
  unfold State.setData
  dsimp only
  split
  next hnone =>
    rw [hread, hlen]
    split
    · exact ⟨_, rfl, hs.install_ofBytes _ _ fill⟩
    next h =>
      have hnil : data.read s.shows = [] := length_eq_zero_iff.mp (by omega)
      rw [hnil]
      exact ⟨_, rfl, hs.reset i⟩
  next b hb =>
    split
    · rw [hread, hlen]
      exact ⟨_, rfl, hs.install_ofBytes _ _ fill⟩
    next hone =>
      have hone : s.heap.hasOneRef i = true := eq_true_of_ne_false hone
      have hcleared := hs.exact.value?_modify Buffer.clear hone
      have hself : (s.heap.modify i Buffer.clear).value? i = some b.clear := by
        rw [hcleared, update_self, hb, map_some]
      have hload : load (s.heap.modify i Buffer.clear) (s.pointer data) =
          .ok (data.read s.shows) := by
        rw [load_modify hs.exact hb rfl, hread]
      obtain ⟨hfree, hapart⟩ := hs.pointer_set hb hone hdata hsep
      rw [← Counted.Exact.ptr_modify i Buffer.clear] at hfree hapart
      obtain ⟨heap', hok, hx, hvalue⟩ := appendInPlace_spec (hs.exact.modify i Buffer.clear) fill
        ((Counted.Exact.hasOneRef_modify Buffer.clear).trans hone) hself hload hlen
        (fun hin => Nat.le_trans (Nat.le_of_eq (Nat.zero_add _)) (hfree hin)) hapart
      rw [hcleared, update_idem] at hvalue
      have hset := hs.appended (w := ⟨0, 0⟩) hx hvalue rfl
      rw [Nat.zero_add] at hset
      rw [hok, hlen]
      exact ⟨_, rfl, hset⟩

theorem Sound.appendData (hdata : data.InRange s) (hsep : (Op.appendData i data).Separate s) :
    ∃ t, s.appendData i data fill = .ok t ∧ s.Becomes i (s.shows i ++ data.read s.shows) t := by
  obtain ⟨hlen, hread⟩ := hs.pointer_reads hdata
  unfold State.appendData
  dsimp only
  split
  next hnone =>
    have hnil := shows_of_none hnone
    rw [hread, hlen, hnil]
    exact ⟨_, rfl, hs.install_ofBytes _ _ fill⟩
  next b hb =>
    generalize hcap : max (s.capacity i) ((s.slice i).mSize + (s.pointer data).length) = newCapacity
    have hown := hs.unshared hb newCapacity fill
    obtain ⟨hload, hapart⟩ := hs.pointer_unshared hb fill newCapacity hdata hsep hcap.symm
    obtain ⟨b', hb'⟩ := hown.held
    generalize s.unshareAndEnsureCapacity i newCapacity fill = s' at hown hload hapart hb' ⊢
    generalize hw : s'.slice i = w at hapart ⊢
    have hin : w.mOffset + w.mSize ≤ b'.mSize := hw ▸ hown.sound.inside hb'
    have hbound : b'.mSize ≤ b'.capacity := b'.bounded
    have hroom : w.mSize + (s.pointer data).length ≤ b'.capacity - w.mOffset := by
      have hnew := hown.room
      have hsize := hown.size
      rw [capacity_of_value hb', hw] at hnew
      rw [hw] at hsize
      omega
    have hkeep : (b'.setSize (w.mOffset + w.mSize) fill).mData = b'.mData :=
      mData_setSize (Nat.le_trans hin hbound)
    have hcut := hown.sound.exact.value?_modify (·.setSize (w.mOffset + w.mSize) fill) hown.one
    rw [hb'] at hcut
    have hself := congrFun hcut i
    rw [update_self] at hself
    rw [hread, ← load_modify hown.sound.exact hb' hkeep] at hload
    rw [← Counted.Exact.ptr_modify i (·.setSize (w.mOffset + w.mSize) fill)] at hapart
    obtain ⟨heap', hok, hx, hvalue⟩ := appendInPlace_spec (hown.sound.exact.modify i _) fill
      ((Counted.Exact.hasOneRef_modify _).trans hown.one) hself hload hlen
      (fun _ => by
        show w.mOffset + w.mSize + (s.pointer data).length ≤
          (b'.setSize (w.mOffset + w.mSize) fill).mData.length
        rw [hkeep]
        show _ ≤ b'.capacity
        omega) hapart
    rw [hcut, update_idem] at hvalue
    have hset := hown.sound.appended hx hvalue rfl
    have hshown : window w.mOffset w.mSize b'.mData = s.shows i := by
      rw [← congrFun hown.shows i, shows_of_value hb', hw]
    rw [hkeep, hshown] at hset
    rw [hok, hlen]
    exact ⟨_, rfl, hset.sound, by rw [hset.shows, hown.shows]⟩

end

end State

end SharedBuffer

end CxxKit
