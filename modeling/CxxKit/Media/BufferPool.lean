import Mathlib.Data.List.Count

/-!
A pool of frame buffers (`VideoFrameBufferPool`).

A buffer is told apart by a number that is never used again, and carries its reference count; the
references are the entries of `mBuffers` and the handles that users hold.  All buffers are
`kI420`, and an allocation succeeds.
-/

namespace CxxKit.BufferPool

open Function List UInt64

structure Buffer where
  number : Nat
  width : Int
  height : Int
  deriving DecidableEq

structure State where
  mBuffers : List Buffer
  mMaxNumberOfBuffers : UInt64
  refCount : Nat → Nat
  /-- The users' handles. -/
  held : List Nat
  next : Nat

namespace State

variable (s : State)

def init (max : UInt64) : State := ⟨[], max, fun _ => 0, [], 0⟩

def hasOneRef (b : Buffer) : Bool := s.refCount b.number == 1

/-- The pool is left with `kept`, and every entry that goes takes its reference along. -/
def erase (kept : List Buffer) : State :=
  { s with mBuffers := kept
           refCount := fun n => s.refCount n -
             ((s.mBuffers.map Buffer.number).count n - (kept.map Buffer.number).count n) }

/-- One more handle. -/
def take (n : Nat) : State :=
  { s with refCount := update s.refCount n (s.refCount n + 1), held := n :: s.held }

/-- One handle less. -/
def drop (n : Nat) : State :=
  { s with refCount := update s.refCount n (s.refCount n - 1), held := s.held.erase n }

def release : State := s.erase []

end State

/-- The erasing loop of `resize`.  Erasing a buffer changes no other one's count. -/
def purge (free : Buffer → Bool) : Nat → List Buffer → List Buffer
  | 0, bs => bs
  | _ + 1, [] => []
  | n + 1, b :: bs => if free b then purge free n bs else b :: purge free (n + 1) bs

namespace State

variable (s : State)

def usedBuffersCount : Nat := s.mBuffers.countP (!s.hasOneRef ·)

def resize (max : UInt64) : Bool × State :=
  if max.toNat < s.usedBuffersCount then (false, s)
  else
    let buffersToPurge := ofNat s.mBuffers.length - max
    (true, { s with mMaxNumberOfBuffers := max }.erase
      (purge s.hasOneRef buffersToPurge.toNat s.mBuffers))

def getExistingBuffer (width height : Int) : Option Buffer × State :=
  let s := s.erase (s.mBuffers.filter fun b => b.width == width && b.height == height)
  (s.mBuffers.find? s.hasOneRef, s)

def createI420Buffer (width height : Int) : Option Buffer × State :=
  match s.getExistingBuffer width height with
  | (some b, s) => (some b, s.take b.number)
  | (none, s) =>
    if s.mMaxNumberOfBuffers ≤ ofNat s.mBuffers.length then (none, s)
    else
      let b : Buffer := ⟨s.next, width, height⟩
      let pooled := { s with mBuffers := s.mBuffers ++ [b]
                             refCount := update s.refCount s.next 1
                             next := s.next + 1 }
      (some b, pooled.take s.next)

end State

inductive Event
  | create (width height : Int)
  | release
  | resize (max : UInt64)
  | copy (n : Nat)
  | drop (n : Nat)

def step (s : State) : Event → State
  | .create width height => (s.createI420Buffer width height).2
  | .release => s.release
  | .resize max => (s.resize max).2
  | .copy n => if n ∈ s.held then s.take n else s
  | .drop n => if n ∈ s.held then s.drop n else s

/-! ### Resizing -/

section

variable (free : Buffer → Bool)

theorem purge_sublist (n : Nat) (bs : List Buffer) : purge free n bs <+ bs := by
  fun_induction purge free n bs with
  | case1 bs => exact .refl bs
  | case2 => exact .slnil
  | case3 n b bs hfree ih => exact ih.cons b
  | case4 n b bs hfree ih => exact ih.cons_cons b

/-- The buffers in use are left. -/
theorem filter_purge (n : Nat) (bs : List Buffer) :
    (purge free n bs).filter (!free ·) = bs.filter (!free ·) := by
  fun_induction purge free n bs with
  | case1 bs => rfl
  | case2 => rfl
  | case3 n b bs hfree ih => simpa [hfree] using ih
  | case4 n b bs hfree ih => simpa [hfree] using ih

theorem length_purge (n : Nat) (bs : List Buffer) :
    (purge free n bs).length + min n (bs.countP free) = bs.length := by
  fun_induction purge free n bs with
  | case1 bs => omega
  | case2 => rfl
  | case3 n b bs hfree ih =>
    rw [countP_cons_of_pos hfree, length_cons]
    omega
  | case4 n b bs hfree ih =>
    rw [countP_cons_of_neg hfree, length_cons, length_cons]
    omega

end

/-- What `resize` is to do. -/
structure Resized (s : State) (max : UInt64) (r : Bool × State) : Prop where
  decides : r.1 = decide (s.usedBuffersCount ≤ max.toNat)
  failed : r.1 = false → r.2 = s
  kept : r.1 = true → r.2.mBuffers <+ s.mBuffers
  used : r.1 = true → r.2.mBuffers.filter (!s.hasOneRef ·) = s.mBuffers.filter (!s.hasOneRef ·)
  removed : r.1 = true →
    r.2.mBuffers.length + (s.mBuffers.length - max.toNat) = s.mBuffers.length

section

variable {s : State} {max : UInt64}

theorem length_split (s : State) :
    s.mBuffers.length = s.mBuffers.countP s.hasOneRef + s.usedBuffersCount := by
  simp [State.usedBuffersCount, length_eq_countP_add_countP s.hasOneRef (l := s.mBuffers)]

theorem resize_of_le (h : s.usedBuffersCount ≤ max.toNat) :
    s.resize max = (true, { s with mMaxNumberOfBuffers := max }.erase
      (purge s.hasOneRef (ofNat s.mBuffers.length - max).toNat s.mBuffers)) :=
  if_neg (Nat.not_lt.mpr h)

/-- How many buffers are left: where the limit is above the number of pooled buffers, the
difference wraps, and no free buffer stays. -/
theorem length_resize (hsize : s.mBuffers.length < 18446744073709551616)
    (h : s.usedBuffersCount ≤ max.toNat) :
    (s.resize max).2.mBuffers.length =
      if max.toNat ≤ s.mBuffers.length then max.toNat else s.usedBuffersCount := by
  have hlength := length_purge s.hasOneRef (ofNat s.mBuffers.length - max).toNat s.mBuffers
  have hsplit := length_split s
  have hmax := max.toNat_lt
  rw [resize_of_le h]
  rw [UInt64.toNat_sub, toNat_ofNat_of_lt' hsize] at hlength
  change (purge _ _ _).length = _
  rw [UInt64.toNat_sub, toNat_ofNat_of_lt' hsize]
  split_ifs
  · omega
  · omega

/-- **Resizing.** It does what it is to do exactly where it is refused, the limit is not raised
above the number of pooled buffers or no buffer is free. -/
theorem resize_exact_iff (s : State) (max : UInt64)
    (hsize : s.mBuffers.length < 18446744073709551616) :
    Resized s max (s.resize max) ↔ (s.usedBuffersCount ≤ max.toNat →
      max.toNat ≤ s.mBuffers.length ∨ s.mBuffers.countP s.hasOneRef = 0) := by
  have hsplit := length_split s
  constructor
  · intro h hle
    have hremoved := h.removed (by rw [resize_of_le hle])
    rw [length_resize hsize hle] at hremoved
    split_ifs at hremoved with hmax
    · exact .inl hmax
    · exact .inr (by omega)
  · intro h
    by_cases hle : s.usedBuffersCount ≤ max.toNat
    · have hlength := length_resize hsize hle
      rw [resize_of_le hle] at hlength ⊢
      refine ⟨(decide_eq_true hle).symm, nofun, fun _ => purge_sublist .., fun _ => filter_purge ..,
        fun _ => ?_⟩
      rw [hlength]
      have hcases := h hle
      split_ifs
      · omega
      · omega
    · rw [State.resize, if_pos (Nat.not_le.mp hle)]
      exact ⟨(decide_eq_false hle).symm, fun _ => rfl, nofun, nofun, nofun⟩

end

/-- Two free buffers and one in use, resized to two. -/
def threePooled : State :=
  ⟨[⟨0, 4, 4⟩, ⟨1, 4, 4⟩, ⟨2, 4, 4⟩], 8, fun n => if n = 1 then 2 else 1, [1], 3⟩

theorem resize_exact_two : Resized threePooled 2 (threePooled.resize 2) :=
  (resize_exact_iff threePooled 2 (by decide)).mpr fun _ => .inl (by decide)

/-- Raising the limit to nine purges the free buffers. -/
theorem raised_limit_purges : ¬ Resized threePooled 9 (threePooled.resize 9) := fun h =>
  absurd (h.removed (by decide)) (by decide)

/-! ### Ownership -/

/-- The references to a buffer. -/
def State.references (s : State) (n : Nat) : Nat :=
  (s.mBuffers.map Buffer.number).count n + s.held.count n

/-- The counts are those of the references, and a number that is still to come has none. -/
structure Sound (s : State) : Prop where
  counts : ∀ n, s.refCount n = s.references n
  fresh : ∀ n, s.next ≤ n → s.refCount n = 0
  bounded : s.mBuffers.length ≤ s.mMaxNumberOfBuffers.toNat

section

variable {s : State} {n : Nat} {width height : Int} (h : Sound s)

include h

theorem Sound.lt_next (hn : 0 < s.refCount n) : n < s.next :=
  Nat.lt_of_not_le fun hle => absurd (h.fresh n hle) (Nat.ne_of_gt hn)

theorem Sound.lt_next_of_held (hn : n ∈ s.held) : n < s.next :=
  h.lt_next (h.counts n ▸ Nat.add_pos_right _ (count_pos_iff.mpr hn))

theorem Sound.erase {kept : List Buffer} {max : UInt64} (hkept : kept <+ s.mBuffers)
    (hmax : kept.length ≤ max.toNat) :
    Sound ({ s with mMaxNumberOfBuffers := max }.erase kept) where
  counts n := by
    have hle := (hkept.map Buffer.number).count_le n
    have hcounts := h.counts n
    unfold State.references at hcounts ⊢
    dsimp only [State.erase]
    omega
  fresh n hn := by
    dsimp only [State.erase]
    rw [h.fresh n hn, Nat.zero_sub]
  bounded := hmax

/-- The references to one buffer change, and its count with them. -/
theorem Sound.recount {t : State} (hrefs : t.refCount = update s.refCount n (t.references n))
    (hothers : ∀ m, m ≠ n → t.references m = s.references m) (hn : n < t.next)
    (hnext : s.next ≤ t.next) (hbounded : t.mBuffers.length ≤ t.mMaxNumberOfBuffers.toNat) :
    Sound t where
  counts m := by
    rw [hrefs]
    by_cases hm : m = n
    · rw [hm, update_self]
    · rw [update_of_ne hm, h.counts, hothers m hm]
  fresh m hm := by
    rw [hrefs, update_of_ne (by omega)]
    exact h.fresh m (by omega)
  bounded := hbounded

theorem Sound.take (hn : n < s.next) : Sound (s.take n) := by
  refine h.recount (n := n) ?_ (fun m hm => ?_) hn (Nat.le_refl _) h.bounded
  · unfold State.references State.take
    rw [count_cons_self, ← Nat.add_assoc, h.counts, State.references]
  · unfold State.references State.take
    rw [count_cons_of_ne (Ne.symm hm)]

theorem Sound.drop (hn : n ∈ s.held) : Sound (s.drop n) := by
  have hpos := count_pos_iff.mpr hn
  refine h.recount (n := n) ?_ (fun m hm => ?_) (h.lt_next_of_held hn) (Nat.le_refl _) h.bounded
  · unfold State.references State.drop
    rw [count_erase_self, ← Nat.add_sub_assoc hpos, h.counts, State.references]
  · unfold State.references State.drop
    rw [count_erase_of_ne hm]

theorem Sound.resize (max : UInt64) : Sound (s.resize max).2 := by
  by_cases hle : s.usedBuffersCount ≤ max.toNat
  · have hlength := length_resize (Nat.lt_of_le_of_lt h.bounded (toNat_lt _)) hle
    rw [resize_of_le hle] at hlength ⊢
    refine h.erase (purge_sublist ..) (Nat.le_trans (Nat.le_of_eq hlength) ?_)
    split_ifs
    · exact Nat.le_refl _
    · exact hle
  · rw [State.resize, if_pos (Nat.not_le.mp hle)]
    exact h

variable {r : Option Buffer} {t : State}

/-- A buffer that is found has the size, and is no user's. -/
theorem Sound.getExisting (heq : s.getExistingBuffer width height = (r, t)) :
    Sound t ∧ t.held = s.held ∧ ∀ b, r = some b →
      (b.width = width ∧ b.height = height) ∧ b.number ∉ t.held ∧ b.number < t.next := by
  have hkept := filter_sublist (p := fun b : Buffer => b.width == width && b.height == height)
    (l := s.mBuffers)
  have hsound : Sound (s.erase _) := h.erase hkept (Nat.le_trans hkept.length_le h.bounded)
  unfold State.getExistingBuffer at heq
  cases heq
  refine ⟨hsound, rfl, fun b hb => ?_⟩
  have hmem := mem_of_find?_eq_some hb
  have hone := find?_some hb
  rw [State.hasOneRef, beq_iff_eq] at hone
  have hcounts := (hsound.counts b.number).symm.trans hone
  have hpos := count_pos_iff.mpr (mem_map_of_mem (f := Buffer.number) hmem)
  refine ⟨by simpa using (mem_filter.mp hmem).2, ?_, hsound.lt_next (hone ▸ Nat.one_pos)⟩
  unfold State.references at hcounts
  exact count_eq_zero.mp (by omega)

theorem Sound.pool (hroom : ¬ s.mMaxNumberOfBuffers ≤ ofNat s.mBuffers.length) :
    Sound { s with mBuffers := s.mBuffers ++ [⟨s.next, width, height⟩]
                   refCount := update s.refCount s.next 1
                   next := s.next + 1 } := by
  have hzero := (h.counts s.next).symm.trans (h.fresh s.next (Nat.le_refl _))
  refine h.recount (n := s.next) ?_ (fun m hm => ?_) (Nat.lt_succ_self _) (Nat.le_succ _) ?_
  · obtain ⟨hpool, hheld⟩ := Nat.add_eq_zero_iff.mp hzero
    dsimp only [State.references]
    rw [map_append, map_singleton, count_append, hpool, hheld, count_singleton_self]
  · unfold State.references
    rw [map_append, map_singleton, count_append, count_singleton, beq_false_of_ne (Ne.symm hm)]
    rfl
  · have hlt := Nat.lt_of_le_of_lt h.bounded s.mMaxNumberOfBuffers.toNat_lt
    rw [le_iff_toNat_le, toNat_ofNat_of_lt' hlt] at hroom
    rw [length_append]
    exact Nat.not_le.mp hroom

theorem Sound.create (heq : s.createI420Buffer width height = (r, t)) :
    Sound t ∧ ∀ b, r = some b → (b.width = width ∧ b.height = height) ∧ b.number ∉ s.held := by
  unfold State.createI420Buffer at heq
  split at heq
  next found t hfound =>
    obtain ⟨hsound, hheld, hfree⟩ := h.getExisting hfound
    obtain ⟨hsize, hnot, hlt⟩ := hfree found rfl
    cases heq
    refine ⟨hsound.take hlt, fun b hb => ?_⟩
    cases hb
    exact ⟨hsize, hheld ▸ hnot⟩
  next t hnone =>
    obtain ⟨hsound, hheld, -⟩ := h.getExisting hnone
    split_ifs at heq with hfull
    · cases heq
      exact ⟨hsound, nofun⟩
    · cases heq
      refine ⟨(hsound.pool hfull).take (Nat.lt_succ_self _), fun b hb => ?_⟩
      cases hb
      exact ⟨⟨rfl, rfl⟩, fun hin => Nat.lt_irrefl _ (hsound.lt_next_of_held (hheld ▸ hin))⟩

theorem Sound.step (e : Event) : Sound (step s e) := by
  cases e with
  | create width height => exact (h.create rfl).1
  | release => exact h.erase (nil_sublist _) (Nat.zero_le _)
  | resize max => exact h.resize max
  | copy n =>
    rw [BufferPool.step]
    split_ifs with hheld
    · exact h.take (h.lt_next_of_held hheld)
    · exact h
  | drop n =>
    rw [BufferPool.step]
    split_ifs with hheld
    · exact h.drop hheld
    · exact h

end

theorem init_sound (max : UInt64) : Sound (.init max) :=
  ⟨fun _ => rfl, fun _ _ => rfl, Nat.zero_le _⟩

/-- **Exclusive buffers.** After any run, a buffer that is returned has the size asked for and no
user holds it, and the pool is within its limit. -/
theorem buffers_exclusive (max : UInt64) (es : List Event) :
    (es.foldl step (.init max)).mBuffers.length ≤
        (es.foldl step (.init max)).mMaxNumberOfBuffers.toNat ∧
      ∀ width height b t,
        (es.foldl step (.init max)).createI420Buffer width height = (some b, t) →
          (b.width = width ∧ b.height = height) ∧ b.number ∉ (es.foldl step (.init max)).held := by
  have hsound : Sound (es.foldl step (.init max)) :=
    foldlRecOn es step (init_sound max) fun s h e _ => h.step e
  exact ⟨hsound.bounded, fun width height b t heq => (hsound.create heq).2 b rfl⟩

end CxxKit.BufferPool
