import CxxKit.Text.BitNonSymmetric
import CxxKit.Lib.Transition

/-!
Sequences of reader calls.

`cursor bytes k` is the reader that has taken `k` bits of a buffer.  A read of bits, a read
of one bit and a skip each advance the byte pointer in their own way, and all of them
lead from one cursor to another.  So any two ways of taking the same bits leave the
same reader behind.  A failed reader counts `-1` bits, fewer than any call asks
for, and cannot recover.

The constructor converts the number of bits to `int` without a check.  From `2 ^ 28` bytes on the
count is wrong, and the reader misses bits that are there.
-/

namespace CxxKit.BitBuffer

open BitList List Option Transition Value

namespace BitBufferReader

/-! ### The pointer after a read -/

section Pointer

variable {r r' : BitBufferReader}

theorem readFullBytes_rest {bits result bits' result' : Nat} {bytes bytes' : List UInt8}
    (h : readFullBytes bits result bytes = some (bits', result', bytes')) :
    bytes' = bytes.drop (bits / 8) := by
  induction bits using Nat.strongRecOn generalizing result bytes with
  | ind bits ih =>
    by_cases hlt : bits < 8
    · rw [readFullBytes_lt hlt] at h
      cases h
      rw [Nat.div_eq_of_lt hlt, drop_zero]
    · obtain ⟨rest, rfl⟩ : ∃ rest, bits = rest + 8 := ⟨bits - 8, by omega⟩
      cases bytes with
      | nil => cases h
      | cons b bytes =>
        have hrest := ih rest (by omega) h
        rw [hrest, tail_cons, Nat.add_div_right rest (by decide), drop_succ_cons]

theorem readAligned_rest {remaining : Int} {bits result val : Nat} {bytes : List UInt8}
    (h : readAligned remaining bits result bytes = some (val, r')) :
    r' = ⟨bytes.drop (bits / 8), remaining⟩ := by
  simp only [readAligned, bind_eq_bind, bind_eq_some_iff] at h
  obtain ⟨⟨bits', result', bytes'⟩, hfull, h⟩ := h
  have hrest := readFullBytes_rest hfull
  split at h
  · obtain ⟨byte, -, h⟩ := bind_eq_some_iff.mp h
    cases h
    rw [← hrest]
  · cases h
    rw [← hrest]

/-- A read leaves the reader that a skip of as many bits leaves. -/
theorem readBits_eq_consumeBits {bits val : Nat} (h : r.readBits bits = some (val, r')) :
    r' = r.consumeBits bits := by
  unfold readBits at h
  unfold consumeBits
  split at h
  next hlt =>
    cases h
    rw [if_pos hlt]
  next hge =>
    rw [if_neg hge]
    obtain ⟨k, hk⟩ := Int.eq_ofNat_of_zero_le (show 0 ≤ r.mRemainingBits by omega)
    rw [hk] at h hge ⊢
    simp only [Int.toNat_natCast] at h
    -- the number of bytes passed, in each of the three ways of the source
    split at h
    next hwithin =>
      obtain ⟨byte, -, h⟩ := bind_eq_some_iff.mp h
      cases h
      dsimp only
      rw [show (((k : Int) + 7) / 8 - ((k : Int) - bits + 7) / 8).toNat = 0 by omega,
        drop_zero]
    next hpast =>
      split at h
      next hpart =>
        obtain ⟨byte, hbyte, h⟩ := bind_eq_some_iff.mp h
        rw [readAligned_rest h, ← drop_one, drop_drop]
        congr 2
        omega
      next hwhole =>
        rw [readAligned_rest h]
        congr 2
        omega

theorem readBit_eq_consumeBits {val : Nat} (h : r.readBit = some (val, r')) :
    r' = r.consumeBits 1 := by
  unfold readBit at h
  unfold consumeBits
  split at h
  next hle =>
    cases h
    rw [if_pos (by omega)]
  next hpos =>
    rw [if_neg (by omega)]
    obtain ⟨k, hk⟩ := Int.eq_ofNat_of_zero_le (show 0 ≤ r.mRemainingBits - 1 by omega)
    obtain ⟨byte, hbyte, h⟩ := bind_eq_some_iff.mp h
    simp only [hk, Int.toNat_natCast] at h ⊢
    split at h
    next hlast =>
      cases h
      rw [← drop_one]
      congr 2
      omega
    next hin =>
      cases h
      rw [show ((r.mRemainingBits + 7) / 8 - ((k : Int) + 7) / 8).toNat = 0 by omega,
        drop_zero]

end Pointer

/-! ### Cursors -/

/-- The reader that has taken `k` bits. -/
def cursor (bytes : List UInt8) (k : Nat) : BitBufferReader :=
  ⟨bytes.drop (k / 8), (8 * bytes.length : Nat) - (k : Int)⟩

section Cursor

variable {bytes : List UInt8} {k m : Nat}

/-- The bits that a call for `m` of them is to return. -/
def nextBits (bytes : List UInt8) (k m : Nat) : List Bool := ((bytesBits bytes).drop k).take m

theorem length_nextBits (h : k + m ≤ 8 * bytes.length) : (nextBits bytes k m).length = m := by
  rw [nextBits, length_take_of_le]
  rw [length_drop, length_bytesBits]
  omega

@[simp]
theorem cursor_mRemainingBits (bytes : List UInt8) (k : Nat) :
    (cursor bytes k).mRemainingBits = (8 * bytes.length : Nat) - (k : Int) := rfl

theorem cursor_ok (h : k ≤ 8 * bytes.length) : (cursor bytes k).Ok := by
  rw [Ok, cursor_mRemainingBits]
  omega

theorem cursor_unread (h : k ≤ 8 * bytes.length) :
    (cursor bytes k).Unread ((bytesBits bytes).drop k) := by
  have hlen : ((bytesBits bytes).drop k).length = 8 * bytes.length - k := by
    rw [length_drop, length_bytesBits]
  refine ⟨?_, ((bytesBits bytes).drop (8 * (k / 8))).take (k % 8), [], ?_, ?_, ?_⟩
  · rw [cursor_mRemainingBits]
    omega
  · rw [append_nil, cursor, bytesBits_drop]
    conv_lhs => rw [← take_append_drop (k % 8) ((bytesBits bytes).drop (8 * (k / 8)))]
    rw [drop_drop, Nat.div_add_mod]
  · rw [length_take]
    omega
  · rw [length_take, length_drop, length_bytesBits]
    omega

theorem consumeBits_cursor (h : k + m ≤ 8 * bytes.length) :
    (cursor bytes k).consumeBits m = cursor bytes (k + m) := by
  have hleft : ¬ (cursor bytes k).mRemainingBits < m := by
    rw [cursor_mRemainingBits]
    omega
  rw [consumeBits, if_neg hleft]
  simp only [cursor, drop_drop, mk.injEq]
  exact ⟨congrArg (bytes.drop ·) (by omega), by omega⟩

theorem readBits_cursor (hm : m ≤ 64) (h : k + m ≤ 8 * bytes.length) :
    (cursor bytes k).readBits m = some (ofBits (nextBits bytes k m), cursor bytes (k + m)) := by
  have hunread := cursor_unread (show k ≤ 8 * bytes.length by omega)
  rw [← take_append_drop m ((bytesBits bytes).drop k)] at hunread
  have hlen := length_nextBits h
  obtain ⟨r', hread, -⟩ := readBits_spec hunread (hlen.symm ▸ hm)
  rw [← nextBits, hlen] at hread
  rw [hread, readBits_eq_consumeBits hread, consumeBits_cursor h]

theorem readBit_cursor (h : k + 1 ≤ 8 * bytes.length) :
    (cursor bytes k).readBit = some (ofBits (nextBits bytes k 1), cursor bytes (k + 1)) := by
  have hunread := cursor_unread (show k ≤ 8 * bytes.length by omega)
  have hlt : k < (bytesBits bytes).length := by
    rw [length_bytesBits]
    omega
  rw [drop_eq_getElem_cons hlt] at hunread
  obtain ⟨r', hread, -⟩ := readBit_spec hunread
  have hnext : ofBits (nextBits bytes k 1) = ((bytesBits bytes)[k]).toNat := by
    rw [nextBits, drop_eq_getElem_cons hlt, take_succ_cons, take_zero, ofBits,
      ofBits, length_nil, Nat.pow_zero, Nat.mul_one, Nat.add_zero]
  rw [hread, hnext, readBit_eq_consumeBits hread]
  exact congrArg some (congrArg _ (consumeBits_cursor h))

theorem new_eq_cursor (h : bytes.length < 2 ^ 28) : new bytes = cursor bytes 0 := by
  have hcast : castInt (bytes.length * 8) = ((bytes.length * 8 : Nat) : Int) := by
    apply Int.bmod_eq_of_le <;> omega
  rw [new, hcast, Nat.mul_comm]
  rfl

end Cursor

/-! ### Every call stays on the track -/

/-- The reader is a cursor or has failed. -/
def Tracks (bytes : List UInt8) (r : BitBufferReader) : Prop :=
  (∃ k, k ≤ 8 * bytes.length ∧ r = cursor bytes k) ∨ ¬ r.Ok

/-- The call returns, leads from a cursor to a cursor or to a failed reader, and from a failed
reader to a failed one. -/
def Steady {α : Type} (bytes : List UInt8) (f : BitBufferReader → Option (α × BitBufferReader)) :
    Prop :=
  ∀ r, Tracks bytes r → ∃ v r', f r = some (v, r') ∧ Tracks bytes r' ∧ (r'.Ok → r.Ok)

section Steady

variable {α β : Type} {bytes : List UInt8} {f : BitBufferReader → Option (α × BitBufferReader)}

theorem Steady.pure (v : α) : Steady bytes fun r => some (v, r) :=
  fun r htracks => ⟨v, r, rfl, htracks, id⟩

theorem Steady.invalidate (v : α) : Steady bytes fun r => some (v, r.invalidate) :=
  fun r _ => ⟨v, _, rfl, .inr (not_ok_invalidate r), fun hok => absurd hok (not_ok_invalidate r)⟩

theorem Steady.bind {g : α × BitBufferReader → Option (β × BitBufferReader)} (hf : Steady bytes f)
    (hg : ∀ v, Steady bytes fun r => g (v, r)) : Steady bytes fun r => f r >>= g := by
  intro r htracks
  obtain ⟨v, u, hfun, hu, huok⟩ := hf r htracks
  obtain ⟨x, r', hgun, hr', hok⟩ := hg v u hu
  exact ⟨x, r', by simp only [hfun, bind_eq_bind, bind_some, hgun], hr',
    fun h => huok (hok h)⟩

/-- A failed reader is on the track of any buffer. -/
theorem Steady.fails {r r' : BitBufferReader} {v : α} (hf : Steady bytes f) (h : ¬ r.Ok)
    (hrun : f r = some (v, r')) : ¬ r'.Ok := by
  obtain ⟨w, u, hu, -, hok⟩ := hf r (.inr h)
  obtain ⟨-, rfl⟩ := Prod.mk.inj (Option.some.inj (hrun.symm.trans hu))
  exact fun hr' => h (hok hr')

theorem Steady.map (hf : Steady bytes f) (g : α → β) :
    Steady bytes fun r => (f r).map fun p => (g p.1, p.2) := by
  intro r htracks
  obtain ⟨v, r', hrun, hr', hok⟩ := hf r htracks
  exact ⟨g v, r', by simp only [hrun, map_some], hr', hok⟩

theorem mRemainingBits_neg {r : BitBufferReader} (h : ¬ r.Ok) : r.mRemainingBits < 0 :=
  Int.not_le.mp h

/-- A call that takes `m` bits from a cursor and invalidates a reader with fewer. -/
theorem Steady.of_cursor {m : Nat} {x : α}
    (hcursor : ∀ k, k + m ≤ 8 * bytes.length →
      ∃ v, f (cursor bytes k) = some (v, cursor bytes (k + m)))
    (hrefuses : ∀ r : BitBufferReader, r.mRemainingBits < m → f r = some (x, r.invalidate)) :
    Steady bytes f := by
  rintro r (⟨k, hk, rfl⟩ | hfailed)
  · by_cases hfit : k + m ≤ 8 * bytes.length
    · obtain ⟨v, hv⟩ := hcursor k hfit
      exact ⟨v, _, hv, .inl ⟨_, hfit, rfl⟩, fun _ => cursor_ok hk⟩
    · refine ⟨x, _, hrefuses _ ?_, .inr (not_ok_invalidate _), fun _ => cursor_ok hk⟩
      rw [cursor_mRemainingBits]
      omega
  · have hneg := mRemainingBits_neg hfailed
    exact ⟨x, _, hrefuses r (by omega), .inr (not_ok_invalidate r),
      fun hok => absurd hok (not_ok_invalidate r)⟩

theorem steady_readBits {m : Nat} (hm : m ≤ 64) : Steady bytes fun r => r.readBits m :=
  .of_cursor (fun _ hfit => ⟨_, readBits_cursor hm hfit⟩) fun _ => readBits_refuses

theorem steady_readBit : Steady bytes readBit :=
  .of_cursor (fun _ hfit => ⟨_, readBit_cursor hfit⟩) fun _ hless => readBit_refuses (by omega)

theorem steady_leadingZeros (allowed count : Nat) :
    Steady bytes fun r => leadingZeros allowed count r := by
  induction allowed generalizing count with
  | zero => exact .invalidate none
  | succ allowed ih =>
    refine Steady.bind steady_readBit fun bit u hu => ?_
    dsimp only
    split
    · exact ih (count + 1) u hu
    · exact Steady.pure _ u hu

theorem leadingZeros_lt {allowed count zeros : Nat} {r r' : BitBufferReader}
    (h : leadingZeros allowed count r = some (some zeros, r')) : zeros < count + allowed := by
  induction allowed generalizing count r with
  | zero => cases h
  | succ allowed ih =>
    simp only [leadingZeros, bind_eq_bind, bind_eq_some_iff] at h
    obtain ⟨⟨bit, u⟩, -, h⟩ := h
    split at h
    · have hlt := ih h
      omega
    · cases h
      omega

theorem steady_readExponentialGolomb : Steady bytes readExponentialGolomb := by
  intro r htracks
  obtain ⟨zeros, u, hzeros, hu, huok⟩ := steady_leadingZeros 32 0 r htracks
  simp only [readExponentialGolomb, hzeros, bind_eq_bind, bind_some]
  cases zeros with
  | none => exact ⟨0, u, rfl, hu, huok⟩
  | some zeros =>
    have hlt := leadingZeros_lt hzeros
    obtain ⟨low, r', hlow, hr', hok⟩ := steady_readBits (show zeros ≤ 64 by omega) u hu
    simp only [hlow, bind_some]
    exact ⟨_, r', rfl, hr', fun h => huok (hok h)⟩

theorem steady_readLeb128Loop {rounds : Nat} (hrounds : 0 < rounds) (i decoded : Nat) :
    Steady bytes fun r => (readLeb128Loop rounds i decoded r).map
      fun x => ((x.1, x.2.1, x.2.2.1), x.2.2.2) := by
  induction rounds generalizing i decoded with
  | zero => exact absurd hrounds (Nat.lt_irrefl 0)
  | succ rounds ih =>
    intro r htracks
    obtain ⟨byte, u, hread, hu, huok⟩ := steady_readBits (show 8 ≤ 64 by decide) r htracks
    simp only [readLeb128Loop, hread, bind_eq_bind, bind_some]
    split
    next hmore =>
      obtain ⟨v, r', hrun, hr', hok⟩ := ih hmore.1 (i + 1) _ u hu
      exact ⟨v, r', hrun, hr', fun h => huok (hok h)⟩
    next => exact ⟨_, u, rfl, hu, huok⟩

theorem steady_readLeb128 : Steady bytes readLeb128 := by
  intro r htracks
  obtain ⟨v, u, hrun, hu, huok⟩ := @steady_readLeb128Loop bytes 10 (by decide) 0 0 r htracks
  obtain ⟨⟨decoded, i, byte, u'⟩, hloop, hpair⟩ := map_eq_some_iff.mp hrun
  obtain ⟨rfl, rfl⟩ := Prod.mk.inj hpair
  simp only [readLeb128, hloop, bind_eq_bind, bind_some]
  refine ⟨_, _, rfl, ?_⟩
  split
  · exact ⟨.inr (not_ok_invalidate _), fun hok => absurd hok (not_ok_invalidate _)⟩
  · exact ⟨hu, huok⟩

end Steady

/-! ### Sequences of calls -/

/-- A call of the reader's interface. -/
inductive ReaderCall where
  | read (call : Call)
  | readBit
  | consumeBits (bits : Nat)
  | readNonSymmetric (numValues : UInt32)
  | invalidate

namespace ReaderCall

/-- The bits that the call asks for, where the input does not decide it. -/
def width : ReaderCall → Option Nat
  | read (.bits count) => some count
  | read .uInt8 => some 8
  | read .uInt16 => some 16
  | read .uInt32 => some 32
  | read (.string numBytes) => some (8 * numBytes)
  | readBit => some 1
  | consumeBits bits => some bits
  | _ => none

end ReaderCall

/-- The reader after a call. -/
def perform (r : BitBufferReader) : ReaderCall → Option BitBufferReader
  | .read call => (r.read call).map Prod.snd
  | .readBit => r.readBit.map Prod.snd
  | .consumeBits bits => some (r.consumeBits bits)
  | .readNonSymmetric numValues => (r.readNonSymmetric numValues).map Prod.snd
  | .invalidate => some r.invalidate

/-- The bits taken since the construction. -/
def taken (bytes : List UInt8) (r : BitBufferReader) : Nat :=
  ((new bytes).mRemainingBits - r.mRemainingBits).toNat

section Runs

variable {bytes : List UInt8} {r r' : BitBufferReader} {k m : Nat} {call : ReaderCall}

theorem Steady.perform {α : Type} {f : BitBufferReader → Option (α × BitBufferReader)}
    (hf : Steady bytes f) (htracks : Tracks bytes r) :
    ∃ r', (f r).map Prod.snd = some r' ∧ Tracks bytes r' ∧ (r'.Ok → r.Ok) := by
  obtain ⟨v, r', hrun, hr', hok⟩ := hf r htracks
  exact ⟨r', by rw [hrun, map_some], hr', hok⟩

end Runs

end BitBufferReader

end CxxKit.BitBuffer
