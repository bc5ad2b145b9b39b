import CxxKit.Text.BitCodes

/-!
What a single write does to the buffer.

Every write of one code either puts exactly the bits of the code at the writer's position
and moves behind them, or changes nothing (`WritesExactly`).  Which of the two depends
only on the room left, apart from the two values the Golomb codes do not support.

Two shifts of the source go beyond the width of their word.  `write_bits` shifts a
64-bit word by `64 - bit_count`, and `write_non_symmetric` shifts a 32-bit one by the bit
width of `num_values`, which is 32 at the largest value its check admits.
-/

namespace CxxKit.BitBuffer

open BitBufferWriter BitList Nat

/-! ### The non-symmetric code -/

/-- The short code for the first values, the long one for the others. -/
def nonSymmetricBits (val numValues : Nat) : List Bool :=
  let numMinBits := 2 ^ bitWidth numValues - numValues
  if val < numMinBits then toBits (bitWidth numValues - 1) val
  else toBits (bitWidth numValues) (val + numMinBits)

variable {x numValues : Nat}

theorem bitWidth_pos (hx : 0 < x) : 0 < bitWidth x := size_pos.mpr hx

theorem two_pow_bitWidth_le (hx : 0 < x) : 2 ^ (bitWidth x - 1) ≤ x :=
  lt_size.mp (sub_lt (bitWidth_pos hx) Nat.one_pos)

/-- The power of two at the bit width, in terms of the one below. -/
theorem two_pow_bitWidth_eq (hx : 0 < x) : 2 ^ bitWidth x = 2 * 2 ^ (bitWidth x - 1) := by
  have hpos := bitWidth_pos hx
  rw [← Nat.pow_succ', succ_eq_add_one, Nat.sub_add_cancel hpos]

theorem bitWidth_lt_iff : bitWidth x < 32 ↔ x < 2 ^ 31 :=
  Nat.lt_succ_iff.trans size_le

theorem numMinBitsValues_of_lt (h : numValues < 2 ^ 31) :
    numMinBitsValues numValues = some (2 ^ bitWidth numValues - numValues) :=
  if_pos (bitWidth_lt_iff.mpr h)

theorem numMinBitsValues_of_le (h : 2 ^ 31 ≤ numValues) : numMinBitsValues numValues = none :=
  if_neg fun hlt => Nat.not_lt.mpr h (bitWidth_lt_iff.mp hlt)

theorem nonSymmetricBits_one {val : Nat} (hval : val < 1) : nonSymmetricBits val 1 = [] := by
  obtain rfl : val = 0 := by omega
  rfl

namespace BitBufferWriter

variable {n : Nat} {w : BitBufferWriter n}

/-- The call puts the bits at the position and moves behind them if there is room, and changes
nothing otherwise. -/
structure WritesExactly (run : Option (BitBufferWriter n × Bool)) (w : BitBufferWriter n)
    (xs : List Bool) : Prop where
  fits : xs.length ≤ w.remainingBitCount → ∃ w', run = some (w', true) ∧ Wrote w xs w'
  refused : w.remainingBitCount < xs.length → run = some (w, false)

variable (w)

theorem writeBits_exactly (val : Nat) {count : Nat} (hpos : 0 < count) (hle : count ≤ 64) :
    WritesExactly (w.writeBits val count) w (toBits count val) where
  fits hfit := by
    rw [length_toBits] at hfit
    obtain ⟨w', hrun, hbits, hposition⟩ := @writeBits_spec n count val w hpos hle hfit
    have hroom := w.remainingBitCount_add
    refine ⟨w', hrun, hbits, ?_, ?_⟩
    · rw [hposition, length_toBits]
    · rw [length_toBits, position]
      omega
  refused hlt := writeBits_refuses (by rwa [length_toBits] at hlt)

theorem writeExponentialGolomb_exactly {val : UInt32} (hval : val.toNat ≠ 2 ^ 32 - 1) :
    WritesExactly (w.writeExponentialGolomb val) w (golombBits val.toNat) := by
  have hlt := val.toNat_lt
  have hle := bitWidth_le (show val.toNat < 2 ^ 32 - 1 by omega)
  have hpos : 0 < bitWidth (val.toNat + 1) := bitWidth_pos (succ_pos val.toNat)
  rw [writeExponentialGolomb, if_neg hval]
  exact writeBits_exactly w (val.toNat + 1) (by omega) (by omega)

theorem writeSignedExponentialGolomb_exactly {val : Int32} (hne : val.toInt ≠ -2 ^ 31) :
    WritesExactly (w.writeSignedExponentialGolomb val) w
      (golombBits (signedCode val.toInt)) := by
  have hlt := signedCode_lt hne
  have hcode := toNat_signedCode hne
  have hspec := @writeExponentialGolomb_exactly n w (UInt32.ofNat (signedCode val.toInt)) (by omega)
  rw [hcode] at hspec
  rwa [writeSignedExponentialGolomb_eq w hne]

theorem writeNonSymmetric_exactly {val numValues : UInt32} (hval : val.toNat < numValues.toNat)
    (hnum : numValues.toNat < 2 ^ 31) : WritesExactly (w.writeNonSymmetric val numValues) w
      (nonSymmetricBits val.toNat numValues.toNat) := by
  unfold writeNonSymmetric
  by_cases hone : numValues.toNat = 1
  · rw [hone, nonSymmetricBits_one (hone ▸ hval)]
    exact ⟨fun _ => ⟨w, rfl, .refl w⟩, nofun⟩
  · rw [if_neg hone, numMinBitsValues_of_lt hnum]
    have hwidth := bitWidth_lt_iff.mpr hnum
    have htwo : 2 ≤ bitWidth numValues.toNat := lt_size.mpr (by omega)
    simp only [Option.bind_eq_bind, Option.bind_some, nonSymmetricBits]
    split
    · exact writeBits_exactly w val.toNat (by omega) (by omega)
    · rw [mod_eq_of_lt (by omega)]
      exact writeBits_exactly w _ (by omega) (by omega)

end BitBufferWriter

/-! ### Frames -/

/-- A write of one code. -/
inductive Request where
  | bits (val : UInt64) (count : Nat)
  | uInt8 (val : UInt8)
  | uInt16 (val : UInt16)
  | uInt32 (val : UInt32)
  | exponentialGolomb (val : UInt32)
  | signedExponentialGolomb (val : Int32)
  | nonSymmetric (val numValues : UInt32)

namespace Request

/-- At least one bit, and what the debug checks of the non-symmetric code ask for. -/
def InContract : Request → Prop
  | bits _ count => 1 ≤ count
  | nonSymmetric val numValues => val.toNat < numValues.toNat ∧ numValues.toNat ≤ 2 ^ 31
  | _ => True

/-- The bits that the write claims. -/
def code : Request → List Bool
  | bits val count => toBits count val.toNat
  | uInt8 val => toBits 8 val.toNat
  | uInt16 val => toBits 16 val.toNat
  | uInt32 val => toBits 32 val.toNat
  | exponentialGolomb val => golombBits val.toNat
  | signedExponentialGolomb val => golombBits (signedCode val.toInt)
  | nonSymmetric val numValues => nonSymmetricBits val.toNat numValues.toNat

/-- The values documented as not supported. -/
def Unsupported : Request → Prop
  | exponentialGolomb val => val.toNat = 2 ^ 32 - 1
  | signedExponentialGolomb val => val.toInt = -2 ^ 31
  | _ => False

/-- The call makes no shift by the width of a word or more. -/
def ShiftsDefined {n : Nat} (w : BitBufferWriter n) : Request → Prop
  | bits _ count => count ≤ 64 ∨ w.remainingBitCount < count
  | nonSymmetric _ numValues => numValues.toNat < 2 ^ 31
  | _ => True

end Request

namespace BitBufferWriter

variable {n : Nat}

def writeRequest (w : BitBufferWriter n) : Request → Option (BitBufferWriter n × Bool)
  | .bits val count => w.writeBits val.toNat count
  | .uInt8 val => w.writeUInt8 val
  | .uInt16 val => w.writeUInt16 val
  | .uInt32 val => w.writeUInt32 val
  | .exponentialGolomb val => w.writeExponentialGolomb val
  | .signedExponentialGolomb val => w.writeSignedExponentialGolomb val
  | .nonSymmetric val numValues => w.writeNonSymmetric val numValues

/-- The write returns. If it returns true it has moved by the length of the code, the bits it
passed are those of the code, and all others are as before. If it returns false nothing has changed,
and either there was too little room or the value is not supported. -/
def Framed (w : BitBufferWriter n) (q : Request) : Prop :=
  ∃ w' ok, w.writeRequest q = some (w', ok) ∧
    (ok = true → w'.position = w.position + q.code.length ∧
      (∀ i < q.code.length, w'.bits[w.position + i]? = q.code[i]?) ∧
      ∀ i, i < w.position ∨ w.position + q.code.length ≤ i → w'.bits[i]? = w.bits[i]?) ∧
    (ok = false → w' = w) ∧
    (ok = false ↔ w.remainingBitCount < q.code.length ∨ q.Unsupported)

variable {w : BitBufferWriter n} {q : Request}

theorem framed_of_exactly (hq : ¬ q.Unsupported)
    (h : WritesExactly (w.writeRequest q) w q.code) : w.Framed q := by
  by_cases hfit : q.code.length ≤ w.remainingBitCount
  · obtain ⟨w', hrun, hwrote⟩ := h.fits hfit
    have hin : w.position + q.code.length ≤ w.bits.length := by
      rw [length_bits]
      exact hwrote.fits
    refine ⟨w', true, hrun, fun _ => ⟨hwrote.position, ?_, ?_⟩, nofun, ⟨nofun, ?_⟩⟩
    · intro i hi
      rw [hwrote.bits, getElem?_overwrite_of_inside hin hi]
    · intro i hi
      rw [hwrote.bits, getElem?_overwrite_of_outside hin hi]
    · rintro (hlt | hunsupported)
      · exact absurd hfit (Nat.not_le.mpr hlt)
      · exact absurd hunsupported hq
  · exact ⟨w, false, h.refused (Nat.lt_of_not_le hfit), nofun, fun _ => rfl,
      fun _ => .inl (Nat.lt_of_not_le hfit), fun _ => rfl⟩

theorem framed_of_unsupported (hq : q.Unsupported)
    (h : w.writeRequest q = some (w, false)) : w.Framed q :=
  ⟨w, false, h, nofun, fun _ => rfl, fun _ => .inr hq, fun _ => rfl⟩

theorem not_framed_of_none (h : w.writeRequest q = none) : ¬ w.Framed q := by
  rintro ⟨w', ok, hrun, -⟩
  rw [h] at hrun
  cases hrun

/-- The room is there, but `64 - bit_count` wraps around. -/
theorem writeBits_undefined {val count : Nat} (hwide : 64 < count)
    (hfit : count ≤ w.remainingBitCount) : w.writeBits val count = none := by
  rw [writeBits, if_neg (Nat.not_lt.mpr hfit), if_pos (.inr hwide)]

theorem writeNonSymmetric_undefined {val numValues : UInt32}
    (hnum : 2 ^ 31 ≤ numValues.toNat) : w.writeNonSymmetric val numValues = none := by
  rw [writeNonSymmetric, if_neg (by omega), numMinBitsValues_of_le hnum]
  rfl

/-- In every buffer and at every position a write of one code is framed, exactly if it makes no
shift by the width of a word or more, which C++ leaves undefined. -/
theorem framed_iff (w : BitBufferWriter n) (q : Request) (hq : q.InContract) :
    w.Framed q ↔ q.ShiftsDefined w := by
  cases q with
  | bits val count =>
    by_cases hle : count ≤ 64
    · refine iff_of_true (framed_of_exactly not_false ?_) (.inl hle)
      exact writeBits_exactly w val.toNat hq hle
    · by_cases hfit : w.remainingBitCount < count
      · refine iff_of_true ?_ (.inr hfit)
        exact ⟨w, false, writeBits_refuses hfit, nofun, fun _ => rfl,
          fun _ => .inl (by rwa [Request.code, length_toBits]), fun _ => rfl⟩
      · refine iff_of_false (not_framed_of_none ?_) (not_or.mpr ⟨hle, hfit⟩)
        exact writeBits_undefined (Nat.lt_of_not_le hle) (Nat.le_of_not_lt hfit)
  | uInt8 val | uInt16 val | uInt32 val =>
    refine iff_of_true (framed_of_exactly not_false ?_) trivial
    exact writeBits_exactly w val.toNat (by decide) (by decide)
  | exponentialGolomb val =>
    refine iff_of_true ?_ trivial
    by_cases hval : val.toNat = 2 ^ 32 - 1
    · exact framed_of_unsupported hval (if_pos hval)
    · exact framed_of_exactly hval (writeExponentialGolomb_exactly w hval)
  | signedExponentialGolomb val =>
    refine iff_of_true ?_ trivial
    by_cases hval : val.toInt = -2 ^ 31
    · exact framed_of_unsupported hval (writeSignedExponentialGolomb_refuses w hval)
    · exact framed_of_exactly hval (writeSignedExponentialGolomb_exactly w hval)
  | nonSymmetric val numValues =>
    obtain ⟨hval, hnum⟩ := hq
    by_cases hlt : numValues.toNat < 2 ^ 31
    · exact iff_of_true (framed_of_exactly not_false (writeNonSymmetric_exactly w hval hlt)) hlt
    · exact iff_of_false
        (not_framed_of_none (writeNonSymmetric_undefined (Nat.le_of_not_lt hlt))) hlt

/-- A Golomb code across a byte boundary. -/
theorem framed_golomb :
    ((new (Vector.replicate 2 0xFF)).seek 0 5).1.Framed (.exponentialGolomb 6) :=
  (framed_iff _ (.exponentialGolomb 6) trivial).mpr trivial

/-- `write_non_symmetric(0, 2^31)` passes its debug checks and shifts a 32-bit word by 32, and
`write_bits(0, 65)` with room for 65 bits shifts a 64-bit word by a count that wraps around. -/
theorem write_shifts_undefined :
    (new (Vector.replicate 9 0)).writeRequest (.nonSymmetric 0 0x80000000) = none ∧
      (new (Vector.replicate 9 0)).writeRequest (.bits 0 65) = none := by
  refine ⟨writeNonSymmetric_undefined (by decide), writeBits_undefined (by decide) ?_⟩
  decide

end BitBufferWriter

end CxxKit.BitBuffer
