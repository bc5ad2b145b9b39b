import CxxKit.Text.BitFrames
import CxxKit.Text.BitRoundTrip

/-!
The non-symmetric code of values below a given number.

With `width` the bit width of `num_values`, the first `2 ^ width - num_values` values have
codes of `width - 1` bits.  The others are moved up by as much and have codes of `width`
bits, whose first `width - 1` bits are no short code.  A reader tells the two apart after
`width - 1` bits, and cannot read a value that is too large.
-/

namespace CxxKit.BitBuffer

open BitBufferReader BitBufferWriter BitList List Nat Option

/-! ### Reading -/

section Reading

variable {r : BitBufferReader} {ys : List Bool} {numValues : UInt32}

/-- The bounds that the bit width puts on the number of short codes. -/
theorem numMinBits_bounds {num : Nat} (hpos : 0 < num) :
    0 < 2 ^ bitWidth num - num ∧ 2 ^ bitWidth num - num ≤ 2 ^ (bitWidth num - 1) ∧
      2 ^ (bitWidth num - 1) ≤ num := by
  have hlow := two_pow_bitWidth_le hpos
  have hhigh := lt_two_pow_bitWidth num
  have hdouble := two_pow_bitWidth_eq hpos
  omega

theorem length_nonSymmetricBits (val num : Nat) : (nonSymmetricBits val num).length =
    if val < 2 ^ bitWidth num - num then bitWidth num - 1 else bitWidth num := by
  simp only [nonSymmetricBits]
  split <;> exact length_toBits ..

theorem long_value {v bit numMin : Nat} (hv : v < 2 ^ 31) (hbit : bit < 2) (hmin : numMin ≤ v) :
    (shl64 v 1 + bit + 2 ^ 64 - numMin) % 2 ^ 64 % 2 ^ 32 = (2 * v + bit - numMin) % 2 ^ 32 := by
  have hshl : shl64 v 1 = 2 * v := by
    rw [shl64, shiftLeft_eq, mod_eq_of_lt (by omega), Nat.mul_comm]
  rw [hshl, show 2 * v + bit + 2 ^ 64 - numMin = 2 * v + bit - numMin + 2 ^ 64 by omega,
    add_mod_right, mod_eq_of_lt (show 2 * v + bit - numMin < 2 ^ 64 by omega)]

/-- A code in front of the reader gives its value. -/
theorem readNonSymmetric_spec {val : Nat} (hval : val < numValues.toNat)
    (hnum : numValues.toNat < 2 ^ 31) (h : r.Unread (nonSymmetricBits val numValues.toNat ++ ys)) :
    ∃ r', r.readNonSymmetric numValues = some (val, r') ∧ r'.Unread ys := by
  have hpos : 0 < numValues.toNat := zero_lt_of_lt hval
  have hwidth := bitWidth_lt_iff.mpr hnum
  have hwidthPos := bitWidth_pos hpos
  have hhigh := lt_two_pow_bitWidth numValues.toNat
  have hdouble := two_pow_bitWidth_eq hpos
  simp only [readNonSymmetric, numMinBitsValues_of_lt hnum, bind_eq_bind, bind_some]
  simp only [nonSymmetricBits] at h
  split at h
  next hshort =>
    obtain ⟨r', hread, hrest⟩ := readBits_toBits (by omega) h
    rw [mod_eq_of_lt (by omega)] at hread
    refine ⟨r', ?_, hrest⟩
    simp only [hread, bind_some, if_pos hshort]
    rw [mod_eq_of_lt (show val < 2 ^ 32 by omega)]
  next hlong =>
    generalize hmoved : val + (2 ^ bitWidth numValues.toNat - numValues.toNat) = moved at h
    -- the first bits of a long code and its last bit
    have hsplit : toBits (bitWidth numValues.toNat) moved =
        toBits (bitWidth numValues.toNat - 1) (moved / 2) ++ toBits 1 moved := by
      rw [← shiftRight_one, ← toBits_add, Nat.sub_add_cancel hwidthPos]
    rw [hsplit, append_assoc] at h
    obtain ⟨u, hread, hrest⟩ := readBits_toBits (by omega) h
    rw [mod_eq_of_lt (by omega)] at hread
    obtain ⟨r', hbit, hdone⟩ := readBit_spec hrest
    rw [toNat_testBit, Nat.div_one] at hbit
    refine ⟨r', ?_, hdone⟩
    simp only [hread, bind_some, hbit]
    rw [if_neg (by omega), long_value (by omega) (mod_lt _ (by decide)) (by omega),
      mod_eq_of_lt (by omega), show 2 * (moved / 2) + moved % 2 -
        (2 ^ bitWidth numValues.toNat - numValues.toNat) = val by omega]

theorem readBits_refuses {count : Nat} (h : r.mRemainingBits < count) :
    r.readBits count = some (0, r.invalidate) := by
  rw [readBits, if_pos h]

theorem readBit_refuses (h : r.mRemainingBits ≤ 0) : r.readBit = some (0, r.invalidate) := by
  rw [readBit, if_pos h]

theorem not_ok_invalidate (r : BitBufferReader) : ¬ r.invalidate.Ok := by
  change ¬ (0 : Int) ≤ -1
  decide

/-- A reader without the bits of the shortest codes. -/
theorem readNonSymmetric_refuses (hpos : 0 < numValues.toNat) (hnum : numValues.toNat < 2 ^ 31)
    (h : r.mRemainingBits < (bitWidth numValues.toNat - 1 : Nat)) :
    ∃ v, r.readNonSymmetric numValues = some (v, r.invalidate) := by
  simp only [readNonSymmetric, numMinBitsValues_of_lt hnum, bind_eq_bind, bind_some,
    readBits_refuses h, if_pos (numMinBits_bounds hpos).1]
  exact ⟨_, rfl⟩

/-- Whatever the input, a read returns, and if it succeeds the value is in the range and the input
had as many bits as its code. -/
theorem readNonSymmetric_lt {bs : List Bool} (hpos : 0 < numValues.toNat)
    (hnum : numValues.toNat < 2 ^ 31) (h : r.Unread bs) :
    ∃ v r', r.readNonSymmetric numValues = some (v, r') ∧ (r'.Ok → v < numValues.toNat ∧
      (nonSymmetricBits v numValues.toNat).length ≤ bs.length) := by
  by_cases hfew : bs.length < bitWidth numValues.toNat - 1
  · obtain ⟨v, hread⟩ := readNonSymmetric_refuses hpos hnum (by rw [h.1]; exact_mod_cast hfew)
    exact ⟨v, _, hread, fun hok => absurd hok (not_ok_invalidate r)⟩
  have hwidth := bitWidth_lt_iff.mpr hnum
  have hwidthPos := bitWidth_pos hpos
  have hdouble := two_pow_bitWidth_eq hpos
  obtain ⟨hmin, hminLe, hle⟩ := numMinBits_bounds hpos
  simp only [readNonSymmetric, numMinBitsValues_of_lt hnum, bind_eq_bind, bind_some]
  -- the first bits and what is behind them
  obtain ⟨xs, ys, rfl, hxs⟩ : ∃ xs ys, bs = xs ++ ys ∧
      xs.length = bitWidth numValues.toNat - 1 :=
    ⟨_, _, (take_append_drop (bitWidth numValues.toNat - 1) bs).symm,
      length_take_of_le (Nat.le_of_not_lt hfew)⟩
  obtain ⟨u, hread, hrest⟩ := readBits_spec h (by omega)
  have hlt := ofBits_lt xs
  rw [hxs] at hread hlt
  simp only [hread, bind_some, length_append, length_nonSymmetricBits]
  by_cases hshort : ofBits xs < 2 ^ bitWidth numValues.toNat - numValues.toNat
  · rw [if_pos hshort]
    refine ⟨_, _, rfl, fun _ => ⟨by omega, ?_⟩⟩
    rw [if_pos (by omega)]
    omega
  · rw [if_neg hshort]
    cases ys with
    | nil =>
      rw [readBit_refuses (by rw [hrest.1]; decide)]
      exact ⟨_, _, rfl, fun hok => absurd hok (not_ok_invalidate u)⟩
    | cons b zs =>
      obtain ⟨r', hbit, -⟩ := readBit_spec hrest
      have hb : b.toNat < 2 := b.toNat_lt
      simp only [hbit, bind_some]
      rw [long_value (by omega) hb (Nat.le_of_not_lt hshort)]
      refine ⟨_, _, rfl, fun _ => ⟨by omega, ?_⟩⟩
      rw [length_cons]
      split <;> omega

/-- Over a buffer the code of a value that was read is within the bits that the constructor
counted. -/
theorem le_of_readNonSymmetric {bytes : List UInt8} {start val : Nat} (hpos : 0 < numValues.toNat)
    (hnum : numValues.toNat < 2 ^ 31) {r' : BitBufferReader}
    (hread : ((new bytes).consumeBits start).readNonSymmetric numValues = some (val, r'))
    (hok : r'.Ok) :
    (start + (nonSymmetricBits val numValues.toNat).length : Nat) ≤ castInt (bytes.length * 8) := by
  have hstart : ¬ (new bytes).mRemainingBits < start := by
    intro hlt
    obtain ⟨v, hrefused⟩ := readNonSymmetric_refuses (r := (new bytes).consumeBits start) hpos hnum
      (Int.lt_of_lt_of_le (Int.not_le.mp (consumeBits_not_ok hlt)) (Int.natCast_nonneg _))
    obtain ⟨-, rfl⟩ := Prod.mk.inj (some.inj (hread.symm.trans hrefused))
    exact not_ok_invalidate _ hok
  rw [new_mRemainingBits, Int.not_lt] at hstart
  have hunread := new_spec (Int.le_trans (Int.natCast_nonneg _) hstart)
  have hcounted := hunread.1
  rw [new_mRemainingBits] at hcounted
  generalize (bytesBits bytes).take _ = bs at hunread hcounted
  have htake : (bs.take start).length = start := length_take_of_le (by omega)
  rw [← take_append_drop start bs] at hunread
  have hrest := consumeBits_spec hunread
  rw [htake] at hrest
  obtain ⟨v, u, hread', hvalue⟩ := readNonSymmetric_lt hpos hnum hrest
  obtain ⟨rfl, rfl⟩ := Prod.mk.inj (some.inj (hread.symm.trans hread'))
  have hlength := (hvalue hok).2
  rw [length_drop] at hlength
  omega

end Reading

/-! ### Round trip -/

theorem sizeNonSymmetricBits_eq {val numValues : UInt32} (hnum : numValues.toNat < 2 ^ 31) :
    sizeNonSymmetricBits val numValues =
      some (nonSymmetricBits val.toNat numValues.toNat).length := by
  rw [length_nonSymmetricBits]
  simp only [sizeNonSymmetricBits, numMinBitsValues_of_lt hnum, bind_eq_bind, bind_some]

/-- No shift goes beyond its word. A write takes the bits that `size_non_symmetric_bits` says, and
fails only for want of them. A reader that has these bits in front of it reads the value back, the
one over the written buffer in particular. Every successful read gives a value in the range. -/
def NonSymmetricSound {n : Nat} (val numValues : UInt32) (w : BitBufferWriter n) : Prop :=
  (∃ size w' ok, sizeNonSymmetricBits val numValues = some size ∧
      w.writeNonSymmetric val numValues = some (w', ok) ∧
      (ok = true ↔ size ≤ w.remainingBitCount) ∧
      (ok = true → w'.position = w.position + size ∧ (∀ (r : BitBufferReader) (ys : List Bool),
          r.Unread ((w'.bits.drop w.position).take size ++ ys) →
            ∃ r', r.readNonSymmetric numValues = some (val.toNat, r') ∧ r'.Unread ys) ∧
        ∃ r', ((BitBufferReader.new w'.mWritableBytes.toList).consumeBits
          w.position).readNonSymmetric numValues = some (val.toNat, r') ∧ r'.Ok)) ∧
  ∀ (r : BitBufferReader) (bs : List Bool), r.Unread bs →
    ∃ v r', r.readNonSymmetric numValues = some (v, r') ∧ (r'.Ok → v < numValues.toNat)

/-- The code, where there is room for it, ends within the bits that a reader of the buffer counts:
those of the buffer as an `int`. -/
def EndsCounted {n : Nat} (val numValues : UInt32) (w : BitBufferWriter n) : Prop :=
  ∀ size ∈ sizeNonSymmetricBits val numValues, size ≤ w.remainingBitCount →
    (w.position + size : Nat) ≤ castInt (n * 8)

/-- For every number of values that the debug checks admit, every value below it and every writer,
the code is sound exactly if the number is not the largest one admitted, whose bit width is that of
the word that is shifted by it, and the reader's count of bits reaches to the end of the code. -/
theorem nonSymmetric_sound_iff {n : Nat} (val numValues : UInt32) (w : BitBufferWriter n)
    (hval : val.toNat < numValues.toNat) (hmax : numValues.toNat ≤ 2 ^ 31) :
    NonSymmetricSound val numValues w ↔
      numValues.toNat ≠ 2 ^ 31 ∧ EndsCounted val numValues w := by
  by_cases hlargest : numValues.toNat = 2 ^ 31
  · refine iff_of_false ?_ fun h => h.1 hlargest
    rintro ⟨⟨size, w', ok, hsize, -⟩, -⟩
    rw [sizeNonSymmetricBits, numMinBitsValues_of_le (Nat.le_of_eq hlargest.symm)] at hsize
    cases hsize
  have hnum : numValues.toNat < 2 ^ 31 := by omega
  have hpos : 0 < numValues.toNat := zero_lt_of_lt hval
  have hexactly := writeNonSymmetric_exactly w hval hnum
  constructor
  · rintro ⟨⟨size, w', ok, hsize, hrun, hfit, hback⟩, -⟩
    refine ⟨hlargest, fun size' hsize' hroom => ?_⟩
    obtain rfl := some.inj (hsize'.symm.trans hsize)
    obtain ⟨-, -, r', hread, hok⟩ := hback (hfit.mpr hroom)
    have hle := le_of_readNonSymmetric hpos hnum hread hok
    rw [Vector.length_toList] at hle
    rwa [← some.inj ((sizeNonSymmetricBits_eq hnum).symm.trans hsize)]
  · rintro ⟨-, hcounted⟩
    refine ⟨?_, fun r bs h => ?_⟩
    · by_cases hfit : (nonSymmetricBits val.toNat numValues.toNat).length ≤ w.remainingBitCount
      · obtain ⟨w', hrun, hwrote⟩ := hexactly.fits hfit
        refine ⟨_, w', true, sizeNonSymmetricBits_eq hnum, hrun, iff_of_true rfl hfit,
          fun _ => ⟨hwrote.position, fun r ys h => ?_, ?_⟩⟩
        · have hin : w.position ≤ w.bits.length := by
            rw [length_bits]
            exact w.in_buffer
          rw [hwrote.bits, take_drop_overwrite hin] at h
          exact readNonSymmetric_spec hval hnum h
        · obtain ⟨ys, hunread⟩ :=
            consumeBits_of_wrote hwrote (hcounted _ (sizeNonSymmetricBits_eq hnum) hfit)
          obtain ⟨r', hread, hrest⟩ := readNonSymmetric_spec hval hnum hunread
          exact ⟨r', hread, hrest.ok⟩
      · exact ⟨_, w, false, sizeNonSymmetricBits_eq hnum, hexactly.refused (Nat.lt_of_not_le hfit),
          iff_of_false Bool.false_ne_true hfit, nofun⟩
    · obtain ⟨v, r', hread, hvalue⟩ := readNonSymmetric_lt hpos hnum h
      exact ⟨v, r', hread, fun hok => (hvalue hok).1⟩

/-- Five values, with codes of two and three bits. -/
theorem nonSymmetric_sound_five :
    NonSymmetricSound 4 5 (BitBufferWriter.new (Vector.replicate 1 0)) := by
  refine (nonSymmetric_sound_iff 4 5 _ (by decide) (by decide)).mpr ⟨by decide, ?_⟩
  rintro size ⟨⟩ -
  decide

/-- At `2^31` values every one of the three functions shifts a 32-bit word by 32. -/
theorem nonSymmetric_shift_undefined : sizeNonSymmetricBits 0 0x80000000 = none ∧
      (BitBufferWriter.new (Vector.replicate 8 0)).writeNonSymmetric 0 0x80000000 = none ∧
      (BitBufferReader.new (List.replicate 8 0)).readNonSymmetric 0x80000000 = none := by
  refine ⟨?_, writeNonSymmetric_undefined (by decide), ?_⟩
  · rfl
  · rfl

end CxxKit.BitBuffer
