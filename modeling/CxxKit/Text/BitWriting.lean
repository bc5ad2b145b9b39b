import CxxKit.Lib.BitList
import CxxKit.Text.BitBuffer

/-!
What the writer does to the bits of its buffer.

`writeBits_spec` is the one fact about `write_bits` the rest uses: a write that fits
overwrites the bits from the writer's position on by the bits of the value and
advances the position by their number; a write that does not fit changes nothing.
-/

namespace CxxKit.BitBuffer

open BitList Nat UInt8

/-- The bits of a buffer in the order the buffer is read. -/
def bytesBits (bytes : List UInt8) : List Bool := bytes.flatMap fun b => toBits 8 b.toNat

@[simp] theorem bytesBits_nil : bytesBits [] = [] := rfl

@[simp] theorem bytesBits_cons (b : UInt8) (bytes : List UInt8) :
    bytesBits (b :: bytes) = toBits 8 b.toNat ++ bytesBits bytes := rfl

theorem bytesBits_append (xs ys : List UInt8) :
    bytesBits (xs ++ ys) = bytesBits xs ++ bytesBits ys := List.flatMap_append ..

@[simp] theorem length_bytesBits (bytes : List UInt8) :
    (bytesBits bytes).length = 8 * bytes.length := by
  induction bytes with
  | nil => rfl
  | cons b bytes ih =>
    rw [bytesBits_cons, List.length_append, length_toBits, List.length_cons]
    omega

/-! ### Single bytes -/

/-- The bits of a word after a left shift. -/
theorem toBits_shl64 {n : Nat} (h : n ≤ 64) (val : Nat) :
    toBits 64 (shl64 val n) = (toBits 64 val).drop n ++ List.replicate n false := by
  rw [shl64, toBits_mod le_rfl, toBits_shiftLeft h]

theorem toBits_ofNat (v : Nat) : toBits 8 (ofNat v).toNat = toBits 8 v := by
  rw [toNat_ofNat', toBits_mod le_rfl]

/-- The highest byte of a word holds its first eight bits. -/
theorem toBits_highestByte (val : Nat) :
    toBits 8 (highestByte val).toNat = (toBits 64 val).take 8 := by
  rw [highestByte, toBits_ofNat, take_toBits (by decide)]

theorem testBit_mask (c off i : Nat) :
    (ofNat ((ofNat (0xFF <<< (8 - c))).toNat >>> off)).toNat.testBit i =
      decide (8 - c ≤ i + off ∧ i + off < 8) := by
  have hff : ∀ j, (0xFF : Nat).testBit j = decide (j < 8) := fun j =>
    testBit_two_pow_sub_one 8 j
  simp only [toNat_ofNat', testBit_mod_two_pow, testBit_shiftRight,
    testBit_shiftLeft, hff, Nat.add_comm off i]
  by_cases hlow : 8 - c ≤ i + off
  · by_cases hhigh : i + off < 8
    · have h₁ : i < 8 := by omega
      have h₂ : i + off - (8 - c) < 8 := by omega
      simp [hlow, hhigh, h₁, h₂]
    · simp [hhigh]
  · simp [hlow]

variable {i off c : Nat} {src tgt : UInt8}

theorem testBit_not (hi : i < 8) (m : UInt8) : (~~~m).toNat.testBit i = !m.toNat.testBit i := by
  change (~~~m).toBitVec.toNat.testBit i = !m.toBitVec.toNat.testBit i
  rw [UInt8.toBitVec_not, BitVec.testBit_toNat, BitVec.testBit_toNat, BitVec.getLsbD_not,
    decide_eq_true hi, Bool.true_and]

theorem testBit_writePartialByte (hi : i < 8) : (writePartialByte src c tgt off).toNat.testBit i =
      ((tgt.toNat.testBit i && !decide (8 - c ≤ i + off ∧ i + off < 8)) ||
        src.toNat.testBit (i + off)) := by
  rw [writePartialByte, UInt8.toNat_or, UInt8.toNat_and, testBit_or, testBit_and,
    testBit_not hi, testBit_mask, toNat_ofNat', testBit_mod_two_pow, decide_eq_true hi,
    testBit_shiftRight, Nat.add_comm off i, Bool.true_and]

/-- A partial write replaces `c` bits of the target from `off` on, provided the
source has nothing beyond these bits that would reach the target. -/
theorem toBits_writePartialByte (hfit : off + c ≤ 8)
    (hrest : off + c = 8 ∨ (toBits 8 src.toNat).drop c = List.replicate (8 - c) false) :
    toBits 8 (writePartialByte src c tgt off).toNat =
      overwrite off ((toBits 8 src.toNat).take c) (toBits 8 tgt.toNat) := by
  obtain ⟨d, hd⟩ : ∃ d, 8 = off + (c + d) := ⟨8 - off - c, by omega⟩
  have hsrc : ∀ i, 8 ≤ i → src.toNat.testBit i = false := fun i hi =>
    testBit_lt_two_pow (Nat.lt_of_lt_of_le src.toNat_lt (Nat.pow_le_pow_right (by decide) hi))
  have hhigh : ∀ i, d ≠ 0 → i < 8 - c → src.toNat.testBit i = false := by
    intro i hne hi
    rcases hrest with hfull | hzero
    · omega
    · rw [drop_toBits (by omega), ← toBits_zero_right] at hzero
      rw [testBit_of_toBits_eq hzero hi, zero_testBit]
  have hsplit : ∀ v,
      toBits 8 v = toBits off (v >>> (c + d)) ++ toBits c (v >>> d) ++ toBits d v := by
    intro v
    rw [List.append_assoc, ← toBits_add, ← toBits_add, ← hd]
  have hlen : ((toBits 8 src.toNat).take c).length = c := by
    rw [List.length_take, length_toBits]
    omega
  rw [overwrite, hlen, take_toBits (by omega), take_toBits (by omega), drop_toBits hfit, hsplit]
  have hd' : 8 - (off + c) = d := by omega
  rw [hd']
  congr 1
  · congr 1
    · -- in front of the written bits
      refine toBits_congr fun i hi => ?_
      rw [testBit_shiftRight, testBit_shiftRight, testBit_writePartialByte (by omega),
        hsrc _ (by omega), Bool.or_false]
      have hmask : ¬ (8 - c ≤ c + d + i + off ∧ c + d + i + off < 8) := by omega
      have hpos : 8 - off + i = c + d + i := by omega
      rw [decide_eq_false hmask, hpos, Bool.not_false, Bool.and_true]
    · refine toBits_congr fun i hi => ?_
      rw [testBit_shiftRight, testBit_shiftRight, testBit_writePartialByte (by omega)]
      have hmask : 8 - c ≤ d + i + off ∧ d + i + off < 8 := by omega
      have hpos : 8 - c + i = d + i + off := by omega
      rw [decide_eq_true hmask, hpos, Bool.not_true, Bool.and_false, Bool.false_or]
  · -- behind them
    refine toBits_congr fun i hi => ?_
    rw [testBit_writePartialByte (by omega), hhigh _ (by omega) (by omega), Bool.or_false]
    have hmask : ¬ (8 - c ≤ i + off ∧ i + off < 8) := by omega
    rw [decide_eq_false hmask, Bool.not_false, Bool.and_true]

/-! ### Storing a byte -/

variable {n : Nat} {bytes : Vector UInt8 n}

theorem bytesBits_split (h : i < n) :
    bytesBits bytes.toList = bytesBits (bytes.toList.take i) ++ toBits 8 bytes[i].toNat ++
      bytesBits (bytes.toList.drop (i + 1)) := by
  have hlt : i < bytes.toList.length := by simpa using h
  have hsplit : bytes.toList = bytes.toList.take i ++ bytes[i] :: bytes.toList.drop (i + 1) := by
    have hget : bytes[i] = bytes.toList[i] := by simp
    rw [hget, ← List.drop_eq_getElem_cons hlt, List.take_append_drop]
  conv_lhs => rw [hsplit]
  rw [bytesBits_append, bytesBits_cons, ← List.append_assoc]

/-- Storing a byte that differs from the old one by overwriting some of its bits. -/
theorem bytesBits_set (h : i < n) {b : UInt8} {xs : List Bool} (hfit : off + xs.length ≤ 8)
    (hb : toBits 8 b.toNat = overwrite off xs (toBits 8 bytes[i].toNat)) :
    bytesBits (bytes.set i b h).toList = overwrite (8 * i + off) xs (bytesBits bytes.toList) := by
  have hpre : (bytesBits (bytes.toList.take i)).length = 8 * i := by
    simp
    omega
  have hset : bytesBits (bytes.set i b h).toList = bytesBits (bytes.toList.take i) ++
      toBits 8 b.toNat ++ bytesBits (bytes.toList.drop (i + 1)) := by
    rw [bytesBits_split h, Vector.toList_set]
    simp [List.take_set_of_le, List.drop_set_of_lt]
  rw [hset, hb, @bytesBits_split i n bytes h, ← hpre, overwrite_append (by simpa using hfit)]

namespace BitBufferWriter

variable {bitCount val : Nat} {w : BitBufferWriter n} {xs : List Bool}

section

variable (w)

theorem store_eq (h : i < n) (b : UInt8) : store bytes i b = some (bytes.set i b h) := dif_pos h

/-! ### Whole bytes -/

theorem writeFullBytes_lt (h : bitCount < 8) (bytes : Vector UInt8 n) (i val : Nat) :
    writeFullBytes bitCount bytes i val = some (bytes, i, val, bitCount) := by
  unfold writeFullBytes
  split
  · omega
  · rfl

theorem writeFullBytes_succ (h : i < n) (bitCount val : Nat) :
    writeFullBytes (bitCount + 8) bytes i val =
      writeFullBytes bitCount (bytes.set i (highestByte val) h) (i + 1) (shl64 val 8) := by
  rw [writeFullBytes, store_eq h]
  rfl

theorem bytesBits_setHighest (h : i < n) (val : Nat) :
    bytesBits (bytes.set i (highestByte val) h).toList =
      overwrite (8 * i) ((toBits 64 val).take 8) (bytesBits bytes.toList) := by
  have hlen : ((toBits 64 val).take 8).length = 8 := by simp
  rw [← Nat.add_zero (8 * i)]
  apply bytesBits_set h (by rw [hlen])
  rw [toBits_highestByte, overwrite]
  simp

/-- The loop writes the first `bitCount / 8` bytes of the word and shifts them out. -/
theorem writeFullBytes_spec (bitCount : Nat) (bytes : Vector UInt8 n) (i val : Nat)
    (hle : bitCount ≤ 64) (hfit : 8 * i + bitCount ≤ 8 * n) :
    ∃ bytes' val', writeFullBytes bitCount bytes i val =
        some (bytes', i + bitCount / 8, val', bitCount % 8) ∧
      bytesBits bytes'.toList =
        overwrite (8 * i) ((toBits 64 val).take (8 * (bitCount / 8))) (bytesBits bytes.toList) ∧
      toBits 64 val' = (toBits 64 val).drop (8 * (bitCount / 8)) ++
        List.replicate (8 * (bitCount / 8)) false := by
  induction bitCount using Nat.strongRecOn generalizing bytes i val with
  | ind bitCount ih =>
    by_cases hlt : bitCount < 8
    · have hdiv : bitCount / 8 = 0 := div_eq_of_lt hlt
      have hmod : bitCount % 8 = bitCount := mod_eq_of_lt hlt
      refine ⟨bytes, val, ?_, ?_, ?_⟩
      · rw [writeFullBytes_lt hlt, hdiv, hmod, Nat.add_zero]
      · simp [hdiv]
      · simp [hdiv]
    · obtain ⟨m, rfl⟩ : ∃ m, bitCount = m + 8 := ⟨bitCount - 8, by omega⟩
      have hi : i < n := by omega
      have hdiv : (m + 8) / 8 = m / 8 + 1 := by omega
      obtain ⟨bytes', val', hrun, hbits, hval⟩ :=
        ih m (by omega) (bytes.set i (highestByte val) hi) (i + 1) (shl64 val 8) (by omega)
          (by omega)
      have hshift := toBits_shl64 (n := 8) (by decide) val
      -- the bytes the rest of the loop writes come after the one written here
      have htake : (toBits 64 (shl64 val 8)).take (8 * (m / 8)) =
          ((toBits 64 val).drop 8).take (8 * (m / 8)) := by
        rw [hshift, List.take_append_of_le_length (by simp; omega)]
      refine ⟨bytes', val', ?_, ?_, ?_⟩
      · rw [writeFullBytes_succ hi, hrun, hdiv, add_mod_right, Nat.add_assoc,
          Nat.add_comm 1 (m / 8)]
      · have hlen : ((toBits 64 val).take 8).length = 8 := by simp
        have hpos : 8 * (i + 1) = 8 * i + ((toBits 64 val).take 8).length := by
          omega
        rw [hbits, htake, bytesBits_setHighest, hpos, overwrite_overwrite (by simp; omega),
          ← List.take_add]
        congr 2
        omega
      · rw [hval, hshift]
        rw [List.drop_append_of_le_length (by simp; omega), List.drop_drop, List.append_assoc,
          List.replicate_append_replicate]
        congr 2
        · omega
        · omega

/-! ### `write_bits` -/

/-- The bits of the buffer, and the position of the next bit to write. -/
def bits : List Bool := bytesBits w.mWritableBytes.toList

def position : Nat := 8 * w.mByteOffset + w.mBitOffset

@[simp] theorem length_bits : w.bits.length = 8 * n := by
  simp [bits]

end

theorem consumeBits_of_fits (h : bitCount ≤ w.remainingBitCount) :
    ∃ w', w.consumeBits bitCount = (w', true) ∧ w'.bits = w.bits ∧
      w'.position = w.position + bitCount := by
  refine ⟨_, dif_neg (Nat.not_lt.mpr h), rfl, ?_⟩
  simp only [position]
  omega

/-- The word `write_bits` works on: the bits to write, then zeros. -/
theorem toBits_top (hle : bitCount ≤ 64) : toBits 64 (shl64 val (64 - bitCount)) =
      toBits bitCount val ++ List.replicate (64 - bitCount) false := by
  rw [toBits_shl64 (sub_le ..), drop_toBits (sub_le ..)]
  congr 2
  omega

theorem writeBits_refuses
    (h : w.remainingBitCount < bitCount) : w.writeBits val bitCount = some (w, false) :=
  if_pos h

/-- A word whose first bits are `xs`, the others being zero. -/
def Holds (val : Nat) (xs : List Bool) : Prop :=
  xs.length ≤ 64 ∧ toBits 64 val = xs ++ List.replicate (64 - xs.length) false

theorem holds_shl64 {c : Nat} (h : Holds val xs) (hc : c ≤ xs.length) :
    Holds (shl64 val c) (xs.drop c) := by
  obtain ⟨hlen, hbits⟩ := h
  refine ⟨by simp; omega, ?_⟩
  rw [toBits_shl64 (by omega), hbits, List.drop_append_of_le_length hc, List.append_assoc]
  congr 2
  simp
  omega

/-- Writing as many of the word's bits as there are, or as fit into the byte. -/
theorem toBits_writePartialByte_of_holds {off c : Nat} {tgt : UInt8}
    (h : Holds val xs) (hoff : off < 8) (hc : c = min xs.length (8 - off)) :
    toBits 8 (writePartialByte (highestByte val) c tgt off).toNat =
      overwrite off (xs.take c) (toBits 8 tgt.toNat) := by
  obtain ⟨hlen, hbits⟩ := h
  have hbyte : toBits 8 (highestByte val).toNat =
      (xs ++ List.replicate (64 - xs.length) false).take 8 := by rw [toBits_highestByte, hbits]
  have htake : (toBits 8 (highestByte val).toNat).take c = xs.take c := by
    rw [hbyte, List.take_take, List.take_append_of_le_length (by omega)]
    congr 1
    omega
  rw [← htake]
  apply toBits_writePartialByte (by omega)
  by_cases hfull : off + c = 8
  · exact .inl hfull
  · right
    have hcl : c = xs.length := by omega
    rw [hbyte, hcl, List.take_append, List.take_of_length_le (by omega), List.take_replicate,
      List.drop_left]
    congr 1
    omega

/-- What remains after the first byte: whole bytes, then the rest of the bits at the
top of the last byte. -/
theorem writeFullBytes_rest (bytes : Vector UInt8 n)
    (h : Holds val xs) (hfit : 8 * i + xs.length ≤ 8 * n) :
    ∃ bytes' val', writeFullBytes xs.length bytes i val =
        some (bytes', i + xs.length / 8, val', xs.length % 8) ∧
      (xs.length % 8 = 0 →
        bytesBits bytes'.toList = overwrite (8 * i) xs (bytesBits bytes.toList)) ∧
      ∀ hlast : i + xs.length / 8 < n, bytesBits (bytes'.set (i + xs.length / 8)
          (writePartialByte (highestByte val') (xs.length % 8) bytes'[i + xs.length / 8] 0)
          hlast).toList = overwrite (8 * i) xs (bytesBits bytes.toList) := by
  obtain ⟨bytes', val', hrun, hbits, hval⟩ := writeFullBytes_spec xs.length bytes i val h.1 hfit
  have htake : (toBits 64 val).take (8 * (xs.length / 8)) = xs.take (8 * (xs.length / 8)) := by
    rw [h.2, List.take_append_of_le_length (by omega)]
  have hlen : (xs.take (8 * (xs.length / 8))).length = 8 * (xs.length / 8) := by
    rw [List.length_take]
    omega
  rw [htake] at hbits
  refine ⟨bytes', val', hrun, fun hzero => ?_, fun hlast => ?_⟩
  · rw [hbits, List.take_of_length_le (by omega)]
  · have hdrop : (xs.drop (8 * (xs.length / 8))).length = xs.length % 8 := by
      rw [List.length_drop]
      omega
    have hholds : Holds val' (xs.drop (8 * (xs.length / 8))) := by
      refine ⟨by omega, ?_⟩
      rw [hval, h.2, List.drop_append_of_le_length (by omega), List.append_assoc,
        List.replicate_append_replicate]
      congr 2
      have := h.1
      omega
    have hbyte : toBits 8 (writePartialByte (highestByte val') (xs.length % 8)
        bytes'[i + xs.length / 8] 0).toNat = overwrite 0 ((xs.drop (8 * (xs.length / 8))).take
          (xs.length % 8)) (toBits 8 bytes'[i + xs.length / 8].toNat) :=
      toBits_writePartialByte_of_holds hholds (by decide) (by omega)
    rw [List.take_of_length_le (by omega)] at hbyte
    rw [bytesBits_set hlast (by omega) hbyte, hbits]
    have hpos : 8 * (i + xs.length / 8) + 0 = 8 * i + (xs.take (8 * (xs.length / 8))).length := by
      omega
    rw [hpos, overwrite_overwrite (by simp; omega), List.take_append_drop]

section WriteBits

theorem holds_toBits (val : Nat) (hle : bitCount ≤ 64) :
    Holds (shl64 val (64 - bitCount)) (toBits bitCount val) := by
  have hlen : (toBits bitCount val).length = bitCount := length_toBits ..
  refine ⟨by omega, ?_⟩
  rw [toBits_top hle, hlen]

/-- The bytes once the first one is written. -/
def firstWritten (w : BitBufferWriter n) (val bitCount : Nat) (hi : w.mByteOffset < n) :
    Vector UInt8 n :=
  w.mWritableBytes.set w.mByteOffset (writePartialByte (highestByte (shl64 val (64 - bitCount)))
    (min bitCount (8 - w.mBitOffset)) w.mWritableBytes[w.mByteOffset] w.mBitOffset) hi

theorem bytesBits_firstWritten (hle : bitCount ≤ 64) (hi : w.mByteOffset < n) :
    bytesBits (w.firstWritten val bitCount hi).toList = overwrite w.position
      ((toBits bitCount val).take (min bitCount (8 - w.mBitOffset))) w.bits := by
  have hbit := w.bit_lt
  exact bytesBits_set hi (by simp; omega)
    (toBits_writePartialByte_of_holds (holds_toBits val hle) hbit (by rw [length_toBits]))

/-- The first byte and the rest make up all the bits. -/
theorem overwrite_firstWritten (hle : bitCount ≤ 64) (hi : w.mByteOffset < n)
    (hmore : 8 - w.mBitOffset < bitCount) :
    overwrite (8 * (w.mByteOffset + 1)) ((toBits bitCount val).drop (8 - w.mBitOffset))
      (bytesBits (w.firstWritten val bitCount hi).toList) =
        overwrite w.position (toBits bitCount val) w.bits := by
  have hbit := w.bit_lt
  have hlen : (toBits bitCount val).length = bitCount := length_toBits ..
  have hmin : min bitCount (8 - w.mBitOffset) = 8 - w.mBitOffset := by omega
  have htake : ((toBits bitCount val).take (8 - w.mBitOffset)).length = 8 - w.mBitOffset := by
    rw [List.length_take]
    omega
  have hp : 8 * (w.mByteOffset + 1) = w.position +
      ((toBits bitCount val).take (8 - w.mBitOffset)).length := by
    unfold position
    omega
  rw [bytesBits_firstWritten hle hi, hmin, hp, overwrite_overwrite (by simp; omega),
    List.take_append_drop]

/-- The cursor moves once the bytes are written. -/
theorem consumeBits_written (hfit : bitCount ≤ w.remainingBitCount) {bytes : Vector UInt8 n}
    (hbytes : bytesBits bytes.toList = overwrite w.position (toBits bitCount val) w.bits) :
    ∃ w', some (({ w with mWritableBytes := bytes } : BitBufferWriter n).consumeBits bitCount) =
        some (w', true) ∧
      w'.bits = overwrite w.position (toBits bitCount val) w.bits ∧
      w'.position = w.position + bitCount := by
  obtain ⟨w', hrun, hbits, hp⟩ := consumeBits_of_fits
    (w := { w with mWritableBytes := bytes }) hfit
  exact ⟨w', congrArg some hrun, hbits.trans hbytes, hp⟩

end WriteBits

/-- **`write_bits`.** A write that fits overwrites the bits at the position and
advances it. -/
theorem writeBits_spec (hpos : 0 < bitCount)
    (hle : bitCount ≤ 64) (hfit : bitCount ≤ w.remainingBitCount) :
    ∃ w', w.writeBits val bitCount = some (w', true) ∧
      w'.bits = overwrite w.position (toBits bitCount val) w.bits ∧
      w'.position = w.position + bitCount := by
  have hroom := w.remainingBitCount_add
  have hi : w.mByteOffset < n := by omega
  have hlen : (toBits bitCount val).length = bitCount := length_toBits ..
  have hload : w.mWritableBytes[w.mByteOffset]? = some w.mWritableBytes[w.mByteOffset] :=
    Vector.getElem?_eq_getElem hi
  have hfirst : bytesBits (w.firstWritten val bitCount hi).toList = _ :=
    bytesBits_firstWritten hle hi
  rw [writeBits, if_neg (Nat.not_lt.mpr hfit), if_neg (by omega)]
  simp only [hload, store_eq hi, Option.bind_eq_bind, Option.bind_some]
  by_cases hone : bitCount ≤ 8 - w.mBitOffset
  · rw [if_pos hone]
    refine consumeBits_written hfit (hfirst.trans ?_)
    rw [List.take_of_length_le (by omega)]
  · rw [if_neg hone]
    have hmin : min bitCount (8 - w.mBitOffset) = 8 - w.mBitOffset := by omega
    have hrestLen : ((toBits bitCount val).drop (8 - w.mBitOffset)).length =
        bitCount - (8 - w.mBitOffset) := by rw [List.length_drop, hlen]
    obtain ⟨bytes', val', hrun, heven, hodd⟩ := writeFullBytes_rest (i := w.mByteOffset + 1)
      (w.firstWritten val bitCount hi)
      (holds_shl64 (holds_toBits val hle) (c := 8 - w.mBitOffset) (by omega)) (by omega)
    rw [overwrite_firstWritten hle hi (by omega), hrestLen] at heven hodd
    rw [hrestLen, firstWritten, hmin] at hrun
    simp only [hmin, hrun, Option.bind_some]
    by_cases hrest : (bitCount - (8 - w.mBitOffset)) % 8 > 0
    · have hlast : w.mByteOffset + 1 + (bitCount - (8 - w.mBitOffset)) / 8 < n := by omega
      rw [if_pos hrest, Vector.getElem?_eq_getElem hlast]
      simp only [store_eq hlast, Option.bind_some]
      exact consumeBits_written hfit (hodd hlast)
    · rw [if_neg hrest]
      exact consumeBits_written hfit (heven (by omega))

end BitBufferWriter

end CxxKit.BitBuffer
