import Mathlib.Data.Nat.Bitwise
import Mathlib.Data.Vector.Basic

/-!
`BitBufferReader` and `BitBufferWriter` (`text/bit_buffer.hpp`,
`text/bit_buffer.cpp`).

A `uint64_t` is a natural number reduced modulo `2 ^ 64` where an operation can
leave the range; `int` is an integer.  Undefined behaviour is `none`: an access to a
byte outside the buffer, or a shift of a word by its width or more.

The writer's cursor is a byte and a bit offset, kept inside the buffer by the type.
The reader's cursor is the rest of the buffer from the byte with the next unread bit
on, and the number of unread bits, negative after a failed read.  The reader's
constructor stores `checked_cast<int>(size * 8)`; the range check in `checked_cast`
is commented out in the source, so the conversion wraps.
-/

namespace CxxKit.BitBuffer

open UInt8

/-! ### Machine arithmetic -/

/-- `val << n` on `uint64_t`. -/
def shl64 (val n : Nat) : Nat := (val <<< n) % 2 ^ 64

/-- `static_cast<int>` of an unsigned value: it wraps modulo `2 ^ 32`. -/
def castInt (n : Nat) : Int := (n : Int).bmod 4294967296

/-- `utils::bit_width`. -/
def bitWidth (x : Nat) : Nat := x.size

/-- `(uint32_t{1} << width) - num_values` for the bit width of `num_values`, the number of
values with a short code. The shift of a 32-bit word is defined for a width below 32. -/
def numMinBitsValues (numValues : Nat) : Option Nat :=
  let width := bitWidth numValues
  if width < 32 then some (2 ^ width - numValues) else none

/-- `detail::highest_byte`. -/
def highestByte (val : Nat) : UInt8 := ofNat (val >>> 56)

/-- `detail::write_partial_byte`. -/
def writePartialByte (source : UInt8) (sourceBitCount : Nat) (target : UInt8)
    (targetBitOffset : Nat) : UInt8 :=
  let mask := ofNat ((ofNat (0xFF <<< (8 - sourceBitCount))).toNat >>> targetBitOffset)
  (target &&& ~~~mask) ||| ofNat (source.toNat >>> targetBitOffset)

/-! ### The writer -/

/-- A writer over a buffer of `byteCount` bytes. -/
structure BitBufferWriter (byteCount : Nat) where
  mWritableBytes : Vector UInt8 byteCount
  mByteOffset : Nat
  mBitOffset : Nat
  bit_lt : mBitOffset < 8
  in_buffer : 8 * mByteOffset + mBitOffset ≤ 8 * byteCount

namespace BitBufferWriter

variable {n : Nat}

/-- The constructor. -/
def new (bytes : Vector UInt8 n) : BitBufferWriter n :=
  ⟨bytes, 0, 0, by decide, Nat.zero_le _⟩

def remainingBitCount (w : BitBufferWriter n) : Nat := (n - w.mByteOffset) * 8 - w.mBitOffset

theorem remainingBitCount_add (w : BitBufferWriter n) :
    8 * w.mByteOffset + w.mBitOffset + w.remainingBitCount = 8 * n := by
  have := w.in_buffer
  simp only [remainingBitCount]
  omega

variable (w : BitBufferWriter n)

def consumeBits (bitCount : Nat) : BitBufferWriter n × Bool :=
  if h : bitCount > w.remainingBitCount then (w, false)
  else
    ({ w with
        mByteOffset := w.mByteOffset + (w.mBitOffset + bitCount) / 8
        mBitOffset := (w.mBitOffset + bitCount) % 8
        bit_lt := Nat.mod_lt _ (by decide)
        in_buffer := by
          have := w.remainingBitCount_add
          omega }, true)

def seek (byteOffset bitOffset : Nat) : BitBufferWriter n × Bool :=
  if h : byteOffset > n ∨ bitOffset > 7 ∨ (byteOffset = n ∧ bitOffset > 0) then (w, false)
  else ({ w with
      mByteOffset := byteOffset
      mBitOffset := bitOffset
      bit_lt := by omega
      in_buffer := by omega }, true)

/-! #### Bits -/

def store (bytes : Vector UInt8 n) (i : Nat) (b : UInt8) : Option (Vector UInt8 n) :=
  if h : i < n then some (bytes.set i b h) else none

/-- The loop over the whole bytes: the bytes, the index and the value after it, and
the bits still to write. -/
def writeFullBytes : Nat → Vector UInt8 n → Nat → Nat → Option (Vector UInt8 n × Nat × Nat × Nat)
  | bitCount + 8, bytes, i, val => do
      let bytes ← store bytes i (highestByte val)
      writeFullBytes bitCount bytes (i + 1) (shl64 val 8)
  | bitCount, bytes, i, val => some (bytes, i, val, bitCount)

def writeBits (val bitCount : Nat) : Option (BitBufferWriter n × Bool) :=
  if bitCount > w.remainingBitCount then some (w, false)
  -- the shift of `val` by `64 - bitCount` is undefined for any other count
  else if bitCount = 0 ∨ 64 < bitCount then none
  else do
    -- the bits to write go to the top of the word
    let val := shl64 val (64 - bitCount)
    let remainingBitsInCurrentByte := 8 - w.mBitOffset
    let bitsInFirstByte := min bitCount remainingBitsInCurrentByte
    let first ← w.mWritableBytes[w.mByteOffset]?
    let bytes ← store w.mWritableBytes w.mByteOffset
      (writePartialByte (highestByte val) bitsInFirstByte first w.mBitOffset)
    if bitCount ≤ remainingBitsInCurrentByte then
      some ({ w with mWritableBytes := bytes }.consumeBits bitCount)
    else
      let (bytes, i, val, rest) ← writeFullBytes (bitCount - bitsInFirstByte) bytes
        (w.mByteOffset + 1) (shl64 val bitsInFirstByte)
      if rest > 0 then
        let last ← bytes[i]?
        let bytes ← store bytes i (writePartialByte (highestByte val) rest last 0)
        some ({ w with mWritableBytes := bytes }.consumeBits bitCount)
      else some ({ w with mWritableBytes := bytes }.consumeBits bitCount)

def writeUInt8 (val : UInt8) := w.writeBits val.toNat 8

def writeUInt16 (val : UInt16) := w.writeBits val.toNat 16

def writeUInt32 (val : UInt32) := w.writeBits val.toNat 32

/-! #### Variable-length codes -/

def writeNonSymmetric (val numValues : UInt32) : Option (BitBufferWriter n × Bool) :=
  -- one possible value takes no bits, and `write_bits` does not support zero bits
  if numValues.toNat = 1 then some (w, true)
  else do
    let countBits := bitWidth numValues.toNat
    let numMinBits ← numMinBitsValues numValues.toNat
    if val.toNat < numMinBits then w.writeBits val.toNat (countBits - 1)
    else w.writeBits ((val.toNat + numMinBits) % 2 ^ 32) countBits

def sizeNonSymmetricBits (val numValues : UInt32) : Option Nat := do
  let countBits := bitWidth numValues.toNat
  let numMinBits ← numMinBitsValues numValues.toNat
  some (if val.toNat < numMinBits then countBits - 1 else countBits)

def writeExponentialGolomb (val : UInt32) : Option (BitBufferWriter n × Bool) :=
  if val.toNat = 2 ^ 32 - 1 then some (w, false)
  else
    let valToEncode := val.toNat + 1
    w.writeBits valToEncode (bitWidth valToEncode * 2 - 1)

def writeSignedExponentialGolomb (val : Int32) : Option (BitBufferWriter n × Bool) :=
  if val.toInt = 0 then w.writeExponentialGolomb 0
  else if val.toInt > 0 then
    let signedVal := val.toInt.toNat
    w.writeExponentialGolomb (UInt32.ofNat (signedVal * 2 - 1))
  else if val.toInt = -2 ^ 31 then some (w, false)
  else
    let signedVal := (-val.toInt).toNat
    w.writeExponentialGolomb (UInt32.ofNat (signedVal * 2))

/-- The `do … while (val > 0)` loop of `write_leb128`, `groups` bounding its rounds. -/
def writeLeb128Loop : Nat → BitBufferWriter n → Nat → Bool → Option (BitBufferWriter n × Bool)
  | 0, _, _, _ => none
  | groups + 1, w, val, success => do
      let byte := val &&& 0x7f
      let val := val >>> 7
      let byte := if val > 0 then byte ||| 0x80 else byte
      let (w, ok) ← w.writeUInt8 (ofNat byte)
      let success := success && ok
      if val > 0 then writeLeb128Loop groups w val success else some (w, success)

/-- Ten groups of seven bits hold a `uint64_t`. -/
def writeLeb128 (val : UInt64) : Option (BitBufferWriter n × Bool) :=
  writeLeb128Loop 10 w val.toNat true

def writeStringLoop : BitBufferWriter n → List UInt8 → Bool → Option (BitBufferWriter n × Bool)
  | w, [], success => some (w, success)
  | w, c :: data, success => do
      let (w, ok) ← w.writeUInt8 c
      writeStringLoop w data (success && ok)

def writeString (data : List UInt8) : Option (BitBufferWriter n × Bool) :=
  writeStringLoop w data true

end BitBufferWriter

/-! ### The reader -/

structure BitBufferReader where
  mBytes : List UInt8
  mRemainingBits : Int
deriving DecidableEq, Repr

namespace BitBufferReader

/-- The constructors, over a buffer of any kind. -/
def new (bytes : List UInt8) : BitBufferReader := ⟨bytes, castInt (bytes.length * 8)⟩

theorem new_mRemainingBits (bytes : List UInt8) :
    (new bytes).mRemainingBits = castInt (bytes.length * 8) := by
  rw [new]

variable (r : BitBufferReader)

/-- `Ok()`: no read or consume has failed. -/
def Ok : Prop := 0 ≤ r.mRemainingBits

instance (r : BitBufferReader) : Decidable r.Ok := inferInstanceAs (Decidable (0 ≤ _))

def invalidate : BitBufferReader := { r with mRemainingBits := -1 }

def consumeBits (bits : Int) : BitBufferReader :=
  if r.mRemainingBits < bits then r.invalidate
  else
    let remainingBytes := (r.mRemainingBits + 7) / 8
    let remainingBits := r.mRemainingBits - bits
    let newRemainingBytes := (remainingBits + 7) / 8
    ⟨r.mBytes.drop (remainingBytes - newRemainingBytes).toNat, remainingBits⟩

/-! #### Bits -/

/-- The loop over the whole bytes: the bits still to read, the result and the rest of
the buffer after it. -/
def readFullBytes : Nat → Nat → List UInt8 → Option (Nat × Nat × List UInt8)
  | bits + 8, result, bytes => do
      let byte ← bytes.head?
      readFullBytes bits (result ||| shl64 byte.toNat bits) bytes.tail
  | bits, result, bytes => some (bits, result, bytes)

/-- From a byte boundary on: whole bytes, then the top bits of the last byte. -/
def readAligned (remainingBits : Int) (bits result : Nat) (bytes : List UInt8) :
    Option (Nat × BitBufferReader) := do
  let (bits, result, bytes) ← readFullBytes bits result bytes
  if bits > 0 then
    let byte ← bytes.head?
    some (result ||| (byte.toNat >>> (8 - bits)), ⟨bytes, remainingBits⟩)
  else some (result, ⟨bytes, remainingBits⟩)

def readBits (bits : Nat) : Option (Nat × BitBufferReader) :=
  if r.mRemainingBits < bits then some (0, r.invalidate)
  else
    let remainingBitsInFirstByte := r.mRemainingBits.toNat % 8
    let remainingBits := r.mRemainingBits - bits
    if bits < remainingBitsInFirstByte then do
      let byte ← r.mBytes.head?
      let offset := remainingBitsInFirstByte - bits
      some ((byte.toNat >>> offset) &&& ((1 <<< bits) - 1),
        { r with mRemainingBits := remainingBits })
    else if remainingBitsInFirstByte > 0 then do
      let byte ← r.mBytes.head?
      let bits := bits - remainingBitsInFirstByte
      let mask := (1 <<< remainingBitsInFirstByte) - 1
      readAligned remainingBits bits (shl64 (byte.toNat &&& mask) bits) r.mBytes.tail
    else readAligned remainingBits bits 0 r.mBytes

def readBit : Option (Nat × BitBufferReader) :=
  if r.mRemainingBits ≤ 0 then some (0, r.invalidate)
  else do
    let remainingBits := r.mRemainingBits - 1
    let bitPosition := remainingBits.toNat % 8
    let byte ← r.mBytes.head?
    if bitPosition = 0 then some (byte.toNat &&& 0x01, ⟨r.mBytes.tail, remainingBits⟩)
    else some ((byte.toNat >>> bitPosition) &&& 0x01, ⟨r.mBytes, remainingBits⟩)

/-! #### Variable-length codes -/

def readNonSymmetric (numValues : UInt32) : Option (Nat × BitBufferReader) := do
  let width := bitWidth numValues.toNat
  let numMinBits ← numMinBitsValues numValues.toNat
  let (val, r) ← r.readBits (width - 1)
  if val < numMinBits then some (val % 2 ^ 32, r)
  else
    let (bit, r) ← r.readBit
    some ((shl64 val 1 + bit + 2 ^ 64 - numMinBits) % 2 ^ 64 % 2 ^ 32, r)

/-- `while (read_bit() == 0)`; `allowed` zeros may still come before the parse fails,
`none` being that failure. -/
def leadingZeros : Nat → Nat → BitBufferReader → Option (Option Nat × BitBufferReader)
  | 0, _, r => some (none, r.invalidate)
  | allowed + 1, zeroBitCount, r => do
      let (bit, r) ← r.readBit
      if bit = 0 then leadingZeros allowed (zeroBitCount + 1) r else some (some zeroBitCount, r)

def readExponentialGolomb : Option (Nat × BitBufferReader) := do
  let (zeros, r) ← leadingZeros 32 0 r
  match zeros with
  | none => some (0, r)
  | some zeroBitCount => do
      let (low, r) ← r.readBits zeroBitCount
      some ((2 ^ zeroBitCount + low % 2 ^ 32 - 1) % 2 ^ 32, r)

def readSignedExponentialGolomb : Option (Int × BitBufferReader) := do
  let (unsignedVal, r) ← r.readExponentialGolomb
  if unsignedVal &&& 1 = 0 then some (-(unsignedVal / 2 : Nat), r)
  else some (((unsignedVal + 1) % 2 ^ 32 / 2 : Nat), r)

/-- The `do … while (i < 10 && (byte & 0x80))` loop of `read_leb128`, `rounds` being
`10 - i`: the value, the rounds made and the last byte read. -/
def readLeb128Loop : Nat → Nat → Nat → BitBufferReader → Option (Nat × Nat × Nat × BitBufferReader)
  | 0, _, _, _ => none
  | rounds + 1, i, decoded, r => do
      let (byte, r) ← r.readBits 8
      let decoded := (decoded + shl64 (byte &&& 0x7f) (7 * i)) % 2 ^ 64
      if rounds > 0 ∧ byte &&& 0x80 ≠ 0 then readLeb128Loop rounds (i + 1) decoded r
      else some (decoded, i + 1, byte, r)

def readLeb128 : Option (Nat × BitBufferReader) := do
  let (decoded, i, byte, r) ← readLeb128Loop 10 0 0 r
  let r := if i = 10 ∧ byte > 1 then r.invalidate else r
  some (if r.Ok then decoded else 0, r)

def readStringLoop : Nat → List UInt8 → BitBufferReader → Option (List UInt8 × BitBufferReader)
  | 0, res, r => some (res, r)
  | numBytes + 1, res, r => do
      let (byte, r) ← r.readBits 8
      readStringLoop numBytes (res ++ [ofNat byte]) r

def readString (numBytes : Nat) : Option (List UInt8 × BitBufferReader) := do
  let (res, r) ← readStringLoop numBytes [] r
  some (if r.Ok then res else [], r)

end BitBufferReader

end CxxKit.BitBuffer
