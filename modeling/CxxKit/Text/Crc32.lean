import CxxKit.Lib.ShiftRegister

/-!
# CRC-32

`crc32` of `text/crc32.cpp`, which takes a byte at a time from a table of 256 words.  The shift
register that the table stands for takes a bit at a time, `kCrc32Polynomial` its feedback, and what
it computes is a remainder of polynomials: that of the register, followed by the bits of the data,
the lowest bit of each byte first.  The register is inverted before and after every call, so that a
call takes up where the one before it stopped.
-/

namespace CxxKit.Crc32

open BitVec List Polynomial ShiftRegister

/-- `uint8_t`. -/
abbrev Byte := BitVec 8

/-- `uint32_t`. -/
abbrev Word := BitVec 32

def kCrc32Polynomial : Word := 0xEDB88320

/-- The body of the inner loop of `load_crc32_table`. -/
def tableStep (c : Word) : Word :=
  if c &&& 1 ≠ 0 then kCrc32Polynomial ^^^ (c >>> 1) else c >>> 1

def loadCrc32Table : List Word :=
  (range 256).map fun i => tableStep^[8] (BitVec.ofNat 32 i)

/-- The body of the loop of `crc32`. -/
def crc32Step (kTable : List Word) (c : Word) (byte : Byte) : Word :=
  kTable.getD ((c ^^^ byte.setWidth 32) &&& 0xFF).toNat 0 ^^^ (c >>> 8)

/-- `crc32(data, len, crc)`. The overload for a `StringView` passes its bytes on. -/
def crc32 (bytes : List Byte) (crc : Word) : Word :=
  bytes.foldl (crc32Step loadCrc32Table) (crc ^^^ 0xFFFFFFFF) ^^^ 0xFFFFFFFF

/-! ### The register -/

/-- The bits of the data in the order in which they are divided. -/
def messageBits (bytes : List Byte) : List Bool := bytes.flatMap (lowBits 8)

/-- The same checksum, bit by bit. -/
def bitwiseCrc32 (bytes : List Byte) (crc : Word) : Word :=
  feedAll kCrc32Polynomial (crc ^^^ 0xFFFFFFFF) (messageBits bytes) ^^^ 0xFFFFFFFF

section

variable (c : Word)

theorem tableStep_eq : tableStep c = shift kCrc32Polynomial c := by
  have hbit : c &&& 1 ≠ 0 ↔ c.getLsbD 0 = true := by
    rw [show (1 : Word) = 1#32 from rfl, and_one_eq_setWidth_ofBool_getLsbD]
    cases c.getLsbD 0 <;> decide
  simp only [tableStep, shift, hbit]

theorem iterate_tableStep (n : Nat) (c : Word) : tableStep^[n] c = shifts kCrc32Polynomial n c := by
  induction n generalizing c with
  | zero => rfl
  | succ n ih => rw [Function.iterate_succ_apply, ih, tableStep_eq, shifts]

theorem getLsbD_low (i : Nat) : (c &&& 0xFF).getLsbD i = (decide (i < 8) && c.getLsbD i) := by
  have hmask : (0xFF : Word).getLsbD i = decide (i < 8) := by
    rw [show (0xFF : Word) = BitVec.ofNat 32 (2 ^ 8 - 1) from rfl, getLsbD_ofNat,
      Nat.testBit_two_pow_sub_one]
    by_cases hi : i < 8
    · simp [hi, show i < 32 by omega]
    · simp [hi]
  rw [getLsbD_and, hmask, Bool.and_comm]

/-- An entry of the table, which is long enough for every index. -/
theorem table_low : loadCrc32Table.getD (c &&& 0xFF).toNat 0 =
    shifts kCrc32Polynomial 8 (c &&& 0xFF) := by
  have hlt : (c &&& 0xFF).toNat < 256 := by
    exact Nat.lt_of_le_of_lt Nat.and_le_right (by decide)
  have hentry : loadCrc32Table[(c &&& 0xFF).toNat]? =
      some (tableStep^[8] (BitVec.ofNat 32 (c &&& 0xFF).toNat)) := by
    rw [loadCrc32Table, getElem?_map, getElem?_range hlt, Option.map_some]
  rw [getD_eq_getElem?_getD, hentry, Option.getD_some, iterate_tableStep,
    ofNat_toNat, setWidth_eq]

/-- **One byte** from the table is eight bits of the register. -/
theorem crc32Step_eq (byte : Byte) :
    crc32Step loadCrc32Table c byte = feedAll kCrc32Polynomial c (lowBits 8 byte) := by
  have hbits : lowBits 8 byte = lowBits 8 (byte.setWidth 32) := by
    refine lowBits_congr fun i hi => ?_
    rw [getLsbD_setWidth, decide_eq_true (show i < 32 by omega), Bool.true_and]
  have hshort : ∀ i, 8 ≤ i → (byte.setWidth 32).getLsbD i = false := by
    intro i hi
    rw [getLsbD_setWidth, getLsbD_of_ge byte i hi, Bool.and_false]
  -- the byte does not reach the part of the register that only moves down
  have hhigh : (c ^^^ byte.setWidth 32) >>> 8 = c >>> 8 := by
    apply eq_of_getLsbD_eq
    intro i _
    rw [getLsbD_ushiftRight, getLsbD_ushiftRight, getLsbD_xor,
      hshort (8 + i) (by omega), Bool.xor_false]
  rw [hbits, feedAll_lowBits kCrc32Polynomial (by decide) c hshort,
    shifts_eq_low_xor kCrc32Polynomial (getLsbD_low _), crc32Step, table_low, hhigh]

theorem foldl_crc32Step (bytes : List Byte) (c : Word) : bytes.foldl (crc32Step loadCrc32Table) c =
      feedAll kCrc32Polynomial c (messageBits bytes) := by
  induction bytes generalizing c with
  | nil => rfl
  | cons byte bytes ih =>
    rw [foldl_cons, ih, crc32Step_eq, messageBits, messageBits, flatMap_cons,
      feedAll, feedAll, feedAll, foldl_append]

theorem xor_ones_cancel : c ^^^ 0xFFFFFFFF ^^^ 0xFFFFFFFF = c := by
  rw [xor_assoc, BitVec.xor_self, xor_zero]

end

/-- **The checksum is a remainder.** For every data and starting value, the table computes what the
register computes bit by bit; that is, up to the inversions, the remainder of the division by the
generator; and a call continues the one before it. -/
theorem crc32_divides (a b : List Byte) (c : Word) : crc32 a c = bitwiseCrc32 a c ∧
      toPoly (crc32 a c ^^^ 0xFFFFFFFF) =
        (X ^ (messageBits a).length * toPoly (c ^^^ 0xFFFFFFFF) + X ^ 32 * message (messageBits a))
          %ₘ generator kCrc32Polynomial ∧
      crc32 b (crc32 a c) = crc32 (a ++ b) c := by
  refine ⟨?_, ?_, ?_⟩
  · rw [crc32, bitwiseCrc32, foldl_crc32Step]
  · rw [crc32, foldl_crc32Step, xor_ones_cancel]
    exact toPoly_feedAll kCrc32Polynomial (by decide) _ _
  · rw [crc32, crc32, crc32, xor_ones_cancel, foldl_append]

end CxxKit.Crc32
