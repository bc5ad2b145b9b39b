import CxxKit.Text.BitReading
import Mathlib.Data.Nat.Size

/-!
The variable-length codes.

Each code is a list of bits.  A write of it that returns true has put exactly these
bits at the writer's position (`Writes`), and a read from a reader with these bits in
front of it returns the value they stand for.
-/

namespace CxxKit.BitBuffer

open BitList List Nat Option UInt32

/-! ### Codes -/

/-- Exponential Golomb: `bit_width(val + 1) - 1` zeros, then `val + 1`. -/
def golombBits (val : Nat) : List Bool := toBits (bitWidth (val + 1) * 2 - 1) (val + 1)

/-- The unsigned number a signed one is mapped to: 0, 1, -1, 2, -2, … -/
def signedCode (val : Int) : Nat := if val > 0 then (2 * val - 1).toNat else (-2 * val).toNat

/-- Groups of seven bits, least significant first, marked by the top bit when another
one follows. -/
def leb128Bytes (val : Nat) : List UInt8 :=
  if val < 128 then [UInt8.ofNat val]
  else UInt8.ofNat (val % 128 + 128) :: leb128Bytes (val / 128)

/-- `z` zeros, a one and `z` further bits, for some `z` up to 31. -/
def GolombCode (code : List Bool) : Prop :=
  ∃ z low, z ≤ 31 ∧ low.length = z ∧ code = replicate z false ++ true :: low

/-- The number that a code word stands for, as a signed one. -/
def signedValue (code : List Bool) : Int :=
  let u := ofBits code - 1
  if u % 2 = 0 then -((u / 2 : Nat) : Int) else ((u + 1) / 2 : Nat)

/-- Groups of which all but the last are marked. -/
inductive Terminated : List UInt8 → Prop
  | last {b : UInt8} (h : b.toNat < 128) : Terminated [b]
  | more {b : UInt8} {groups : List UInt8} (h : 128 ≤ b.toNat) (hrest : Terminated groups) :
      Terminated (b :: groups)

/-- The number that groups stand for, the least significant first. -/
def groupsValue : List UInt8 → Nat
  | [] => 0
  | b :: groups => b.toNat % 128 + 128 * groupsValue groups

/-- What `read_leb128` is to accept. -/
def Leb128Groups (groups : List UInt8) : Prop :=
  Terminated groups ∧ groups.length ≤ 10 ∧ groupsValue groups < 2 ^ 64

/-! ### Golomb code words -/

theorem golombBits_eq (val : Nat) :
    golombBits val = List.replicate (bitWidth (val + 1) - 1) false ++
      true :: toBits (bitWidth (val + 1) - 1) (val + 1) := by
  have hpos : 0 < bitWidth (val + 1) := size_pos.mpr (succ_pos val)
  obtain ⟨z, hz⟩ : ∃ z, bitWidth (val + 1) = z + 1 := ⟨_, (Nat.sub_add_cancel hpos).symm⟩
  have hlt : val + 1 < 2 ^ (z + 1) := by
    rw [← hz]
    exact lt_size_self _
  have hge : 2 ^ z ≤ val + 1 := lt_size.mp (by rw [← bitWidth, hz]; exact lt_succ_self z)
  have hwidth : (z + 1) * 2 - 1 = z + (z + 1) := by omega
  have htop : (val + 1).testBit z = true := by
    rw [testBit_eq_decide_div_mod_eq]
    have hdiv : (val + 1) / 2 ^ z = 1 := by
      apply Nat.div_eq_of_lt_le
      · rwa [Nat.one_mul]
      · omega
    rw [hdiv]
    decide
  have hzero : (val + 1) >>> (z + 1) = 0 := by
    rw [shiftRight_eq_div_pow, div_eq_of_lt hlt]
  rw [golombBits, hz, hwidth, toBits_add, hzero, toBits_zero_right, toBits, htop]
  rfl

theorem lt_two_pow_bitWidth (x : Nat) : x < 2 ^ bitWidth x := lt_size_self x

theorem bitWidth_le {val : Nat} (h : val < 2 ^ 32 - 1) : bitWidth (val + 1) ≤ 32 :=
  size_le.mpr (by omega)

theorem ofBits_replicate_append (z : Nat) (xs : List Bool) :
    ofBits (replicate z false ++ xs) = ofBits xs := by
  induction z with
  | zero => rfl
  | succ z ih => rw [replicate_succ, cons_append, BitList.ofBits, ih, Bool.toNat_false,
      Nat.zero_mul, Nat.zero_add]

theorem ofBits_code (z : Nat) {low : List Bool} (hlow : low.length = z) :
    ofBits (replicate z false ++ true :: low) = 2 ^ z + ofBits low := by
  rw [ofBits_replicate_append, BitList.ofBits, hlow, Bool.toNat_true, Nat.one_mul]

theorem GolombCode.bounds {code : List Bool} (h : GolombCode code) :
    0 < ofBits code ∧ ofBits code < 2 ^ 32 := by
  obtain ⟨z, low, hz, hlow, rfl⟩ := h
  have hlt := ofBits_lt low
  have hpow : 2 ^ (z + 1) ≤ 2 ^ 32 := Nat.pow_le_pow_right (by decide) (by omega)
  rw [hlow] at hlt
  rw [ofBits_code z hlow]
  omega

/-- Every number below the largest one has a code word. -/
theorem golombCode_golombBits {u : Nat} (hu : u < 2 ^ 32 - 1) :
    GolombCode (golombBits u) ∧ ofBits (golombBits u) = u + 1 := by
  have hwidth := bitWidth_le hu
  refine ⟨⟨bitWidth (u + 1) - 1, _, by omega, length_toBits .., golombBits_eq u⟩, ?_⟩
  rw [golombBits, ofBits_toBits]
  refine Nat.mod_eq_of_lt (Nat.lt_of_lt_of_le (lt_two_pow_bitWidth (u + 1)) ?_)
  exact Nat.pow_le_pow_right (by decide) (by omega)

/-- The signed reader undoes the mapping to unsigned numbers. -/
theorem signedValue_golombBits {v : Int} (hlow : -2 ^ 31 < v) (hhigh : v < 2 ^ 31) :
    GolombCode (golombBits (signedCode v)) ∧ signedValue (golombBits (signedCode v)) = v := by
  have hlt : signedCode v < 2 ^ 32 - 1 := by
    unfold signedCode
    split <;> omega
  obtain ⟨hcode, hvalue⟩ := golombCode_golombBits hlt
  refine ⟨hcode, ?_⟩
  rw [signedValue, hvalue]
  unfold signedCode
  split <;> split <;> omega

/-! ### Groups of seven bits -/

variable {groups : List UInt8}

theorem Terminated.length_pos (h : Terminated groups) : 0 < groups.length := by
  cases h <;> exact Nat.succ_pos _

/-- The last group has the highest weight. -/
theorem Terminated.value_bounds (h : Terminated groups) :
    ∃ last : UInt8, groups.getLast? = some last ∧ last.toNat < 128 ∧
      last.toNat * 128 ^ (groups.length - 1) ≤ groupsValue groups ∧
      groupsValue groups < (last.toNat + 1) * 128 ^ (groups.length - 1) := by
  induction h with
  | @last b hb =>
    refine ⟨b, rfl, hb, ?_⟩
    simp [groupsValue]
    omega
  | @more b groups hb hrest ih =>
    obtain ⟨last, hlast, hlt, hlow, hhigh⟩ := ih
    have hpos := hrest.length_pos
    have hpow : 128 ^ (length (b :: groups) - 1) = 128 * 128 ^ (groups.length - 1) := by
      rw [length_cons, Nat.add_sub_cancel, ← Nat.pow_succ', Nat.succ_eq_add_one,
        Nat.sub_add_cancel hpos]
    refine ⟨last, ?_, hlt, ?_⟩
    · rw [getLast?_cons, hlast]
      rfl
    · rw [hpow]
      generalize 128 ^ (groups.length - 1) = p at hlow hhigh
      constructor
      · calc last.toNat * (128 * p) = 128 * (last.toNat * p) := by ring
          _ ≤ 128 * groupsValue groups := Nat.mul_le_mul_left 128 hlow
          _ ≤ b.toNat % 128 + 128 * groupsValue groups := Nat.le_add_left _ _
      · calc b.toNat % 128 + 128 * groupsValue groups
            < 128 * (groupsValue groups + 1) := by omega
          _ ≤ 128 * ((last.toNat + 1) * p) := Nat.mul_le_mul_left 128 hhigh
          _ = (last.toNat + 1) * (128 * p) := by ring

/-- A value fits 64 bits unless a tenth group is larger than one. -/
theorem value_lt_iff {last : UInt8} (h : Terminated groups)
    (hlen : groups.length ≤ 10) (hlast : groups.getLast? = some last) :
    groupsValue groups < 2 ^ 64 ↔ ¬ (groups.length = 10 ∧ last.toNat > 1) := by
  obtain ⟨last', hlast', hlt, hlow, hhigh⟩ := h.value_bounds
  obtain rfl := some.inj (hlast.symm.trans hlast')
  by_cases hten : groups.length = 10
  · rw [hten] at hlow hhigh
    omega
  · refine iff_of_true ?_ fun hbig => hten hbig.1
    calc groupsValue groups < (last.toNat + 1) * 128 ^ (groups.length - 1) := hhigh
      _ ≤ 128 * 128 ^ 8 := Nat.mul_le_mul hlt (Nat.pow_le_pow_right (by decide) (by omega))
      _ ≤ 2 ^ 64 := by decide

theorem leb128Bytes_terminated (val : Nat) :
    Terminated (leb128Bytes val) ∧ groupsValue (leb128Bytes val) = val := by
  fun_induction leb128Bytes val with
  | case1 val hlt =>
    have hbyte : (UInt8.ofNat val).toNat = val :=
      UInt8.toNat_ofNat_of_lt (by rw [UInt8.size]; omega)
    refine ⟨.last (by rwa [hbyte]), ?_⟩
    rw [groupsValue, groupsValue, hbyte]
    omega
  | case2 val hge ih =>
    have hbyte : (UInt8.ofNat (val % 128 + 128)).toNat = val % 128 + 128 :=
      UInt8.toNat_ofNat_of_lt (by rw [UInt8.size]; omega)
    refine ⟨.more (by omega) ih.1, ?_⟩
    rw [groupsValue, hbyte, ih.2]
    omega

theorem length_leb128Bytes_le {count val : Nat} (hpos : 0 < count) (hval : val < 128 ^ count) :
    (leb128Bytes val).length ≤ count := by
  fun_induction leb128Bytes val generalizing count with
  | case1 val hlt => exact hpos
  | case2 val hge ih =>
    obtain ⟨count, rfl⟩ := exists_eq_succ_of_ne_zero (Nat.ne_of_gt hpos)
    rw [pow_succ'] at hval
    refine succ_le_succ (ih ?_ (Nat.div_lt_of_lt_mul hval))
    rcases Nat.eq_zero_or_pos count with rfl | hmore
    · exact absurd hval hge
    · exact hmore

theorem leb128Groups_leb128Bytes (val : UInt64) :
    Leb128Groups (leb128Bytes val.toNat) ∧ groupsValue (leb128Bytes val.toNat) = val.toNat := by
  obtain ⟨hterm, hvalue⟩ := leb128Bytes_terminated val.toNat
  have hlt := val.toNat_lt
  refine ⟨⟨hterm, length_leb128Bytes_le (by decide) ?_, hvalue.symm ▸ hlt⟩, hvalue⟩
  exact lt_trans hlt (by decide)

/-! ### Writing a code -/

namespace BitBufferWriter

variable {n : Nat} {w w' : BitBufferWriter n}

/-- From `w` to `w'` exactly the bits `xs` were written at the position of `w`. -/
structure Wrote (w : BitBufferWriter n) (xs : List Bool) (w' : BitBufferWriter n) : Prop where
  bits : w'.bits = overwrite w.position xs w.bits
  position : w'.position = w.position + xs.length
  fits : w.position + xs.length ≤ 8 * n

theorem Wrote.refl (w : BitBufferWriter n) : Wrote w [] w where
  bits := (overwrite_nil ..).symm
  position := rfl
  fits := w.in_buffer

variable {xs ys : List Bool} {val : Int32} {run : Option (BitBufferWriter n × Bool)} {P Q : Prop}

theorem Wrote.trans {w'' : BitBufferWriter n} (h : Wrote w xs w') (h' : Wrote w' ys w'') :
    Wrote w (xs ++ ys) w'' where
  bits := by
    rw [h'.bits, h.position, h.bits, overwrite_overwrite]
    rw [length_bits]
    exact h.fits
  position := by rw [h'.position, h.position, length_append, Nat.add_assoc]
  fits := by
    have := h'.fits
    rw [h.position] at this
    rw [length_append]
    omega

/-- What a write does, whether it fits or not: it stays inside the buffer, and when it
returns true then `P` held and the bits `xs` were written. -/
def Writes (run : Option (BitBufferWriter n × Bool)) (w : BitBufferWriter n) (P : Prop)
    (xs : List Bool) : Prop :=
  ∃ w' ok, run = some (w', ok) ∧ (ok = true → P ∧ Wrote w xs w')

theorem Writes.mono (h : Writes run w P xs) (hPQ : P → Q) : Writes run w Q xs := by
  obtain ⟨w', ok, hrun, hspec⟩ := h
  exact ⟨w', ok, hrun, fun hok => ⟨hPQ (hspec hok).1, (hspec hok).2⟩⟩

theorem Writes.done {success : Bool} : Writes (some (w, success)) w (success = true) [] :=
  ⟨w, success, rfl, fun hok => ⟨hok, .refl w⟩⟩

theorem Writes.refused {P : Prop} : Writes (some (w, false)) w P xs :=
  ⟨w, false, rfl, nofun⟩

/-- One write and then the rest, which fails when this one did. -/
theorem Writes.bind {rest : BitBufferWriter n × Bool → Option (BitBufferWriter n × Bool)}
    (h : Writes run w P xs) (hrest : ∀ w' ok, Writes (rest (w', ok)) w' (Q ∧ ok = true) ys) :
    Writes (run >>= rest) w (Q ∧ P) (xs ++ ys) := by
  obtain ⟨w', ok, hrun, hspec⟩ := h
  obtain ⟨w'', ok', hrun', hspec'⟩ := hrest w' ok
  refine ⟨w'', ok', ?_, ?_⟩
  · rw [hrun]
    exact hrun'
  · intro hok'
    obtain ⟨⟨hQ, hok⟩, hwrote'⟩ := hspec' hok'
    obtain ⟨hP, hwrote⟩ := hspec hok
    exact ⟨⟨hQ, hP⟩, hwrote.trans hwrote'⟩

variable (w)

theorem writeBits_writes (val : Nat) {count : Nat} (hpos : 0 < count) (hle : count ≤ 64) :
    Writes (w.writeBits val count) w True (toBits count val) := by
  by_cases hfit : count ≤ w.remainingBitCount
  · obtain ⟨w', hrun, hbits, hposition⟩ := @writeBits_spec n count val w hpos hle hfit
    have hroom := w.remainingBitCount_add
    refine ⟨w', true, hrun, fun _ => ⟨trivial, hbits, ?_, ?_⟩⟩
    · rw [hposition, length_toBits]
    · rw [length_toBits, position]
      omega
  · rw [writeBits_refuses (Nat.lt_of_not_le hfit)]
    exact .refused

theorem writeUInt8_writes (val : UInt8) : Writes (w.writeUInt8 val) w True (toBits 8 val.toNat) :=
  writeBits_writes w val.toNat (by decide) (by decide)

theorem writeExponentialGolomb_writes (val : UInt32) :
    Writes (w.writeExponentialGolomb val) w (val.toNat < 2 ^ 32 - 1) (golombBits val.toNat) := by
  unfold writeExponentialGolomb
  split
  · exact .refused
  · have hlt := val.toNat_lt
    have hval : val.toNat < 2 ^ 32 - 1 := by omega
    have hle := bitWidth_le hval
    have hpos : 0 < bitWidth (val.toNat + 1) := size_pos.mpr (succ_pos _)
    apply (writeBits_writes w (val.toNat + 1) (by omega) (by omega)).mono
    exact fun _ => hval

section

variable (hne : val.toInt ≠ -2 ^ 31)
include hne

theorem signedCode_lt : signedCode val.toInt < 2 ^ 32 - 1 := by
  have hlo := val.le_toInt
  have hhi := val.toInt_lt
  unfold signedCode
  split <;> omega

theorem toNat_signedCode : (ofNat (signedCode val.toInt)).toNat = signedCode val.toInt := by
  have hlt := signedCode_lt hne
  exact UInt32.toNat_ofNat_of_lt (by rw [UInt32.size]; omega)

/-- Every branch writes the unsigned code. -/
theorem writeSignedExponentialGolomb_eq : w.writeSignedExponentialGolomb val =
      w.writeExponentialGolomb (ofNat (signedCode val.toInt)) := by
  have hcode : ∀ code : Nat, signedCode val.toInt = code →
      w.writeExponentialGolomb (ofNat code) =
        w.writeExponentialGolomb (ofNat (signedCode val.toInt)) := by
    rintro code rfl
    rfl
  unfold writeSignedExponentialGolomb
  split
  · apply hcode 0
    unfold signedCode
    split <;> omega
  · split
    · apply hcode
      unfold signedCode
      split <;> omega
    · apply hcode
      unfold signedCode
      split <;> omega

end

theorem writeSignedExponentialGolomb_refuses (hmin : val.toInt = -2 ^ 31) :
    w.writeSignedExponentialGolomb val = some (w, false) := by
  rw [writeSignedExponentialGolomb, if_neg (by omega), if_neg (by omega), if_pos hmin]

theorem writeSignedExponentialGolomb_writes (val : Int32) :
    Writes (w.writeSignedExponentialGolomb val) w (val.toInt ≠ -2 ^ 31)
      (golombBits (signedCode val.toInt)) := by
  by_cases hmin : val.toInt = -2 ^ 31
  · rw [writeSignedExponentialGolomb_refuses w hmin]
    exact .refused
  · rw [writeSignedExponentialGolomb_eq w hmin]
    have hspec := writeExponentialGolomb_writes w (ofNat (signedCode val.toInt))
    rw [toNat_signedCode hmin] at hspec
    exact hspec.mono fun _ => hmin

/-- The group a round of the loop writes, and what it leaves for the next one. -/
theorem leb128Bytes_eq (val : Nat) : leb128Bytes val =
      UInt8.ofNat (if val >>> 7 > 0 then val &&& 0x7f ||| 0x80 else val &&& 0x7f) ::
        if val >>> 7 > 0 then leb128Bytes (val >>> 7) else [] := by
  have hand : val &&& 0x7f = val % 128 := and_two_pow_sub_one_eq_mod val 7
  have hshift : val >>> 7 = val / 128 := shiftRight_eq_div_pow val 7
  have hor : val % 128 ||| 0x80 = val % 128 + 128 := by
    have hlt : val % 128 < 2 ^ 7 := mod_lt _ (by decide)
    rw [Nat.or_comm, ← two_pow_add_eq_or_of_lt hlt 1]
    omega
  rw [leb128Bytes, hand, hshift, hor]
  by_cases hlt : val < 128
  · rw [if_pos hlt, if_neg (by omega), if_neg (by omega), mod_eq_of_lt hlt]
  · rw [if_neg hlt, if_pos (by omega), if_pos (by omega)]

theorem writeLeb128Loop_writes (groups : Nat) (w : BitBufferWriter n) (val : Nat) (success : Bool)
    (hpos : 0 < groups) (hval : val < 2 ^ (7 * groups)) :
    Writes (writeLeb128Loop groups w val success) w (success = true)
      (bytesBits (leb128Bytes val)) := by
  induction groups generalizing w val success with
  | zero => exact absurd hpos (by decide)
  | succ groups ih =>
    rw [leb128Bytes_eq, bytesBits_cons]
    refine ((writeUInt8_writes w _).bind ?_).mono And.left
    intro w' ok
    have hsuccess : (success && ok) = true → success = true ∧ ok = true := by
      simp
    dsimp only
    by_cases hmore : val >>> 7 > 0
    · rw [if_pos hmore, if_pos hmore]
      refine (ih w' (val >>> 7) (success && ok) ?_ ?_).mono hsuccess
      · rcases groups with _ | groups
        · omega
        · exact succ_pos _
      · rw [shiftRight_eq_div_pow]
        apply Nat.div_lt_of_lt_mul
        rw [← pow_add]
        exact lt_of_lt_of_eq hval (by congr 1; omega)
    · rw [if_neg hmore, if_neg hmore]
      exact Writes.done.mono hsuccess

theorem writeLeb128_writes (val : UInt64) :
    Writes (w.writeLeb128 val) w True (bytesBits (leb128Bytes val.toNat)) := by
  have hval : val.toNat < 2 ^ (7 * 10) := lt_trans val.toNat_lt (by decide)
  exact (writeLeb128Loop_writes 10 w val.toNat true (by decide) hval).mono fun _ => trivial

theorem writeStringLoop_writes (data : List UInt8) (success : Bool) :
    Writes (writeStringLoop w data success) w (success = true) (bytesBits data) := by
  induction data generalizing w success with
  | nil => exact .done
  | cons c data ih =>
    refine ((writeUInt8_writes w c).bind ?_).mono And.left
    intro w' ok
    exact (ih w' (success && ok)).mono (by simp)

end BitBufferWriter

/-! ### Reading a code -/

namespace BitBufferReader

variable {r : BitBufferReader} {ys : List Bool}

variable {val i decoded : Nat}

theorem readBits_toBits {count : Nat} (hle : count ≤ 64) (h : r.Unread (toBits count val ++ ys)) :
    ∃ r', r.readBits count = some (val % 2 ^ count, r') ∧ r'.Unread ys := by
  obtain ⟨r', hrun, hrest⟩ := readBits_spec h (by rwa [length_toBits])
  rw [length_toBits, ofBits_toBits] at hrun
  exact ⟨r', hrun, hrest⟩

theorem readBits_byte {byte : UInt8} (h : r.Unread (toBits 8 byte.toNat ++ ys)) :
    ∃ r', r.readBits 8 = some (byte.toNat, r') ∧ r'.Unread ys := by
  obtain ⟨r', hrun, hrest⟩ := readBits_toBits (by decide) h
  rw [mod_eq_of_lt byte.toNat_lt] at hrun
  exact ⟨r', hrun, hrest⟩

theorem leadingZeros_spec {zeros allowed : Nat} (count : Nat) (hlt : zeros < allowed)
    (h : r.Unread (List.replicate zeros false ++ true :: ys)) :
    ∃ r', leadingZeros allowed count r = some (some (count + zeros), r') ∧ r'.Unread ys := by
  induction zeros generalizing allowed count r with
  | zero =>
    obtain ⟨allowed, rfl⟩ := exists_eq_succ_of_ne_zero (Nat.ne_of_gt hlt)
    obtain ⟨r', hbit, hrest⟩ := readBit_spec h
    refine ⟨r', ?_, hrest⟩
    rw [leadingZeros, hbit]
    rfl
  | succ zeros ih =>
    obtain ⟨allowed, rfl⟩ := exists_eq_succ_of_ne_zero (Nat.ne_of_gt (zero_lt_of_lt hlt))
    obtain ⟨u, hbit, hrest⟩ := readBit_spec h
    obtain ⟨r', hzeros, hdone⟩ := ih (count + 1) (lt_of_succ_lt_succ hlt) hrest
    refine ⟨r', ?_, hdone⟩
    rw [leadingZeros, hbit, Nat.add_comm zeros, ← Nat.add_assoc]
    exact hzeros

theorem readExponentialGolomb_code {code : List Bool} (hcode : GolombCode code)
    (h : r.Unread (code ++ ys)) :
    ∃ r', r.readExponentialGolomb = some (ofBits code - 1, r') ∧ r'.Unread ys := by
  obtain ⟨z, low, hz, hlow, rfl⟩ := hcode
  rw [append_assoc] at h
  obtain ⟨u, hzeros, hrest⟩ := leadingZeros_spec 0 (show z < 32 by omega) h
  obtain ⟨r', hread, hdone⟩ := readBits_spec hrest (by omega)
  refine ⟨r', ?_, hdone⟩
  have hlt := ofBits_lt low
  have hpow : 2 ^ z ≤ 2 ^ 31 := Nat.pow_le_pow_right (by decide) hz
  rw [hlow] at hread hlt
  rw [Nat.zero_add] at hzeros
  simp only [readExponentialGolomb, hzeros, hread, bind_eq_bind, bind_some, ofBits_code z hlow]
  rw [show (2 ^ z + ofBits low % 2 ^ 32 - 1) % 2 ^ 32 = 2 ^ z + ofBits low - 1 by omega]

theorem readExponentialGolomb_spec (hval : val < 2 ^ 32 - 1) (h : r.Unread (golombBits val ++ ys)) :
    ∃ r', r.readExponentialGolomb = some (val, r') ∧ r'.Unread ys := by
  obtain ⟨hcode, hvalue⟩ := golombCode_golombBits hval
  obtain ⟨r', hrun, hrest⟩ := readExponentialGolomb_code hcode h
  rw [hvalue] at hrun
  exact ⟨r', hrun, hrest⟩

/-- The signed read maps the number that the unsigned one returns. -/
theorem readSignedExponentialGolomb_code {code : List Bool} (hcode : GolombCode code)
    (h : r.Unread (code ++ ys)) :
    ∃ r', r.readSignedExponentialGolomb = some (signedValue code, r') ∧ r'.Unread ys := by
  have hbounds := hcode.bounds
  obtain ⟨r', hrun, hrest⟩ := readExponentialGolomb_code hcode h
  refine ⟨r', ?_, hrest⟩
  simp only [readSignedExponentialGolomb, hrun, bind_eq_bind, bind_some, and_one_is_mod,
    signedValue]
  split
  · rfl
  · rw [mod_eq_of_lt (by omega)]

theorem readSignedExponentialGolomb_spec {val : Int32} (hne : val.toInt ≠ -2 ^ 31)
    (h : r.Unread (golombBits (signedCode val.toInt) ++ ys)) :
    ∃ r', r.readSignedExponentialGolomb = some (val.toInt, r') ∧ r'.Unread ys := by
  have hlow := val.le_toInt
  obtain ⟨hcode, hvalue⟩ := signedValue_golombBits (by omega) val.toInt_lt
  obtain ⟨r', hrun, hrest⟩ := readSignedExponentialGolomb_code hcode h
  rw [hvalue] at hrun
  exact ⟨r', hrun, hrest⟩

theorem and_low (x : Nat) : x &&& 0x7f = x % 128 := and_two_pow_sub_one_eq_mod x 7

theorem and_mark (x : Nat) : x &&& 0x80 = 128 * (x / 128 % 2) := by
  have hand := and_two_pow x 7
  rw [testBit_eq_decide_div_mod_eq] at hand
  rcases mod_two_eq_zero_or_one (x / 128) with h | h <;> simp_all

/-- Adding a group, modulo the width of the word. -/
theorem add_group (decoded b i : Nat) : (decoded + shl64 (b &&& 0x7f) (7 * i)) % 2 ^ 64 =
      (decoded + b % 128 * 2 ^ (7 * i)) % 2 ^ 64 := by
  rw [and_low, shl64, Nat.shiftLeft_eq, Nat.add_mod_mod]

theorem and_mark_ne_zero (b : UInt8) : b.toNat &&& 0x80 ≠ 0 ↔ 128 ≤ b.toNat := by
  have hlt := b.toNat_lt
  rw [and_mark]
  omega

/-- The loop reads terminated groups up to the last. -/
theorem readLeb128Loop_groups (hgroups : Terminated groups) (i decoded : Nat)
    (hlen : groups.length ≤ rounds) (h : r.Unread (bytesBits groups ++ ys)) :
    ∃ last r', groups.getLast? = some last ∧ readLeb128Loop rounds i decoded r =
        some ((decoded + groupsValue groups * 2 ^ (7 * i)) % 2 ^ 64, i + groups.length,
          last.toNat, r') ∧ r'.Unread ys := by
  induction hgroups generalizing r rounds i decoded with
  | @last b hb =>
    obtain ⟨rounds, rfl⟩ := Nat.exists_eq_succ_of_ne_zero (Nat.ne_of_gt hlen)
    obtain ⟨u, hread, hrest⟩ := readBits_byte h
    refine ⟨b, u, rfl, ?_, hrest⟩
    have hend : ¬ (rounds > 0 ∧ b.toNat &&& 0x80 ≠ 0) := by
      rw [and_mark_ne_zero]
      omega
    simp only [readLeb128Loop, hread, bind_eq_bind, bind_some, if_neg hend,
      add_group, groupsValue, Nat.mul_zero, Nat.add_zero, length_singleton]
  | @more b groups hb hrest ih =>
    have hpos := hrest.length_pos
    rw [length_cons] at hlen
    obtain ⟨rounds, rfl⟩ := Nat.exists_eq_succ_of_ne_zero (show rounds ≠ 0 by omega)
    obtain ⟨u, hread, hunread⟩ := readBits_byte h
    obtain ⟨last, r', hlast, hrun, hdone⟩ := ih (i + 1)
      ((decoded + b.toNat % 128 * 2 ^ (7 * i)) % 2 ^ 64) (Nat.le_of_succ_le_succ hlen) hunread
    refine ⟨last, r', by rw [getLast?_cons, hlast]; rfl, ?_, hdone⟩
    have hmore : rounds > 0 ∧ b.toNat &&& 0x80 ≠ 0 := by
      rw [and_mark_ne_zero]
      omega
    have hvalue : ((decoded + b.toNat % 128 * 2 ^ (7 * i)) % 2 ^ 64 +
        groupsValue groups * 2 ^ (7 * (i + 1))) % 2 ^ 64 =
          (decoded + groupsValue (b :: groups) * 2 ^ (7 * i)) % 2 ^ 64 := by
      rw [Nat.mod_add_mod, groupsValue]
      congr 1
      ring
    simp only [readLeb128Loop, hread, bind_eq_bind, bind_some, if_pos hmore,
      add_group, hrun, hvalue, length_cons]
    rw [Nat.add_assoc, Nat.add_comm 1]

theorem readLeb128_groups (hgroups : Leb128Groups groups)
    (h : r.Unread (bytesBits groups ++ ys)) :
    ∃ r', r.readLeb128 = some (groupsValue groups, r') ∧ r'.Unread ys := by
  obtain ⟨hterm, hlen, hvalue⟩ := hgroups
  obtain ⟨last, r', hlast, hrun, hdone⟩ := readLeb128Loop_groups hterm 0 0 hlen h
  refine ⟨r', ?_, hdone⟩
  have hfits := (value_lt_iff hterm hlen hlast).mp hvalue
  rw [Nat.zero_add, Nat.pow_zero, Nat.mul_one, Nat.mod_eq_of_lt hvalue, Nat.zero_add] at hrun
  simp only [readLeb128, hrun, bind_eq_bind, bind_some, if_neg hfits, if_pos hdone.ok]

theorem readLeb128_spec {val : UInt64} (h : r.Unread (bytesBits (leb128Bytes val.toNat) ++ ys)) :
    ∃ r', r.readLeb128 = some (val.toNat, r') ∧ r'.Unread ys := by
  obtain ⟨hgroups, hvalue⟩ := leb128Groups_leb128Bytes val
  obtain ⟨r', hrun, hrest⟩ := readLeb128_groups hgroups h
  rw [hvalue] at hrun
  exact ⟨r', hrun, hrest⟩

theorem readStringLoop_spec (data res : List UInt8) (h : r.Unread (bytesBits data ++ ys)) :
    ∃ r', readStringLoop data.length res r = some (res ++ data, r') ∧ r'.Unread ys := by
  induction data generalizing r res with
  | nil => exact ⟨r, by rw [append_nil]; rfl, h⟩
  | cons c data ih =>
    obtain ⟨u, hread, hrest⟩ := readBits_byte h
    obtain ⟨r', hrun, hdone⟩ := ih (res ++ [c]) hrest
    refine ⟨r', ?_, hdone⟩
    rw [length_cons, readStringLoop, hread]
    simp only [bind_eq_bind, bind_some, UInt8.ofNat_toNat, hrun, append_assoc, singleton_append]

theorem readString_spec {data : List UInt8} (h : r.Unread (bytesBits data ++ ys)) :
    ∃ r', r.readString data.length = some (data, r') ∧ r'.Unread ys := by
  obtain ⟨r', hrun, hrest⟩ := readStringLoop_spec data [] h
  refine ⟨r', ?_, hrest⟩
  simp only [readString, hrun, bind_eq_bind, bind_some, if_pos hrest.ok, nil_append]

end BitBufferReader

end CxxKit.BitBuffer
