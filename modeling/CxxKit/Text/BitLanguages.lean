import CxxKit.Text.BitCalls
import Mathlib.Data.Set.Function

/-!
The inputs that the variable-length reads accept.

A read of an exponential Golomb code succeeds exactly if the bits in front of the reader
start with a code word of at most 31 zeros, and a read of a LEB128 number exactly if
they start with a terminated sequence of at most ten groups whose value fits 64 bits.
In both directions the argument follows the loop.  If the input has the form the loop finds
it, and if it does not the loop runs out of bits or of rounds, which fails the reader.

The signed reads number the code words by the integers from `-(2 ^ 31 - 1)` to `2 ^ 31 - 1`.
-/

namespace CxxKit.BitBuffer

open BitBufferReader BitList List Option Prod

/-! ### Golomb code words -/

theorem bitWidth_eq {z x : Nat} (hlow : 2 ^ z ≤ x) (hhigh : x < 2 ^ (z + 1)) : bitWidth x = z + 1 :=
  Nat.le_antisymm (Nat.size_le.mpr hhigh) (Nat.lt_size.mpr hlow)

/-- A code word is the code of its number. -/
theorem golombBits_ofBits {code : List Bool} (h : GolombCode code) :
    golombBits (ofBits code - 1) = code := by
  obtain ⟨z, low, hz, hlow, rfl⟩ := h
  have hlt := ofBits_lt low
  have hpos := Nat.two_pow_pos z
  rw [hlow] at hlt
  have hwidth := bitWidth_eq (show 2 ^ z ≤ 2 ^ z + ofBits low by omega) (by omega)
  rw [ofBits_code z hlow, golombBits_eq, Nat.sub_add_cancel (by omega), hwidth,
    Nat.add_sub_cancel]
  have hbits : toBits z (2 ^ z + ofBits low) = low := by
    rw [← toBits_mod (Nat.le_refl z), Nat.add_mod_left, toBits_mod (Nat.le_refl z), ← hlow,
      toBits_ofBits]
  rw [hbits]

/-- The signed values number the code words. -/
theorem signedValue_bijOn :
    Set.BijOn signedValue { code | GolombCode code } { v | -2 ^ 31 < v ∧ v < 2 ^ 31 } := by
  refine ⟨?_, ?_, ?_⟩
  · intro code hcode
    obtain ⟨hpos, hlt⟩ := hcode.bounds
    simp only [signedValue, Set.mem_ofPred_eq]
    split <;> omega
  · intro code hcode code' hcode' heq
    obtain ⟨hpos, hlt⟩ := hcode.bounds
    obtain ⟨hpos', hlt'⟩ := hcode'.bounds
    have hsame : ofBits code = ofBits code' := by
      simp only [signedValue] at heq
      split at heq <;> split at heq <;> omega
    rw [← golombBits_ofBits hcode, hsame, golombBits_ofBits hcode']
  · rintro v ⟨hlow, hhigh⟩
    exact ⟨_, signedValue_golombBits hlow hhigh⟩

/-! ### Reading Golomb codes -/

section Golomb

variable {r : BitBufferReader} {bs : List Bool}

theorem leadingZeros_failed (h : ¬ r.Ok) (allowed count : Nat) :
    ∃ r', leadingZeros allowed count r = some (none, r') ∧ ¬ r'.Ok := by
  induction allowed generalizing r count with
  | zero => exact ⟨_, rfl, not_ok_invalidate r⟩
  | succ allowed ih =>
    obtain ⟨r', hrun, hr'⟩ := ih (not_ok_invalidate r) (count + 1)
    refine ⟨r', ?_, hr'⟩
    have hneg := mRemainingBits_neg h
    rw [leadingZeros, readBit_refuses (by omega)]
    exact hrun

/-- Without a one after fewer than `allowed` zeros the loop fails the reader. -/
theorem leadingZeros_none {allowed : Nat} (count : Nat) (h : r.Unread bs)
    (hno : ∀ z < allowed, ∀ ys, bs ≠ replicate z false ++ true :: ys) :
    ∃ r', leadingZeros allowed count r = some (none, r') ∧ ¬ r'.Ok := by
  induction allowed generalizing r bs count with
  | zero => exact ⟨_, rfl, not_ok_invalidate r⟩
  | succ allowed ih =>
    match bs with
    | [] =>
      rw [leadingZeros, readBit_refuses (by rw [h.1]; decide)]
      exact leadingZeros_failed (not_ok_invalidate r) allowed (count + 1)
    | true :: ys => exact absurd rfl (hno 0 (Nat.succ_pos allowed) ys)
    | false :: bs =>
      obtain ⟨u, hbit, hrest⟩ := readBit_spec h
      obtain ⟨r', hrun, hr'⟩ := ih (count + 1) hrest fun z hz ys heq =>
        hno (z + 1) (Nat.succ_lt_succ hz) ys (congrArg (false :: ·) heq)
      exact ⟨r', by rw [leadingZeros, hbit]; exact hrun, hr'⟩

theorem exists_code_of_one {z : Nat} {ys : List Bool} (hz : z ≤ 31) (hle : z ≤ ys.length) :
    ∃ code rest, GolombCode code ∧ replicate z false ++ true :: ys = code ++ rest := by
  refine ⟨_, ys.drop z, ⟨z, ys.take z, hz, length_take_of_le hle, rfl⟩, ?_⟩
  rw [append_assoc, cons_append, take_append_drop]

theorem readExponentialGolomb_other (h : r.Unread bs)
    (hno : ¬ ∃ code rest, GolombCode code ∧ bs = code ++ rest) :
    ∃ v r', r.readExponentialGolomb = some (v, r') ∧ ¬ r'.Ok := by
  by_cases hone : ∃ z < 32, ∃ ys, bs = replicate z false ++ true :: ys
  · obtain ⟨z, hz, ys, rfl⟩ := hone
    obtain ⟨u, hzeros, hrest⟩ := leadingZeros_spec 0 hz h
    have hshort : ys.length < z := by
      by_contra hle
      exact hno (exists_code_of_one (by omega) (Nat.le_of_not_lt hle))
    rw [Nat.zero_add] at hzeros
    simp only [readExponentialGolomb, hzeros, bind_eq_bind, bind_some,
      readBits_refuses (show u.mRemainingBits < z by rw [hrest.1]; exact_mod_cast hshort)]
    exact ⟨_, _, rfl, not_ok_invalidate u⟩
  · obtain ⟨r', hzeros, hr'⟩ := @leadingZeros_none r bs 32 0 h fun z hz ys heq =>
      hone ⟨z, hz, ys, heq⟩
    simp only [readExponentialGolomb, hzeros, bind_eq_bind, bind_some]
    exact ⟨0, r', rfl, hr'⟩

/-- The read succeeds exactly on the inputs that start with a code word, and then returns its
number. -/
def GolombExact (r : BitBufferReader) (bits : List Bool) : Prop :=
  ∃ v r', r.readExponentialGolomb = some (v, r') ∧
    (r'.Ok ↔ ∃ z low rest, z ≤ 31 ∧ low.length = z ∧
      bits = replicate z false ++ true :: (low ++ rest)) ∧
    ∀ z low rest, z ≤ 31 → low.length = z →
      bits = replicate z false ++ true :: (low ++ rest) → v = 2 ^ z - 1 + ofBits low

def SignedGolombExact (r : BitBufferReader) (bits : List Bool) : Prop :=
  ∃ v r', r.readSignedExponentialGolomb = some (v, r') ∧
    (r'.Ok ↔ ∃ code rest, GolombCode code ∧ bits = code ++ rest) ∧
    ∀ code rest, GolombCode code → bits = code ++ rest → v = signedValue code

theorem golombExact_of_unread (h : r.Unread bs) : GolombExact r bs := by
  by_cases hcode : ∃ code rest, GolombCode code ∧ bs = code ++ rest
  · obtain ⟨code, rest, hgolomb, rfl⟩ := hcode
    obtain ⟨r', hrun, hrest⟩ := readExponentialGolomb_code hgolomb h
    obtain ⟨z, low, hz, hlow, rfl⟩ := hgolomb
    refine ⟨_, r', hrun, iff_of_true hrest.ok ⟨z, low, rest, hz, hlow, append_assoc ..⟩, ?_⟩
    intro z' low' rest' hz' hlow' heq
    have hpos := Nat.two_pow_pos z'
    rw [heq, ← cons_append, ← append_assoc] at h
    obtain ⟨r'', hrun', -⟩ := readExponentialGolomb_code ⟨z', low', hz', hlow', rfl⟩ h
    rw [(mk.inj (some.inj (hrun.symm.trans hrun'))).1, ofBits_code z' hlow']
    omega
  · have hsplit : ¬ ∃ z low rest, z ≤ 31 ∧ low.length = z ∧
        bs = replicate z false ++ true :: (low ++ rest) := by
      rintro ⟨z, low, rest, hz, hlow, rfl⟩
      refine hcode ⟨_, rest, ⟨z, low, hz, hlow, rfl⟩, ?_⟩
      rw [append_assoc, cons_append]
    obtain ⟨v, r', hrun, hr'⟩ := readExponentialGolomb_other h hcode
    exact ⟨v, r', hrun, iff_of_false hr' hsplit, fun z low rest hz hlow heq =>
      absurd ⟨z, low, rest, hz, hlow, heq⟩ hsplit⟩

theorem signedGolombExact_of_unread (h : r.Unread bs) : SignedGolombExact r bs := by
  by_cases hcode : ∃ code rest, GolombCode code ∧ bs = code ++ rest
  · obtain ⟨code, rest, hgolomb, rfl⟩ := hcode
    obtain ⟨r', hrun, hrest⟩ := readSignedExponentialGolomb_code hgolomb h
    refine ⟨_, r', hrun, iff_of_true hrest.ok ⟨code, rest, hgolomb, rfl⟩, ?_⟩
    intro code' rest' hgolomb' heq
    obtain ⟨r'', hrun', -⟩ := readSignedExponentialGolomb_code hgolomb' (heq ▸ h)
    exact (mk.inj (some.inj (hrun.symm.trans hrun'))).1
  · obtain ⟨v, r', hrun, hr'⟩ := readExponentialGolomb_other h hcode
    have hsigned : ∃ w, r.readSignedExponentialGolomb = some (w, r') := by
      simp only [readSignedExponentialGolomb, hrun, bind_eq_bind, bind_some]
      split <;> exact ⟨_, rfl⟩
    obtain ⟨w, hw⟩ := hsigned
    exact ⟨w, r', hw, iff_of_false hr' hcode, fun code rest hgolomb heq =>
      absurd ⟨code, rest, hgolomb, heq⟩ hcode⟩

end Golomb

/-! ### Reading groups of seven bits -/

variable {bits : List Bool}

section Leb128

variable {r : BitBufferReader} {bs : List Bool} {rounds : Nat}

/-- The first byte of an input of at least eight bits. -/
theorem eq_toBits_append (h : 8 ≤ bs.length) :
    ∃ (b : UInt8) (ys : List Bool), bs = toBits 8 b.toNat ++ ys := by
  have hlen : (bs.take 8).length = 8 := length_take_of_le h
  refine ⟨UInt8.ofNat (ofBits (bs.take 8)), bs.drop 8, ?_⟩
  have hbits := toBits_ofBits (bs.take 8)
  rw [hlen] at hbits
  rw [toBits_ofNat, hbits, take_append_drop]

/-- Without terminated groups in front the loop runs out of bits, or ends on a marked group. -/
theorem readLeb128Loop_other (hrounds : 0 < rounds) (i decoded : Nat)
    (h : r.Unread bs) (hno : ∀ groups rest, Terminated groups → groups.length ≤ rounds →
      bs ≠ bytesBits groups ++ rest) :
    ∃ d i' byte r', readLeb128Loop rounds i decoded r = some (d, i', byte, r') ∧
      (¬ r'.Ok ∨ i' = i + rounds ∧ byte > 1) := by
  induction rounds generalizing r bs i decoded with
  | zero => exact absurd hrounds (Nat.lt_irrefl 0)
  | succ rounds ih =>
    by_cases hfew : bs.length < 8
    · have hrefused := @readBits_refuses r 8 (by rw [h.1]; exact_mod_cast hfew)
      have hend : ¬ (rounds > 0 ∧ 0 &&& 0x80 ≠ 0) := fun hmore => hmore.2 rfl
      simp only [readLeb128Loop, hrefused, bind_eq_bind, bind_some, if_neg hend]
      exact ⟨_, _, _, _, rfl, .inl (not_ok_invalidate r)⟩
    · obtain ⟨b, ys, rfl⟩ := eq_toBits_append (Nat.le_of_not_lt hfew)
      obtain ⟨u, hread, hrest⟩ := readBits_byte h
      have hmarked : 128 ≤ b.toNat := by
        by_contra hlt
        refine hno [b] ys (.last (Nat.lt_of_not_le hlt)) (Nat.succ_le_succ (Nat.zero_le _)) ?_
        rw [bytesBits_cons, bytesBits_nil, append_nil]
      simp only [readLeb128Loop, hread, bind_eq_bind, bind_some]
      split
      next hmore =>
        obtain ⟨d, i', byte, r', hrun, hend⟩ := ih hmore.1 (i + 1) _ hrest
          fun groups rest hgroups hlen heq => hno (b :: groups) rest (.more hmarked hgroups)
            (Nat.succ_le_succ hlen) (by rw [heq, bytesBits_cons, append_assoc])
        refine ⟨d, i', byte, r', hrun, hend.imp id fun hten => ⟨?_, hten.2⟩⟩
        rw [hten.1, Nat.add_assoc, Nat.add_comm 1]
      next hend =>
        obtain rfl : rounds = 0 := by
          rcases Nat.eq_zero_or_pos rounds with hzero | hpos
          · exact hzero
          · exact absurd ⟨hpos, (and_mark_ne_zero b).mpr hmarked⟩ hend
        exact ⟨_, _, _, _, rfl, .inr ⟨rfl, by omega⟩⟩

theorem readLeb128_other (h : r.Unread bs)
    (hno : ¬ ∃ groups rest, Leb128Groups groups ∧ bs = bytesBits groups ++ rest) :
    ∃ r', r.readLeb128 = some (0, r') ∧ ¬ r'.Ok := by
  -- whether the reader has failed in the loop or is failed after it
  have hfails : ∃ d i byte u, readLeb128Loop 10 0 0 r = some (d, i, byte, u) ∧
      (¬ u.Ok ∨ i = 10 ∧ byte > 1) := by
    by_cases hterm : ∃ groups rest, Terminated groups ∧ groups.length ≤ 10 ∧
        bs = bytesBits groups ++ rest
    · obtain ⟨groups, rest, hterm, hlen, rfl⟩ := hterm
      obtain ⟨last, u, hlast, hrun, -⟩ := readLeb128Loop_groups hterm 0 0 hlen h
      refine ⟨_, _, _, u, hrun, .inr ?_⟩
      rw [Nat.zero_add]
      by_contra hfits
      exact hno ⟨groups, rest, ⟨hterm, hlen, (value_lt_iff hterm hlen hlast).mpr hfits⟩, rfl⟩
    · obtain ⟨d, i, byte, u, hrun, hend⟩ := @readLeb128Loop_other r bs 10 (by decide) 0 0 h
        fun groups rest hgroups hlen heq => hterm ⟨groups, rest, hgroups, hlen, heq⟩
      exact ⟨d, i, byte, u, hrun, hend⟩
  obtain ⟨d, i, byte, u, hrun, hend⟩ := hfails
  simp only [readLeb128, hrun, bind_eq_bind, bind_some]
  by_cases hten : i = 10 ∧ byte > 1
  · rw [if_pos hten]
    exact ⟨_, rfl, not_ok_invalidate u⟩
  · have hu := hend.resolve_right hten
    rw [if_neg hten, if_neg hu]
    exact ⟨u, rfl, hu⟩

/-- The read succeeds exactly on the inputs that start with groups of the required form, returns
their value, and returns zero where it fails. -/
def Leb128Exact (r : BitBufferReader) (bits : List Bool) : Prop :=
  ∃ v r', r.readLeb128 = some (v, r') ∧
    (r'.Ok ↔ ∃ groups rest, Leb128Groups groups ∧ bits = bytesBits groups ++ rest) ∧
    (∀ groups rest, Leb128Groups groups → bits = bytesBits groups ++ rest →
      v = groupsValue groups) ∧
    (¬ r'.Ok → v = 0)

theorem leb128Exact_of_unread (h : r.Unread bs) : Leb128Exact r bs := by
  by_cases hgroups : ∃ groups rest, Leb128Groups groups ∧ bs = bytesBits groups ++ rest
  · obtain ⟨groups, rest, hleb, rfl⟩ := hgroups
    obtain ⟨r', hrun, hrest⟩ := readLeb128_groups hleb h
    refine ⟨_, r', hrun, iff_of_true hrest.ok ⟨groups, rest, hleb, rfl⟩, ?_,
      fun hfailed => absurd hrest.ok hfailed⟩
    intro groups' rest' hleb' heq
    obtain ⟨r'', hrun', -⟩ := readLeb128_groups hleb' (heq ▸ h)
    exact (mk.inj (some.inj (hrun.symm.trans hrun'))).1
  · obtain ⟨r', hrun, hr'⟩ := readLeb128_other h hgroups
    exact ⟨0, r', hrun, iff_of_false hr' hgroups, fun groups rest hleb heq =>
      absurd ⟨groups, rest, hleb, heq⟩ hgroups, fun _ => rfl⟩

end Leb128

/-! ### Every position of an input -/

/-- The three reads are exact at every position. -/
def CodesExact (bytes : List UInt8) : Prop :=
  ∀ k ≤ 8 * bytes.length,
    let r := (BitBufferReader.new bytes).consumeBits k
    let bits := (bytesBits bytes).drop k
    GolombExact r bits ∧ SignedGolombExact r bits ∧ Leb128Exact r bits

theorem eq_replicate_append {n : Nat} (hlen : n ≤ bits.length)
    (hno : ∀ z < n, ∀ ys, bits ≠ replicate z false ++ true :: ys) :
    ∃ rest, bits = replicate n false ++ rest := by
  induction n generalizing bits with
  | zero => exact ⟨bits, rfl⟩
  | succ n ih =>
    match bits with
    | [] => exact absurd hlen (Nat.not_succ_le_zero n)
    | true :: ys => exact absurd rfl (hno 0 (Nat.succ_pos n) ys)
    | false :: bits =>
      obtain ⟨rest, hrest⟩ := ih (Nat.le_of_succ_le_succ hlen) fun z hz ys heq =>
        hno (z + 1) (Nat.succ_lt_succ hz) ys (congrArg (false :: ·) heq)
      exact ⟨rest, by rw [hrest, replicate_succ, cons_append]⟩

/-- On 64 bits or more at least one of the reads has to succeed: they start with a Golomb code word,
or with a group of zeros. -/
theorem exists_code (hlen : 64 ≤ bits.length) :
    (∃ code rest, GolombCode code ∧ bits = code ++ rest) ∨
      ∃ groups rest, Leb128Groups groups ∧ bits = bytesBits groups ++ rest := by
  by_cases hone : ∃ z < 8, ∃ ys, bits = replicate z false ++ true :: ys
  · obtain ⟨z, hz, ys, rfl⟩ := hone
    rw [length_append, length_replicate, length_cons] at hlen
    exact .inl (exists_code_of_one (by omega) (by omega))
  · obtain ⟨rest, hrest⟩ := @eq_replicate_append bits 8 (by omega) fun z hz ys heq =>
      hone ⟨z, hz, ys, heq⟩
    exact .inr ⟨[0], rest, ⟨.last (by decide), by decide, by decide⟩, hrest⟩

/-- The reader cannot read either code. -/
def BitBufferReader.Stuck (r : BitBufferReader) : Prop :=
  (∀ v r', r.readExponentialGolomb = some (v, r') → ¬ r'.Ok) ∧
    ∀ v r', r.readLeb128 = some (v, r') → ¬ r'.Ok

variable {r : BitBufferReader}

theorem stuck_of_failed (h : ¬ r.Ok) : r.Stuck := by
  constructor
  · exact fun v r' hrun => (@steady_readExponentialGolomb []).fails h hrun
  · exact fun v r' hrun => (@steady_readLeb128 []).fails h hrun

theorem stuck_of_empty (h : r.Unread []) : r.Stuck := by
  constructor
  · intro v r' hrun
    have hno : ¬ ∃ code rest, GolombCode code ∧ [] = code ++ rest := by
      rintro ⟨code, rest, ⟨z, low, -, -, rfl⟩, heq⟩
      have hlen := congrArg length heq
      simp only [length_nil, length_append, length_cons] at hlen
      omega
    obtain ⟨v', u, hrun', hu⟩ := readExponentialGolomb_other h hno
    obtain ⟨-, rfl⟩ := mk.inj (some.inj (hrun.symm.trans hrun'))
    exact hu
  · intro v r' hrun
    have hno : ¬ ∃ groups rest, Leb128Groups groups ∧ [] = bytesBits groups ++ rest := by
      rintro ⟨groups, rest, ⟨hterm, -, -⟩, heq⟩
      have hlen := congrArg length heq
      have hpos := hterm.length_pos
      rw [length_append, length_bytesBits, length_nil] at hlen
      omega
    obtain ⟨u, hrun', hu⟩ := readLeb128_other h hno
    obtain ⟨-, rfl⟩ := mk.inj (some.inj (hrun.symm.trans hrun'))
    exact hu

theorem not_exact_of_stuck (hlen : 64 ≤ bits.length)
    (h : r.Stuck) : ¬ (GolombExact r bits ∧ SignedGolombExact r bits ∧ Leb128Exact r bits) := by
  rintro ⟨⟨v, r', hrun, hiff, -⟩, -, ⟨v', u, hrun', hiff', -⟩⟩
  rcases exists_code hlen with ⟨code, rest, ⟨z, low, hz, hlow, rfl⟩, hbits⟩ | hgroups
  · refine h.1 v r' hrun (hiff.mpr ⟨z, low, rest, hz, hlow, ?_⟩)
    rw [hbits, append_assoc, cons_append]
  · exact h.2 v' u hrun' (hiff'.mpr hgroups)

/-- The constructor has counted too few bits, or none at all: there is a position with 64 bits
behind it and a reader that is stuck there. -/
theorem exists_stuck {bytes : List UInt8} (hlarge : 2 ^ 28 ≤ bytes.length) :
    ∃ k, k + 64 ≤ 8 * bytes.length ∧ ((new bytes).consumeBits k).Stuck := by
  by_cases hok : 0 ≤ castInt (bytes.length * 8)
  · have hcast := castInt_of_nonneg hok
    have hlt := castInt_lt (bytes.length * 8)
    have hnew := new_spec hok
    rw [hcast] at hnew hlt
    rw [Int.toNat_natCast] at hnew
    generalize hc : bytes.length * 8 % 4294967296 = c at hnew hlt
    have hcounted : ((bytesBits bytes).take c).length = c :=
      length_take_of_le (by rw [length_bytesBits]; omega)
    rw [← append_nil ((bytesBits bytes).take c)] at hnew
    have hempty := consumeBits_spec hnew
    rw [hcounted] at hempty
    exact ⟨c, by omega, stuck_of_empty hempty⟩
  · refine ⟨0, by omega, stuck_of_failed (consumeBits_not_ok ?_)⟩
    rw [new_mRemainingBits]
    omega

/-- The reads accept what they should at every position of the input, and the signed values number
the code words, exactly if the input has fewer than `2 ^ 28` bytes. -/
theorem codesExact_iff (bytes : List UInt8) : (CodesExact bytes ∧
      Set.BijOn signedValue { code | GolombCode code } { v | -2 ^ 31 < v ∧ v < 2 ^ 31 }) ↔
    bytes.length < 2 ^ 28 := by
  constructor
  · rintro ⟨hexact, -⟩
    by_contra hlarge
    obtain ⟨k, hk, hstuck⟩ := exists_stuck (Nat.le_of_not_lt hlarge)
    refine not_exact_of_stuck ?_ hstuck (hexact k (by omega))
    rw [length_drop, length_bytesBits]
    omega
  · intro hsmall
    refine ⟨fun k hk => ?_, signedValue_bijOn⟩
    have hunread : ((new bytes).consumeBits k).Unread ((bytesBits bytes).drop k) := by
      rw [new_eq_cursor hsmall, consumeBits_cursor (by omega), Nat.zero_add]
      exact cursor_unread hk
    exact ⟨golombExact_of_unread hunread, signedGolombExact_of_unread hunread,
      leb128Exact_of_unread hunread⟩

/-- Over `2^28` bytes that start with the code word of zero the read fails. -/
theorem large_golomb_fails :
    ∃ v r', (new (replicate (2 ^ 28) 0x80)).readExponentialGolomb = some (v, r') ∧ ¬ r'.Ok ∧
      ∃ rest, bytesBits (replicate (2 ^ 28) 0x80) = true :: rest := by
  have hnot : ¬ (new (replicate (2 ^ 28) 0x80)).Ok := by
    rw [Ok, new_mRemainingBits, length_replicate]
    decide
  obtain ⟨v, r', hrun, -, hok⟩ := @steady_readExponentialGolomb [] _ (.inr hnot)
  refine ⟨v, r', hrun, fun hr' => hnot (hok hr'), ?_⟩
  exact ⟨_, rfl⟩

end CxxKit.BitBuffer
