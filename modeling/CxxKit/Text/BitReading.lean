import CxxKit.Text.BitWriting

/-!
What the reader returns, over the bits it has not read yet.

`Unread r bs` says that `bs` are the bits in front of the reader; the buffer may
hold more behind them than the reader counts.  Each read is specified on a reader
with `xs ++ ys` unread: it returns what `xs` encodes and leaves `ys`.
-/

namespace CxxKit.BitBuffer

open BitList List Option

namespace BitBufferReader

/-- The unread bits: `mRemainingBits` many, from inside the current byte up to a byte
boundary. -/
def Unread (r : BitBufferReader) (bs : List Bool) : Prop :=
  r.mRemainingBits = bs.length ∧ ∃ pre post, bytesBits r.mBytes = pre ++ bs ++ post ∧
    pre.length < 8 ∧ (pre.length + bs.length) % 8 = 0

theorem Unread.ok {r : BitBufferReader} {bs : List Bool} (h : r.Unread bs) : r.Ok := by
  rw [Ok, h.1]
  exact Int.natCast_nonneg _

/-! ### Accumulating bits -/

/-- Appending bits below those read so far. -/
theorem ofBits_mul_or (xs ys : List Bool) :
    ofBits xs * 2 ^ ys.length ||| ofBits ys = ofBits (xs ++ ys) := by
  rw [ofBits_append, Nat.mul_comm, Nat.two_pow_add_eq_or_of_lt (ofBits_lt ys)]

theorem ofBits_mul_or_mul (xs ys : List Bool) (m : Nat) :
    ofBits xs * 2 ^ (m + ys.length) ||| ofBits ys * 2 ^ m = ofBits (xs ++ ys) * 2 ^ m := by
  have hshift : (ofBits xs * 2 ^ ys.length ||| ofBits ys) <<< m =
      (ofBits xs * 2 ^ ys.length) <<< m ||| ofBits ys <<< m := Nat.shiftLeft_or_distrib
  rw [ofBits_mul_or, Nat.shiftLeft_eq, Nat.shiftLeft_eq, Nat.shiftLeft_eq] at hshift
  rw [hshift, Nat.add_comm m, pow_add, Nat.mul_assoc]

theorem ofBits_lt_of_le {xs : List Bool} {m : Nat} (h : xs.length + m ≤ 64) :
    ofBits xs * 2 ^ m < 2 ^ 64 := by
  calc ofBits xs * 2 ^ m < 2 ^ xs.length * 2 ^ m :=
        Nat.mul_lt_mul_of_pos_right (ofBits_lt xs) (Nat.two_pow_pos m)
    _ = 2 ^ (xs.length + m) := (pow_add 2 _ _).symm
    _ ≤ 2 ^ 64 := Nat.pow_le_pow_right (by decide) h

theorem shl64_ofBits {xs : List Bool} {m : Nat} (h : xs.length + m ≤ 64) :
    shl64 (ofBits xs) m = ofBits xs * 2 ^ m := by
  rw [shl64, Nat.shiftLeft_eq, Nat.mod_eq_of_lt (ofBits_lt_of_le h)]

theorem toNat_eq_ofBits (b : UInt8) : b.toNat = ofBits (toBits 8 b.toNat) := by
  rw [ofBits_toBits, Nat.mod_eq_of_lt b.toNat_lt]

variable {bytes : List UInt8} {b : UInt8}

/-- The first byte of a buffer whose bits start with eight given ones. -/
theorem bytesBits_eq_append {xs ys : List Bool} (hlen : xs.length = 8)
    (h : bytesBits bytes = xs ++ ys) :
    ∃ b rest, bytes = b :: rest ∧ toBits 8 b.toNat = xs ∧ bytesBits rest = ys := by
  cases bytes with
  | nil =>
    have hzero := congrArg List.length h
    rw [bytesBits_nil, length_append, length_nil] at hzero
    omega
  | cons b rest =>
    obtain ⟨hb, hrest⟩ := append_inj h (by rw [length_toBits, hlen])
    exact ⟨b, rest, rfl, hb, hrest⟩

/-! ### `read_bits` -/

theorem readFullBytes_lt {bits : Nat} (h : bits < 8) (result : Nat) (bytes : List UInt8) :
    readFullBytes bits result bytes = some (bits, result, bytes) := by
  unfold readFullBytes
  split
  · omega
  · rfl

/-- The loop appends whole bytes to the bits read so far, `xs`. -/
theorem readFullBytes_spec (bits : Nat) {xs ys zs : List Bool} (hlen : ys.length = bits)
    (hfit : xs.length + bits ≤ 64) (hbytes : bytesBits bytes = ys ++ zs) :
    ∃ bytes', readFullBytes bits (ofBits xs * 2 ^ bits) bytes =
        some (bits % 8, ofBits (xs ++ ys.take (8 * (bits / 8))) * 2 ^ (bits % 8), bytes') ∧
      bytesBits bytes' = ys.drop (8 * (bits / 8)) ++ zs := by
  induction bits using Nat.strongRecOn generalizing xs ys bytes with
  | ind bits ih =>
    by_cases hlt : bits < 8
    · have hdiv : bits / 8 = 0 := Nat.div_eq_of_lt hlt
      refine ⟨bytes, ?_, by simpa [hdiv] using hbytes⟩
      rw [readFullBytes_lt hlt, Nat.mod_eq_of_lt hlt, hdiv]
      simp
    · obtain ⟨m, rfl⟩ : ∃ m, bits = m + 8 := ⟨bits - 8, by omega⟩
      have hdiv : (m + 8) / 8 = m / 8 + 1 := by omega
      have hys : ys = ys.take 8 ++ ys.drop 8 := (take_append_drop 8 ys).symm
      have htake : (ys.take 8).length = 8 := by
        rw [length_take]
        omega
      rw [hys, append_assoc] at hbytes
      obtain ⟨b, rest, rfl, hb, hrest⟩ := bytesBits_eq_append htake hbytes
      have hdrop : (ys.drop 8).length = m := by
        rw [length_drop]
        omega
      have hstep : ofBits xs * 2 ^ (m + 8) ||| shl64 b.toNat m =
          ofBits (xs ++ ys.take 8) * 2 ^ m := by
        have hor := ofBits_mul_or_mul xs (ys.take 8) m
        rw [htake] at hor
        rw [toNat_eq_ofBits b, hb, shl64_ofBits (by omega), hor]
      have hfit' : (xs ++ ys.take 8).length + m ≤ 64 := by
        rw [length_append]
        omega
      obtain ⟨bytes', hrun, hbytes'⟩ := ih m (by omega) hdrop hfit' hrest
      refine ⟨bytes', ?_, ?_⟩
      · have hsum : 8 + 8 * (m / 8) = 8 * (m / 8 + 1) := by omega
        rw [readFullBytes, head?_cons, bind_eq_bind, bind_some, hstep,
          tail_cons, hrun, Nat.add_mod_right, hdiv, append_assoc, ← take_add, hsum]
      · rw [hbytes', drop_drop]
        congr 2
        omega

/-- Shift and mask take a run of bits out of a byte. -/
theorem shiftRight_and_mask {us xs vs : List Bool} (h : toBits 8 b.toNat = us ++ xs ++ vs) :
    (b.toNat >>> vs.length) &&& ((1 <<< xs.length) - 1) = ofBits xs := by
  have hlen : 8 = us.length + (xs.length + vs.length) := by
    have := congrArg List.length h
    simp only [length_toBits, length_append] at this
    omega
  have hsplit : toBits 8 b.toNat = toBits us.length (b.toNat >>> (xs.length + vs.length)) ++
      (toBits xs.length (b.toNat >>> vs.length) ++ toBits vs.length b.toNat) := by
    rw [← toBits_add, ← toBits_add, ← hlen]
  rw [h, append_assoc] at hsplit
  obtain ⟨-, hrest⟩ := append_inj hsplit (length_toBits ..).symm
  obtain ⟨hxs, -⟩ := append_inj hrest (length_toBits ..).symm
  rw [Nat.one_shiftLeft, Nat.and_two_pow_sub_one_eq_mod, ← ofBits_toBits, ← hxs]

/-- The top bits of a byte need no mask. -/
theorem shiftRight_eq_ofBits {xs vs : List Bool} (h : toBits 8 b.toNat = xs ++ vs) :
    b.toNat >>> vs.length = ofBits xs := by
  have hlen : 8 = xs.length + vs.length := by
    have := congrArg List.length h
    simpa using this
  have hbits : toBits 8 b.toNat = [] ++ xs ++ vs := h
  have hmask := shiftRight_and_mask hbits
  rw [Nat.one_shiftLeft, Nat.and_two_pow_sub_one_eq_mod, Nat.mod_eq_of_lt] at hmask
  · exact hmask
  · rw [Nat.shiftRight_eq_div_pow, Nat.div_lt_iff_lt_mul (Nat.two_pow_pos _), ← pow_add, ← hlen]
    exact b.toNat_lt

section ReadBits

variable {r : BitBufferReader} {xs ys : List Bool}

theorem Unread.pre_length {pre bs : List Bool} (hlt : pre.length < 8)
    (hmod : (pre.length + bs.length) % 8 = 0) :
    (bs.length % 8 = 0 ∧ pre = []) ∨ (0 < bs.length % 8 ∧ pre.length + bs.length % 8 = 8) := by
  by_cases hz : bs.length % 8 = 0
  · exact .inl ⟨hz, eq_nil_of_length_eq_zero (by omega)⟩
  · exact .inr ⟨by omega, by omega⟩

theorem readBits_within (h : r.Unread (xs ++ ys)) (hlt : xs.length < (xs ++ ys).length % 8) :
    ∃ r', r.readBits xs.length = some (ofBits xs, r') ∧ r'.Unread ys := by
  obtain ⟨hrem, pre, post, hbytes, hpre, hmod⟩ := h
  have hcount : r.mRemainingBits.toNat % 8 = (xs ++ ys).length % 8 := by
    rw [hrem, Int.toNat_natCast]
  obtain ⟨hz, -⟩ | ⟨-, hfill⟩ := Unread.pre_length hpre hmod
  · omega
  rw [length_append] at hfill hlt hcount
  have hsplit : bytesBits r.mBytes =
      (pre ++ xs ++ ys.take ((xs.length + ys.length) % 8 - xs.length))
      ++ (ys.drop ((xs.length + ys.length) % 8 - xs.length) ++ post) := by
    rw [hbytes]
    simp only [append_assoc, ← append_assoc (ys.take _), take_append_drop]
  have hlen : (ys.take ((xs.length + ys.length) % 8 - xs.length)).length =
      (xs.length + ys.length) % 8 - xs.length := by
    rw [length_take]
    omega
  obtain ⟨b, rest, hb, hbits, -⟩ := bytesBits_eq_append (by simp; omega) hsplit
  have hval := shiftRight_and_mask hbits
  rw [hlen] at hval
  refine ⟨⟨r.mBytes, r.mRemainingBits - xs.length⟩, ?_, ?_, pre ++ xs, post, ?_, ?_, ?_⟩
  · have hnot : ¬ r.mRemainingBits < xs.length := by
      omega
    rw [readBits, if_neg hnot]
    simp only [hcount, if_pos hlt, hb, head?_cons, bind_eq_bind, bind_some, hval]
  · change r.mRemainingBits - (xs.length : Int) = ys.length
    rw [hrem, length_append]
    omega
  · rw [hbytes]
    simp
  · rw [length_append]
    omega
  · rw [length_append] at hmod ⊢
    omega

/-- Reading from a byte boundary on, `us` being read already. -/
theorem readAligned_spec {us vs post : List Bool} {bytes : List UInt8}
    (hfit : us.length + vs.length ≤ 64) (hbytes : bytesBits bytes = vs ++ ys ++ post)
    (hmod : (vs.length + ys.length) % 8 = 0) :
    ∃ r', readAligned ys.length vs.length (ofBits us * 2 ^ vs.length) bytes =
      some (ofBits (us ++ vs), r') ∧ r'.Unread ys := by
  rw [append_assoc] at hbytes
  obtain ⟨bytes', hrun, hrest⟩ := readFullBytes_spec vs.length rfl hfit hbytes
  have hdrop : (vs.drop (8 * (vs.length / 8))).length = vs.length % 8 := by
    rw [length_drop]
    omega
  simp only [readAligned, hrun, bind_eq_bind, bind_some]
  by_cases hpos : vs.length % 8 > 0
  · -- the rest of `vs` shares a byte with the first bits of `ys`
    have htake : (ys.take (8 - vs.length % 8)).length = 8 - vs.length % 8 := by
      rw [length_take]
      omega
    have hsplit : bytesBits bytes' =
        (vs.drop (8 * (vs.length / 8)) ++ ys.take (8 - vs.length % 8)) ++
        (ys.drop (8 - vs.length % 8) ++ post) := by
      rw [hrest]
      simp only [append_assoc, ← append_assoc (ys.take _), take_append_drop]
    obtain ⟨b, rest, rfl, hb, -⟩ :=
      bytesBits_eq_append (by rw [length_append]; omega) hsplit
    have hval := shiftRight_eq_ofBits hb
    have hor := ofBits_mul_or (us ++ vs.take (8 * (vs.length / 8))) (vs.drop (8 * (vs.length / 8)))
    rw [append_assoc, take_append_drop, hdrop] at hor
    rw [htake] at hval
    rw [if_pos hpos, head?_cons, bind_some, hval, hor]
    refine ⟨_, rfl, rfl, vs.drop (8 * (vs.length / 8)), post, ?_, by omega, by omega⟩
    rw [hrest, append_assoc]
  · have hzero : vs.length % 8 = 0 := by omega
    rw [hzero, pow_zero, Nat.mul_one, take_of_length_le (by omega)]
    refine ⟨_, rfl, rfl, [], post, ?_, by decide, ?_⟩
    · rw [hrest, drop_eq_nil_of_le (by omega)]
      rfl
    · simp only [length_nil]
      omega

theorem readBits_spec (h : r.Unread (xs ++ ys)) (hle : xs.length ≤ 64) :
    ∃ r', r.readBits xs.length = some (ofBits xs, r') ∧ r'.Unread ys := by
  by_cases hlt : xs.length < (xs ++ ys).length % 8
  · exact readBits_within h hlt
  obtain ⟨hrem, pre, post, hbytes, hpre, hmod⟩ := h
  have hnot : ¬ r.mRemainingBits < xs.length := by
    rw [hrem, length_append]
    omega
  have hleft : r.mRemainingBits - xs.length = ys.length := by
    rw [hrem, length_append]
    omega
  have hcount : r.mRemainingBits.toNat % 8 = (xs ++ ys).length % 8 := by
    rw [hrem, Int.toNat_natCast]
  simp only [readBits, if_neg hnot, hcount, if_neg hlt, hleft]
  obtain ⟨hz, rfl⟩ | ⟨hpos, hfill⟩ := Unread.pre_length hpre hmod
  · rw [if_neg (by omega)]
    rw [length_append] at hz
    have hstart : ofBits [] * 2 ^ xs.length = 0 := Nat.zero_mul _
    rw [← hstart]
    have hfit : ([] : List Bool).length + xs.length ≤ 64 := by simpa using hle
    have hbytes' : bytesBits r.mBytes = xs ++ ys ++ post := hbytes
    exact readAligned_spec hfit hbytes' hz
  · -- the rest of the current byte first
    set k := (xs ++ ys).length % 8 with hk
    have htake : (xs.take k).length = k := by
      rw [length_take]
      omega
    have hdrop : (xs.drop k).length = xs.length - k := length_drop ..
    have hsplit : bytesBits r.mBytes = (pre ++ xs.take k) ++ (xs.drop k ++ ys ++ post) := by
      rw [hbytes]
      simp only [append_assoc, ← append_assoc (xs.take _), take_append_drop]
    obtain ⟨b, rest, hb, hbits, hrest⟩ :=
      bytesBits_eq_append (by rw [length_append]; omega) hsplit
    have hval : b.toNat &&& ((1 <<< k) - 1) = ofBits (xs.take k) := by
      have hbits' : toBits 8 b.toNat = pre ++ xs.take k ++ [] := by rw [hbits, append_nil]
      have hmask := shiftRight_and_mask hbits'
      rwa [htake, length_nil] at hmask
    have hshl : shl64 (ofBits (xs.take k)) (xs.length - k) =
        ofBits (xs.take k) * 2 ^ (xs.drop k).length := by
      rw [hdrop, shl64_ofBits (by omega)]
    have hfit : (xs.take k).length + (xs.drop k).length ≤ 64 := by omega
    have hmod' : ((xs.drop k).length + ys.length) % 8 = 0 := by
      omega
    obtain ⟨r', hrun, hunread⟩ := readAligned_spec hfit hrest hmod'
    rw [take_append_drop, ← hshl, hdrop] at hrun
    refine ⟨r', ?_, hunread⟩
    simp only [if_pos hpos, hb, head?_cons, bind_eq_bind, bind_some, hval, tail_cons]
    exact hrun

end ReadBits

/-! ### `read_bit`, `consume_bits` and the constructor -/

section Cursor

variable {r : BitBufferReader} {xs ys : List Bool}

theorem readBit_spec {b : Bool} (h : r.Unread (b :: ys)) :
    ∃ r', r.readBit = some (b.toNat, r') ∧ r'.Unread ys := by
  obtain ⟨hrem, pre, post, hbytes, hpre, hmod⟩ := h
  rw [length_cons] at hrem hmod
  have hpos : ¬ r.mRemainingBits ≤ 0 := by omega
  have hleft : r.mRemainingBits - 1 = ys.length := by omega
  have hfill : pre.length + 1 + ys.length % 8 = 8 := by omega
  have htake : (ys.take (ys.length % 8)).length = ys.length % 8 := by
    rw [length_take]
    omega
  have hsplit : bytesBits r.mBytes = (pre ++ [b] ++ ys.take (ys.length % 8)) ++
      (ys.drop (ys.length % 8) ++ post) := by
    rw [hbytes]
    simp only [append_assoc, ← append_assoc (ys.take _), take_append_drop, cons_append, nil_append]
  have hlen : (pre ++ [b] ++ ys.take (ys.length % 8)).length = 8 := by
    rw [length_append, length_append, htake, length_singleton, hfill]
  obtain ⟨byte, rest, hhead, hbits, hrest⟩ := bytesBits_eq_append hlen hsplit
  have hval := shiftRight_and_mask hbits
  have hbit : ofBits [b] = b.toNat := by simp [ofBits]
  rw [htake, hbit] at hval
  simp only [readBit, if_neg hpos, hleft, Int.toNat_natCast, hhead, head?_cons,
    bind_eq_bind, bind_some]
  by_cases hlast : ys.length % 8 = 0
  · rw [if_pos hlast]
    rw [hlast] at hval
    refine ⟨_, congrArg some (congrArg (·, _) hval), rfl, [], post, ?_, by decide, ?_⟩
    · rw [tail_cons, hrest, hlast]
      simp
    · simp only [length_nil]
      omega
  · rw [if_neg hlast]
    refine ⟨_, congrArg some (congrArg (·, _) hval), rfl, pre ++ [b], post, ?_, ?_, ?_⟩
    · rw [← hhead, hbytes]
      simp
    · rw [length_append, length_singleton]
      omega
    · rw [length_append, length_singleton]
      omega

theorem bytesBits_drop (d : Nat) (bytes : List UInt8) :
    bytesBits (bytes.drop d) = (bytesBits bytes).drop (8 * d) := by
  induction d generalizing bytes with
  | zero => simp
  | succ d ih =>
    cases bytes with
    | nil => simp
    | cons b bytes =>
      have hsum : 8 * (d + 1) = (toBits 8 b.toNat).length + 8 * d := by
        rw [length_toBits]
        omega
      rw [drop_succ_cons, ih, bytesBits_cons, hsum, drop_length_add_append]

theorem consumeBits_spec (h : r.Unread (xs ++ ys)) : (r.consumeBits xs.length).Unread ys := by
  obtain ⟨hrem, pre, post, hbytes, hpre, hmod⟩ := h
  rw [length_append] at hrem hmod
  have hnot : ¬ r.mRemainingBits < xs.length := by omega
  have hleft : r.mRemainingBits - xs.length = ys.length := by omega
  simp only [consumeBits, if_neg hnot, hleft]
  set d := ((r.mRemainingBits + 7) / 8 - ((ys.length : Int) + 7) / 8).toNat with hd
  have hle : 8 * d ≤ pre.length + xs.length := by omega
  refine ⟨rfl, (pre ++ xs).drop (8 * d), post, ?_, ?_, ?_⟩
  · rw [bytesBits_drop, hbytes, ← append_assoc pre, append_assoc,
      drop_append_of_le_length (by rw [length_append]; exact hle), append_assoc]
  · rw [length_drop, length_append]
    omega
  · rw [length_drop, length_append]
    omega

theorem castInt_of_nonneg {n : Nat} (h : 0 ≤ castInt n) :
    castInt n = ((n % 4294967296 : Nat) : Int) := by
  unfold castInt at h ⊢
  rw [Int.bmod_def] at h ⊢
  split at h
  next hlt =>
    omega
  · omega

theorem castInt_lt (n : Nat) : castInt n < 2147483648 := by
  unfold castInt
  rw [Int.bmod_def]
  split <;> omega

/-- The constructor counts the bits of the buffer modulo `4294967296`, so it may see only
the first of them. -/
theorem new_spec {bytes : List UInt8} (h : 0 ≤ castInt (bytes.length * 8)) :
    (new bytes).Unread ((bytesBits bytes).take (castInt (bytes.length * 8)).toNat) := by
  obtain ⟨k, hk⟩ : ∃ k, k = bytes.length * 8 % 4294967296 := ⟨_, rfl⟩
  have hcast : castInt (bytes.length * 8) = k := by rw [castInt_of_nonneg h, hk]
  rw [hcast, Int.toNat_natCast]
  have hlen : ((bytesBits bytes).take k).length = k := by
    rw [length_take, length_bytesBits]
    omega
  refine ⟨?_, [], (bytesBits bytes).drop k, ?_, by decide, ?_⟩
  · rw [hlen, new_mRemainingBits, hcast]
  · rw [nil_append, take_append_drop]
    rfl
  · rw [length_nil]
    omega

/-- After a consume or a read that went wrong nothing is unread. -/
theorem consumeBits_not_ok {bits : Int} (h : r.mRemainingBits < bits) :
    ¬ (r.consumeBits bits).Ok := by
  rw [consumeBits, if_pos h, Ok, invalidate]
  simp

end Cursor

end BitBufferReader

end CxxKit.BitBuffer
