import CxxKit.Text.Base64
import Mathlib.Tactic.IntervalCases

/-!
Strict decoding accepts exactly what `encode_from_array` writes.

A quantum is the text of two to four sextets, padded to four characters.  Strictly
read, a quantum that counts as padded is such a text, character for character
(`text_of_getNextQuantum`), and every such text is read back whatever follows it
(`getNextQuantum_of_text`).  Packing bytes into sextets and unpacking them again are
inverse to each other as long as no bit is left over (`unpack_pack`, `pack_unpack`).
-/

namespace CxxKit.Base64

open List Nat UInt8

/-! ### The two tables -/

theorem ofNat_toNat_lt {P : UInt8 → Prop} {m : Nat} (h : ∀ n, n < m → P (ofNat n))
    (x : UInt8) (hx : x.toNat < m) : P x := by
  have hP := h x.toNat hx
  rwa [UInt8.ofNat_toNat] at hP

theorem code_symbol {c : UInt8} (hc : c < 64) : code (symbol c) = c :=
  ofNat_toNat_lt (P := fun c => code (symbol c) = c) (by decide +kernel) c
    (lt_iff_toNat_lt.mp hc)

theorem code_kPad : code kPad = pd := by
  decide

/-- A character stands for a sextet, is the pad, or is neither. -/
theorem code_cases (ch : UInt8) :
    (code ch < 64 ∧ symbol (code ch) = ch) ∨ ch = kPad ∨ code ch = sp ∨ code ch = il :=
  ofNat_toNat_lt
    (P := fun ch => (code ch < 64 ∧ symbol (code ch) = ch) ∨ ch = kPad ∨ code ch = sp ∨
      code ch = il) (by decide +kernel) ch ch.toNat_lt

/-! ### Bits -/

theorem eq_of_bits {x y : UInt8} (h : ∀ i, i < 8 → x.toBitVec.getLsbD i = y.toBitVec.getLsbD i) :
    x = y :=
  UInt8.eq_of_toBitVec_eq (BitVec.eq_of_getLsbD_eq h)

theorem high_bits {p : UInt8} (hp : p < 64) :
    p.toBitVec.getLsbD 6 = false ∧ p.toBitVec.getLsbD 7 = false := by
  have hlt : p.toBitVec.toNat < 2 ^ 6 := lt_iff_toNat_lt.mp hp
  exact ⟨testBit_lt_two_pow hlt, testBit_lt_two_pow (Nat.lt_trans hlt (by decide))⟩

theorem firstByte_sextets (x y : UInt8) :
    firstByte ((x >>> 2) &&& 0x3f) (secondSextet x y) = x := by
  refine eq_of_bits fun i hi => ?_
  interval_cases i <;> simp [firstByte, secondSextet]

theorem secondByte_sextets (x y z : UInt8) :
    secondByte (secondSextet x y) (thirdSextet y z) = y := by
  refine eq_of_bits fun i hi => ?_
  interval_cases i <;> simp [secondByte, secondSextet, thirdSextet]

theorem thirdByte_sextets (y z : UInt8) : thirdByte (thirdSextet y z) (z &&& 0x3f) = z := by
  refine eq_of_bits fun i hi => ?_
  interval_cases i <;> simp [thirdByte, thirdSextet]

section Sextets

variable {p q r s : UInt8}

theorem firstSextet_bytes (hp : p < 64) : (firstByte p q >>> 2) &&& 0x3f = p := by
  obtain ⟨h6, h7⟩ := high_bits hp
  refine eq_of_bits fun i hi => ?_
  interval_cases i <;> simp_all [firstByte]

theorem secondSextet_bytes (hq : q < 64) : secondSextet (firstByte p q) (secondByte q r) = q := by
  obtain ⟨h6, h7⟩ := high_bits hq
  refine eq_of_bits fun i hi => ?_
  interval_cases i <;> simp_all [secondSextet, firstByte, secondByte]

theorem thirdSextet_bytes (hr : r < 64) (hs : s < 64) :
    thirdSextet (secondByte q r) (thirdByte r s) = r := by
  obtain ⟨h6, h7⟩ := high_bits hr
  obtain ⟨hs6, hs7⟩ := high_bits hs
  refine eq_of_bits fun i hi => ?_
  interval_cases i <;> simp_all [thirdSextet, secondByte, thirdByte]

theorem fourthSextet_bytes (hs : s < 64) : thirdByte r s &&& 0x3f = s := by
  obtain ⟨h6, h7⟩ := high_bits hs
  refine eq_of_bits fun i hi => ?_
  interval_cases i <;> simp_all [thirdByte]

end Sextets

/-! ### Quanta -/

/-- The sextets of one to three bytes. -/
def pack : List UInt8 → List UInt8
  | [x] => [(x >>> 2) &&& 0x3f, (x <<< 4) &&& 0x3f]
  | [x, y] => [(x >>> 2) &&& 0x3f, secondSextet x y, (y <<< 2) &&& 0x3f]
  | [x, y, z] => [(x >>> 2) &&& 0x3f, secondSextet x y, thirdSextet y z, z &&& 0x3f]
  | _ => []

/-- The characters of the sextets `qs` and `p` pads. -/
def text (qs : List UInt8) (p : Nat) : List UInt8 :=
  qs.map symbol ++ List.replicate p kPad

/-- Two to four sextets, padded to four characters. -/
structure IsQuantum (qs : List UInt8) (p : Nat) : Prop where
  full : qs.length + p = 4
  pads : p ≤ 2
  sextets : ∀ q ∈ qs, q < 64

theorem length_text (qs : List UInt8) (p : Nat) : (text qs p).length = qs.length + p := by
  simp [text]

theorem secondSextet_zero (x : UInt8) : secondSextet x 0 = (x <<< 4) &&& 0x3f := by
  simp [secondSextet]

theorem thirdSextet_zero (y : UInt8) : thirdSextet y 0 = (y <<< 2) &&& 0x3f := by
  simp [thirdSextet]

theorem and_sextet_lt (x : UInt8) : x &&& 0x3f < 64 := by
  exact and_lt_two_pow (n := 6) _ (by decide)

theorem secondSextet_lt (x y : UInt8) : secondSextet x y < 64 := by
  refine or_lt_two_pow (n := 6) (lt_iff_toNat_lt.mp (and_sextet_lt _)) ?_
  exact and_lt_two_pow _ (by decide)

theorem thirdSextet_lt (y z : UInt8) : thirdSextet y z < 64 := by
  refine or_lt_two_pow (n := 6) (lt_iff_toNat_lt.mp (and_sextet_lt _)) ?_
  exact and_lt_two_pow _ (by decide)

variable {bytes qs data : List UInt8} {p dpos : Nat} {ch : UInt8}

section

variable (hlen : bytes.length + p = 3)
include hlen

/-- One to three bytes. -/
theorem bytes_cases (hp : p ≤ 2) : (∃ x, bytes = [x] ∧ p = 2) ∨ (∃ x y, bytes = [x, y] ∧ p = 1) ∨
      ∃ x y z, bytes = [x, y, z] ∧ p = 0 := by
  match bytes, hlen with
  | [], hlen => exact absurd hlen (by rw [length_nil]; omega)
  | [x], hlen =>
    rw [length_singleton] at hlen
    exact .inl ⟨x, rfl, by omega⟩
  | [x, y], hlen =>
    rw [length_cons, length_singleton] at hlen
    exact .inr (.inl ⟨x, y, rfl, by omega⟩)
  | [x, y, z], hlen =>
    rw [length_cons, length_cons, length_singleton] at hlen
    exact .inr (.inr ⟨x, y, z, rfl, by omega⟩)
  | x :: y :: z :: w :: rest, hlen =>
    simp only [length_cons] at hlen
    omega

theorem isQuantum_pack (hp : p ≤ 2) : IsQuantum (pack bytes) p := by
  rcases bytes_cases hlen hp with ⟨x, rfl, rfl⟩ | ⟨x, y, rfl, rfl⟩ | ⟨x, y, z, rfl, rfl⟩
  · exact ⟨rfl, hp, by simp [pack, and_sextet_lt]⟩
  · exact ⟨rfl, hp, by simp [pack, and_sextet_lt, secondSextet_lt]⟩
  · exact ⟨rfl, hp, by simp [pack, and_sextet_lt, secondSextet_lt, thirdSextet_lt]⟩

/-- The encoding starts with the quantum of its first bytes. -/
theorem encodeFromArray_append {rest : List UInt8} (hp : p ≤ 2) (hlast : p = 0 ∨ rest = []) :
    encodeFromArray (bytes ++ rest) = text (pack bytes) p ++ encodeFromArray rest := by
  rcases bytes_cases hlen hp with ⟨x, rfl, rfl⟩ | ⟨x, y, rfl, rfl⟩ | ⟨x, y, z, rfl, rfl⟩
  · obtain rfl := hlast.resolve_left (by decide)
    rfl
  · obtain rfl := hlast.resolve_left (by decide)
    rfl
  · rfl

end

theorem unpack_two (a b : UInt8) : unpack [a, b] = ([firstByte a b], secondByte b 0) :=
  rfl

theorem unpack_three (a b c : UInt8) :
    unpack [a, b, c] = ([firstByte a b, secondByte b c], thirdByte c 0) :=
  rfl

theorem unpack_four (a b c d : UInt8) :
    unpack [a, b, c, d] = ([firstByte a b, secondByte b c, thirdByte c d], 0) :=
  rfl

theorem unpack_pack (hlen : bytes.length + p = 3) (hp : p ≤ 2) :
    unpack (pack bytes) = (bytes, 0) := by
  rcases bytes_cases hlen hp with ⟨x, rfl, rfl⟩ | ⟨x, y, rfl, rfl⟩ | ⟨x, y, z, rfl, rfl⟩
  · have hleft : secondByte (secondSextet x 0) 0 = 0 := secondByte_sextets x 0 0
    rw [pack, unpack_two, ← secondSextet_zero, firstByte_sextets, hleft]
  · have hleft : thirdByte (thirdSextet y 0) 0 = 0 := thirdByte_sextets y 0
    rw [pack, unpack_three, ← thirdSextet_zero, firstByte_sextets, secondByte_sextets, hleft]
  · rw [pack, unpack_four, firstByte_sextets, secondByte_sextets, thirdByte_sextets]

theorem sextets_cases (h : IsQuantum qs p) :
    (∃ a b, qs = [a, b] ∧ p = 2) ∨ (∃ a b c, qs = [a, b, c] ∧ p = 1) ∨
      ∃ a b c d, qs = [a, b, c, d] ∧ p = 0 := by
  have hfull := h.full
  have hp := h.pads
  match qs, hfull with
  | [], hfull | [_], hfull =>
    simp only [length_cons, length_nil] at hfull
    omega
  | [a, b], hfull =>
    simp only [length_cons, length_nil] at hfull
    exact .inl ⟨a, b, rfl, by omega⟩
  | [a, b, c], hfull =>
    simp only [length_cons, length_nil] at hfull
    exact .inr (.inl ⟨a, b, c, rfl, by omega⟩)
  | [a, b, c, d], hfull =>
    simp only [length_cons, length_nil] at hfull
    exact .inr (.inr ⟨a, b, c, d, rfl, by omega⟩)
  | _ :: _ :: _ :: _ :: _ :: _, hfull =>
    simp only [length_cons] at hfull
    omega

/-- Unpacking loses nothing if no bits are left over. -/
theorem pack_unpack (h : IsQuantum qs p) (hleft : (unpack qs).2 = 0) :
    (unpack qs).1.length + p = 3 ∧ pack (unpack qs).1 = qs := by
  have hlt := h.sextets
  rcases sextets_cases h with ⟨a, b, rfl, rfl⟩ | ⟨a, b, c, rfl, rfl⟩ | ⟨a, b, c, d, rfl, rfl⟩
  · have hzero : secondByte b 0 = 0 := hleft
    have hback := secondSextet_bytes (p := a) (r := 0) (hlt b (by simp))
    rw [hzero, secondSextet_zero] at hback
    refine ⟨rfl, ?_⟩
    rw [unpack_two, pack, firstSextet_bytes (hlt a (by simp)), hback]
  · have hzero : thirdByte c 0 = 0 := hleft
    have hback := thirdSextet_bytes (q := b) (hlt c (by simp)) (show (0 : UInt8) < 64 by decide)
    rw [hzero, thirdSextet_zero] at hback
    refine ⟨rfl, ?_⟩
    rw [unpack_three, pack, firstSextet_bytes (hlt a (by simp)),
      secondSextet_bytes (hlt b (by simp)), hback]
  · refine ⟨rfl, ?_⟩
    rw [unpack_four, pack, firstSextet_bytes (hlt a (by simp)),
      secondSextet_bytes (hlt b (by simp)), thirdSextet_bytes (hlt c (by simp)) (hlt d (by simp)),
      fourthSextet_bytes (hlt d (by simp))]

/-! ### Reading a quantum strictly -/

/-- What the loop of `get_next_quantum` keeps to when it reads strictly. -/
structure Scan.Strict (st : Scan) : Prop where
  room : st.qbuf.length + st.padLen ≤ 4
  late : 0 < st.padLen → 2 ≤ st.qbuf.length
  sextets : ∀ q ∈ st.qbuf, q < 64

theorem ne_of_sextet {c d : UInt8} (hc : c < 64) (hd : 64 ≤ d) : c ≠ d := by
  rintro rfl
  exact absurd hc (UInt8.not_lt.mpr hd)

theorem step_sextet (st : Scan) (hch : code ch < 64) : st.step doParseStrict false ch =
      if 0 < st.padLen then none else some { st with qbuf := st.qbuf ++ [code ch] } := by
  have hil := ne_of_sextet hch (show 64 ≤ il by decide)
  have hsp := ne_of_sextet hch (show 64 ≤ sp by decide)
  have hpd := ne_of_sextet hch (show 64 ≤ pd by decide)
  simp [Scan.step, hil, hsp, hpd, doParseStrict, doParseAny]

theorem step_pad (st : Scan) (hlate : 2 ≤ st.qbuf.length) : st.step doParseStrict false kPad =
      if 4 ≤ st.qbuf.length + st.padLen then none
      else
        let padStart := if st.padLen = 0 then st.dpos else st.padStart
        some { st with padLen := st.padLen + 1, padStart := padStart } := by
  have hil : ¬ pd = il := by decide
  have hsp : ¬ pd = sp := by decide
  have hearly : ¬ st.qbuf.length < 2 := Nat.not_lt.mpr hlate
  simp [Scan.step, code_kPad, hil, hsp, hearly, doParseStrict, doParseAny]

variable {st : Scan}

theorem step_pad_early (hearly : st.qbuf.length < 2) : st.step doParseStrict false kPad = none := by
  have hil : ¬ pd = il := by decide
  have hsp : ¬ pd = sp := by decide
  simp [Scan.step, code_kPad, hil, hsp, hearly, doParseStrict, doParseAny]

theorem step_foreign (hch : code ch = sp ∨ code ch = il) :
    st.step doParseStrict false ch = none := by
  have hne : ¬ sp = il := by decide
  rcases hch with hch | hch
  · simp [Scan.step, hch, hne]
  · simp [Scan.step, hch, doParseStrict, doParseAny]

/-- What a strict step goes on after. -/
theorem step_strict {st' : Scan} (h : st.step doParseStrict false ch = some st') :
    (code ch < 64 ∧ symbol (code ch) = ch ∧ st.padLen = 0 ∧
        st' = { st with qbuf := st.qbuf ++ [code ch] }) ∨
      (ch = kPad ∧ 2 ≤ st.qbuf.length ∧ st.qbuf.length + st.padLen < 4 ∧
        ∃ padStart, st' = { st with padLen := st.padLen + 1, padStart := padStart }) := by
  rcases code_cases ch with ⟨hlt, hback⟩ | rfl | hforeign
  · rw [step_sextet st hlt] at h
    split at h
    · cases h
    next hpad =>
      cases h
      exact .inl ⟨hlt, hback, Nat.eq_zero_of_not_pos hpad, rfl⟩
  · rcases Nat.lt_or_ge st.qbuf.length 2 with hearly | hlate
    · rw [step_pad_early hearly] at h
      cases h
    · rw [step_pad st hlate] at h
      split at h
      · cases h
      next hroom =>
        cases h
        exact .inr ⟨rfl, hlate, Nat.lt_of_not_le hroom, _, rfl⟩
  · rw [step_foreign hforeign] at h
    cases h

/-- Read strictly, the input is the text of what has been read and the rest of it. -/
theorem scan_strict (rest : List UInt8) (st : Scan) (hst : st.Strict) :
    let t := scan doParseStrict false rest st
    t.Strict ∧ ∃ tail, text st.qbuf st.padLen ++ rest = text t.qbuf t.padLen ++ tail ∧
      t.dpos + tail.length = st.dpos + rest.length := by
  induction rest generalizing st with
  | nil => exact ⟨hst, [], rfl, rfl⟩
  | cons ch rest ih =>
    simp only [scan]
    split
    next hroom =>
      split
      · exact ⟨hst, ch :: rest, rfl, rfl⟩
      next st' hstep =>
        rcases step_strict hstep with
          ⟨hlt, hback, hpad, rfl⟩ | ⟨rfl, hlate, hspace, padStart, rfl⟩
        · obtain ⟨ht, tail, htext, hpos⟩ :=
            ih ⟨st.qbuf ++ [code ch], st.padLen, st.padStart, st.dpos + 1⟩
              { room := by simp only [length_append, length_singleton]; omega
                late := fun h => by dsimp only at h; omega
                sextets := by simpa [or_imp, forall_and, hlt] using hst.sextets }
          refine ⟨ht, tail, ?_, by simp only [length_cons] at hpos ⊢; omega⟩
          rw [← htext]
          simp [text, hpad, hback]
        · obtain ⟨ht, tail, htext, hpos⟩ :=
            ih ⟨st.qbuf, st.padLen + 1, padStart, st.dpos + 1⟩
              { room := by dsimp only; omega
                late := fun _ => hlate
                sextets := hst.sextets }
          refine ⟨ht, tail, ?_, by simp only [length_cons] at hpos ⊢; omega⟩
          rw [← htext]
          simp [text, replicate_succ']
    next => exact ⟨hst, ch :: rest, rfl, rfl⟩

/-- A quantum that counts as padded is the text of its sextets and pads. -/
theorem text_of_getNextQuantum (h : (getNextQuantum doParseStrict false data dpos).padded = true) :
    ∃ p tail, IsQuantum (getNextQuantum doParseStrict false data dpos).qbuf p ∧
      data.drop dpos = text (getNextQuantum doParseStrict false data dpos).qbuf p ++ tail ∧
      (getNextQuantum doParseStrict false data dpos).dpos = dpos + 4 := by
  obtain ⟨ht, tail, htext, hpos⟩ := scan_strict (data.drop dpos) ⟨[], 0, 0, dpos⟩
    ⟨Nat.zero_le 4, fun h => absurd h (Nat.lt_irrefl 0), nofun⟩
  unfold getNextQuantum at h ⊢
  generalize scan doParseStrict false (data.drop dpos) ⟨[], 0, 0, dpos⟩ = t at h ht htext hpos ⊢
  by_cases hfull : 4 = t.qbuf.length + t.padLen
  · rw [if_pos hfull]
    have htext : data.drop dpos = text t.qbuf t.padLen ++ tail := htext
    have hlen := congrArg List.length htext
    rw [length_append, length_text] at hlen
    refine ⟨t.padLen, tail, ⟨hfull.symm, ?_, ht.sextets⟩, htext, by dsimp only at hpos ⊢; omega⟩
    by_contra hmany
    have := ht.late (by omega)
    omega
  · rw [if_neg hfull] at h
    split at h <;> cases h

theorem scan_sextets (qs rest acc : List UInt8) (padStart dpos : Nat)
    (hlen : acc.length + qs.length ≤ 4) (hqs : ∀ q ∈ qs, q < 64) :
    scan doParseStrict false (qs.map symbol ++ rest) ⟨acc, 0, padStart, dpos⟩ =
      scan doParseStrict false rest ⟨acc ++ qs, 0, padStart, dpos + qs.length⟩ := by
  induction qs generalizing acc dpos with
  | nil => simp
  | cons q qs ih =>
    rw [length_cons] at hlen
    have hq := hqs q (by simp)
    have hcode := code_symbol hq
    have hstep := step_sextet ⟨acc, 0, padStart, dpos⟩ (show code (symbol q) < 64 by rwa [hcode])
    rw [if_neg (Nat.lt_irrefl 0), hcode] at hstep
    have hrest := ih (acc ++ [q]) (dpos + 1)
      (by rw [length_append, length_singleton]; omega)
      (fun q' hq' => hqs q' (mem_cons_of_mem q hq'))
    have hroom : acc.length < 4 := by omega
    rw [map_cons, cons_append, scan, if_pos hroom, hstep]
    dsimp only
    rw [hrest, append_assoc, length_cons]
    congr 2
    omega

theorem scan_pads (p : Nat) (qs rest : List UInt8) (padLen padStart dpos : Nat)
    (hlate : 2 ≤ qs.length) (hroom : qs.length + padLen + p ≤ 4) :
    ∃ padStart', scan doParseStrict false (List.replicate p kPad ++ rest)
        ⟨qs, padLen, padStart, dpos⟩ =
      scan doParseStrict false rest ⟨qs, padLen + p, padStart', dpos + p⟩ := by
  induction p generalizing padLen padStart dpos with
  | zero => exact ⟨padStart, rfl⟩
  | succ p ih =>
    have hstep := step_pad ⟨qs, padLen, padStart, dpos⟩ hlate
    rw [if_neg (show ¬ 4 ≤ qs.length + padLen by omega)] at hstep
    obtain ⟨padStart', hrest⟩ := ih (padLen + 1) (if padLen = 0 then dpos else padStart)
      (dpos + 1) (by omega)
    refine ⟨padStart', ?_⟩
    have hlt : qs.length < 4 := by omega
    rw [replicate_succ, cons_append, scan, if_pos hlt, hstep]
    dsimp only
    rw [hrest]
    congr 2 <;> omega

/-- Nothing is read after four characters. -/
theorem scan_full (rest : List UInt8) (st : Scan) (hfull : st.qbuf.length + st.padLen = 4) :
    scan doParseStrict false rest st = st := by
  cases rest with
  | nil => rfl
  | cons ch rest =>
    rw [scan]
    split
    next hlt =>
      cases hstep : st.step doParseStrict false ch with
      | none => rfl
      | some st' =>
        rcases step_strict hstep with ⟨_, _, hzero, _⟩ | ⟨_, _, hroom, _⟩ <;> omega
    next => rfl

/-- The text of a quantum is read back. -/
theorem getNextQuantum_of_text {tail : List UInt8} (hq : IsQuantum qs p)
    (h : data.drop dpos = text qs p ++ tail) :
    getNextQuantum doParseStrict false data dpos = ⟨qs, dpos + 4, true⟩ := by
  have hfull := hq.full
  have hpads := hq.pads
  have hsextets := scan_sextets qs (List.replicate p kPad ++ tail) [] 0 dpos
    (by rw [length_nil]; omega) hq.sextets
  obtain ⟨padStart, hscan⟩ := scan_pads p qs tail 0 0 (dpos + qs.length) (by omega) (by omega)
  have hend := scan_full tail ⟨qs, 0 + p, padStart, dpos + qs.length + p⟩
    (by dsimp only; omega)
  rw [nil_append] at hsextets
  have hread : scan doParseStrict false (data.drop dpos) ⟨[], 0, 0, dpos⟩ =
      ⟨qs, 0 + p, padStart, dpos + qs.length + p⟩ := by
    rw [h, text, append_assoc, hsextets, hscan, hend]
  unfold getNextQuantum
  rw [hread]
  dsimp only
  rw [if_pos (by omega)]
  congr 1
  omega

/-! ### Decoding strictly -/

theorem padded_of_four (h : ¬ (getNextQuantum doParseStrict false data dpos).qbuf.length < 4) :
    (getNextQuantum doParseStrict false data dpos).padded = true := by
  have hfour := scan_four doParseStrict false (data.drop dpos) (s := ⟨[], 0, 0, dpos⟩)
    (Nat.zero_le 4) (fun _ => rfl)
  unfold getNextQuantum at h ⊢
  generalize scan doParseStrict false (data.drop dpos) ⟨[], 0, 0, dpos⟩ = t at h hfour ⊢
  by_cases hfull : 4 = t.qbuf.length + t.padLen
  · rw [if_pos hfull]
  · have hlen : ¬ t.qbuf.length < 4 := by
      rw [if_neg hfull] at h
      split at h <;> exact h
    omega

theorem decodeLoop_doStrict (data : List UInt8) (dpos : Nat) (result : List UInt8) :
    decodeLoop doStrict data dpos result =
      if dpos < data.length then
        let q := getNextQuantum doParseStrict false data dpos
        if q.qbuf.length < 4 then
          ⟨decide ((unpack q.qbuf).2 = 0) && q.padded, result ++ (unpack q.qbuf).1, q.dpos⟩
        else decodeLoop doStrict data q.dpos (result ++ (unpack q.qbuf).1)
      else ⟨true, result, dpos⟩ := by
  have hparse : doStrict &&& doParseMask = doParseStrict := by decide
  have hpad : doStrict &&& doPadMask = doPadYes := by decide
  have hpads : (doPadNo == doPadYes) = false := by decide
  have hterm : doTermAny ≠ doStrict &&& doTermMask := by decide
  rw [decodeLoop]
  simp only [hparse, hpad, hpads, dite_eq_ite]
  by_cases hdpos : dpos < data.length
  · by_cases hlen : (getNextQuantum doParseStrict false data dpos).qbuf.length < 4
    · simp [hterm]
    · rw [if_neg hlen, if_neg hlen]
  · rw [if_neg hdpos, if_neg hdpos]

/-- A quantum read without complaint is the quantum of its bytes. -/
theorem bytes_of_getNextQuantum {q : Quantum}
    (hq : getNextQuantum doParseStrict false data dpos = q) (hpadded : q.padded = true)
    (hleft : (unpack q.qbuf).2 = 0) :
    ∃ p, (unpack q.qbuf).1.length + p = 3 ∧ p ≤ 2 ∧ q.qbuf.length + p = 4 ∧
      q.dpos = dpos + 4 ∧
      data.drop dpos = text (pack (unpack q.qbuf).1) p ++ data.drop q.dpos := by
  obtain ⟨p, tail, hquantum, htext, hnext⟩ := text_of_getNextQuantum (hq ▸ hpadded)
  rw [hq] at hquantum htext hnext
  obtain ⟨hbytes, hpack⟩ := pack_unpack hquantum hleft
  have htail : data.drop q.dpos = tail := by
    rw [hnext, ← drop_drop, htext]
    exact drop_left' ((length_text _ _).trans hquantum.full)
  exact ⟨p, hbytes, hquantum.pads, hquantum.full, hnext, by rw [hpack, htail, htext]⟩

theorem encoded_of_end {result : List UInt8} (hend : data.length ≤ dpos) :
    ∃ r, (decodeLoop doStrict data dpos result).result = result ++ r ∧
      data.drop dpos = encodeFromArray r := by
  rw [decodeLoop_doStrict, if_neg (Nat.not_lt.mpr hend)]
  exact ⟨[], (append_nil result).symm, drop_eq_nil_of_le hend⟩

/-- What the loop accepts is an encoding of what it adds to the result. -/
theorem encoded_of_decodeLoop (n dpos : Nat) (result : List UInt8) (hn : data.length - dpos ≤ n)
    (hsuccess : (decodeLoop doStrict data dpos result).success = true)
    (hused : (decodeLoop doStrict data dpos result).dataUsed = data.length) :
    ∃ r, (decodeLoop doStrict data dpos result).result = result ++ r ∧
      data.drop dpos = encodeFromArray r := by
  induction n generalizing dpos result with
  | zero => exact encoded_of_end (by omega)
  | succ n ih =>
    by_cases hlt : dpos < data.length
    · rw [decodeLoop_doStrict, if_pos hlt] at hsuccess hused ⊢
      generalize hq : getNextQuantum doParseStrict false data dpos = q at hsuccess hused ⊢
      by_cases hlen : q.qbuf.length < 4
      · rw [if_pos hlen] at hsuccess hused ⊢
        obtain ⟨hleft, hpadded⟩ : (unpack q.qbuf).2 = 0 ∧ q.padded = true := by
          simpa using hsuccess
        obtain ⟨p, hbytes, hp, _, _, htext⟩ := bytes_of_getNextQuantum hq hpadded hleft
        -- the input ends with this quantum
        have hend : data.drop q.dpos = encodeFromArray [] :=
          drop_eq_nil_of_le (Nat.le_of_eq hused.symm)
        refine ⟨(unpack q.qbuf).1, rfl, ?_⟩
        rw [htext, hend, ← encodeFromArray_append hbytes hp (.inr rfl), append_nil]
      · rw [if_neg hlen] at hsuccess hused ⊢
        have hpadded : q.padded = true := hq ▸ padded_of_four (hq ▸ hlen)
        have hleft : (unpack q.qbuf).2 = 0 := by
          simp only [unpack]
          rw [if_pos (by omega), if_pos (by omega), if_pos (by omega)]
        obtain ⟨p, hbytes, hp, hfull, hnext, htext⟩ := bytes_of_getNextQuantum hq hpadded hleft
        obtain ⟨r, hresult, hrest⟩ := ih q.dpos (result ++ (unpack q.qbuf).1) (by omega)
          hsuccess hused
        refine ⟨(unpack q.qbuf).1 ++ r, by rw [hresult, append_assoc], ?_⟩
        rw [htext, hrest, ← encodeFromArray_append hbytes hp (.inl (by omega))]
    · exact encoded_of_end (Nat.le_of_not_lt hlt)

/-- The loop takes the quantum of one to three bytes and goes on after a full one. -/
theorem decodeLoop_of_bytes (bytes rest result : List UInt8)
    (hlen : bytes.length + p = 3) (hp : p ≤ 2) (hlast : p = 0 ∨ rest = [])
    (h : data.drop dpos = encodeFromArray (bytes ++ rest)) :
    decodeLoop doStrict data dpos result =
        (if p = 0 then decodeLoop doStrict data (dpos + 4) (result ++ bytes)
          else ⟨true, result ++ bytes, dpos + 4⟩) ∧
      data.length - dpos = (encodeFromArray rest).length + 4 ∧
      data.drop (dpos + 4) = encodeFromArray rest := by
  have hquantum := isQuantum_pack hlen hp
  rw [encodeFromArray_append hlen hp hlast] at h
  have hlength := congrArg List.length h
  rw [length_drop, length_append, length_text, hquantum.full] at hlength
  refine ⟨?_, by omega, ?_⟩
  · have hfull := hquantum.full
    rw [decodeLoop_doStrict, if_pos (by omega), getNextQuantum_of_text hquantum h]
    dsimp only
    rw [unpack_pack hlen hp]
    by_cases hzero : p = 0
    · rw [if_pos hzero, if_neg (by omega)]
    · rw [if_neg hzero, if_pos (by omega)]
      rfl
  · rw [← drop_drop, h]
    exact drop_left' ((length_text _ _).trans hquantum.full)

theorem decodeLoop_of_last (bytes result : List UInt8)
    (hlen : bytes.length + p = 3) (hp : p ≤ 2) (hpos : 0 < p)
    (h : data.drop dpos = encodeFromArray bytes) :
    decodeLoop doStrict data dpos result = ⟨true, result ++ bytes, data.length⟩ := by
  obtain ⟨hloop, hrest, _⟩ := decodeLoop_of_bytes bytes [] result hlen hp (.inr rfl)
    (by rwa [append_nil])
  have hend : dpos + 4 = data.length := by
    rw [encodeFromArray, length_nil] at hrest
    omega
  rw [hloop, if_neg (Nat.ne_of_gt hpos), hend]

/-- The loop accepts an encoding and adds what was encoded. -/
theorem decodeLoop_of_encoded (r : List UInt8) (dpos : Nat)
    (result : List UInt8) (hdpos : dpos ≤ data.length) (h : data.drop dpos = encodeFromArray r) :
    decodeLoop doStrict data dpos result = ⟨true, result ++ r, data.length⟩ := by
  fun_induction encodeFromArray r generalizing dpos result with
  | case1 =>
    have hend : data.length ≤ dpos := drop_eq_nil_iff.mp h
    rw [decodeLoop_doStrict, if_neg (Nat.not_lt.mpr hend), append_nil, Nat.le_antisymm hdpos hend]
  | case2 x => exact decodeLoop_of_last [x] (p := 2) result rfl (by decide) (by decide) h
  | case3 x y => exact decodeLoop_of_last [x, y] (p := 1) result rfl (by decide) (by decide) h
  | case4 x y z rest ih =>
    obtain ⟨hloop, hrest, htail⟩ := decodeLoop_of_bytes [x, y, z] rest result
      rfl (by decide) (.inl rfl) h
    rw [hloop, ih (dpos + 4) (result ++ [x, y, z]) (by omega) htail, append_assoc]
    rfl

/-- **Strict decoding.** A string is decoded to `r` exactly if it is the encoding of `r`, and all of
it is used then. There is one string for each `r`, because pads and bits that are left over have to
be those the encoder writes. -/
theorem strict_decode_iff (s r : List UInt8) :
    ((decodeFromArray s doStrict).success = true ∧ (decodeFromArray s doStrict).result = r ↔
        s = encodeFromArray r) ∧
      ((decodeFromArray s doStrict).success = true →
        (decodeFromArray s doStrict).dataUsed = s.length) := by
  have hterm : doTermBuffer = doStrict &&& doTermMask := by decide
  have hsuccess : (decodeFromArray s doStrict).success = true ↔
      (decodeLoop doStrict s 0 []).success = true ∧
        (decodeLoop doStrict s 0 []).dataUsed = s.length := by
    simp [decodeFromArray, ← hterm]
  refine ⟨⟨?_, ?_⟩, fun h => (hsuccess.mp h).2⟩
  · rintro ⟨hok, rfl⟩
    obtain ⟨hloop, hused⟩ := hsuccess.mp hok
    obtain ⟨r, hresult, hencoded⟩ := encoded_of_decodeLoop s.length 0 [] (sub_le ..) hloop hused
    have hr : (decodeFromArray s doStrict).result = r := hresult
    rw [hr]
    exact hencoded
  · intro hs
    have hloop := decodeLoop_of_encoded r 0 [] (Nat.zero_le s.length) hs
    refine ⟨hsuccess.mpr ?_, ?_⟩
    · rw [hloop]
      exact ⟨rfl, rfl⟩
    · show (decodeLoop doStrict s 0 []).result = r
      rw [hloop]
      rfl

end CxxKit.Base64
