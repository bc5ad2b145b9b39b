import CxxKit.Text.Base64Strict

/-!
Decoding an encoding into which whitespace has been inserted.

With `DO_PARSE_WHITE` the loop of `get_next_quantum` passes over whitespace wherever it
stands in front of the fourth sextet of a quantum, and all of it behind padding
(`scan_spaces`).  Whitespace behind a full quantum is left to the next call, which then
finds a quantum without sextets and without padding: `DO_PAD_YES` rejects it if nothing
else follows (`decodeLoop_spaces`).
-/

namespace CxxKit.Base64

open List

/-- The characters `isspace` accepts. -/
def isWhitespace (ch : UInt8) : Bool :=
  ch = 0x20 || (0x09 ≤ ch && ch ≤ 0x0d)

/-- The string without its whitespace. -/
def stripped (s : List UInt8) : List UInt8 :=
  s.filter fun ch => !isWhitespace ch

/-- The last character is whitespace. -/
def EndsInWhitespace (s : List UInt8) : Prop :=
  ∃ ch, s.getLast? = some ch ∧ isWhitespace ch = true

theorem code_eq_sp_iff (ch : UInt8) : isWhitespace ch = true ↔ code ch = sp :=
  ofNat_toNat_lt (P := fun ch => isWhitespace ch = true ↔ code ch = sp)
    (by decide +kernel) ch ch.toNat_lt

theorem isWhitespace_symbol {q : UInt8} (hq : q < 64) : isWhitespace (symbol q) = false := by
  rw [Bool.eq_false_iff, ne_eq, code_eq_sp_iff, code_symbol hq]
  exact ne_of_sextet hq (by decide)

theorem stripped_eq_cons {s tail : List UInt8} {ch : UInt8} (h : stripped s = ch :: tail) :
    ∃ spaces rest, s = spaces ++ ch :: rest ∧ (∀ c ∈ spaces, isWhitespace c = true) ∧
      stripped rest = tail := by
  obtain ⟨spaces, rest, hs, hspaces, -, hrest⟩ := filter_eq_cons_iff.mp h
  exact ⟨spaces, rest, hs, fun c hc => by simpa using hspaces c hc, hrest⟩

theorem stripped_eq_nil {s : List UInt8} (h : stripped s = []) :
    ∀ c ∈ s, isWhitespace c = true := by
  intro c hc
  have hc := filter_eq_nil_iff.mp h c hc
  simpa using hc

theorem endsInWhitespace_append {s t : List UInt8} (hs : ¬ EndsInWhitespace s) :
    EndsInWhitespace (s ++ t) ↔ EndsInWhitespace t := by
  unfold EndsInWhitespace at *
  rw [getLast?_append]
  cases ht : t.getLast? with
  | none => simpa using hs
  | some c => simp

theorem endsInWhitespace_iff {s : List UInt8} (h : stripped s = []) :
    EndsInWhitespace s ↔ s ≠ [] := by
  constructor
  · rintro ⟨ch, hlast, -⟩ rfl
    cases hlast
  · intro hne
    exact ⟨s.getLast hne, getLast?_eq_some_getLast hne, stripped_eq_nil h _ (getLast_mem hne)⟩

/-! ### Reading a quantum over whitespace -/

theorem step_space (st : Scan) {ch : UInt8} (hch : isWhitespace ch = true) :
    st.step doParseWhite false ch = some st := by
  have hcode := (code_eq_sp_iff ch).mp hch
  have hil : ¬ sp = il := by decide
  simp [Scan.step, hcode, hil, doParseWhite, doParseStrict]

theorem scan_spaces {spaces : List UInt8} (hspaces : ∀ c ∈ spaces, isWhitespace c = true)
    (rest : List UInt8) (st : Scan) (hroom : st.qbuf.length < 4) :
    scan doParseWhite false (spaces ++ rest) st =
      scan doParseWhite false rest { st with dpos := st.dpos + spaces.length } := by
  induction spaces generalizing st with
  | nil => rfl
  | cons c spaces ih =>
    have hc := step_space st (hspaces c mem_cons_self)
    have hrest := ih (fun c hc => hspaces c (mem_cons_of_mem _ hc))
      { st with dpos := st.dpos + 1 } hroom
    rw [cons_append, scan, if_pos hroom, hc]
    dsimp only at hrest ⊢
    rw [hrest, length_cons, Nat.add_assoc, Nat.add_comm 1]

theorem step_white_sextet (st : Scan) {q : UInt8} (hq : q < 64) (hpad : st.padLen = 0) :
    st.step doParseWhite false (symbol q) = some { st with qbuf := st.qbuf ++ [q] } := by
  have hil := ne_of_sextet hq (show 64 ≤ il by decide)
  have hsp := ne_of_sextet hq (show 64 ≤ sp by decide)
  have hpd := ne_of_sextet hq (show 64 ≤ pd by decide)
  simp [Scan.step, code_symbol hq, hil, hsp, hpd, hpad]

/-- Sextets are read over the whitespace in front of them. -/
theorem scan_white_sextets (qs rest tail : List UInt8) (st : Scan)
    (hrest : stripped rest = qs.map symbol ++ tail) (hqs : ∀ q ∈ qs, q < 64)
    (hpad : st.padLen = 0) (hlen : st.qbuf.length + qs.length ≤ 4) :
    ∃ read rest', rest = read ++ rest' ∧ stripped rest' = tail ∧ ¬ EndsInWhitespace read ∧
      scan doParseWhite false rest st =
        scan doParseWhite false rest'
          { st with qbuf := st.qbuf ++ qs, dpos := st.dpos + read.length } := by
  induction qs generalizing rest st with
  | nil =>
    refine ⟨[], rest, rfl, hrest, by simp [EndsInWhitespace], ?_⟩
    rw [append_nil]
    rfl
  | cons q qs ih =>
    rw [length_cons] at hlen
    have hq := hqs q mem_cons_self
    obtain ⟨spaces, after, rfl, hspaces, hafter⟩ := stripped_eq_cons hrest
    have hroom : st.qbuf.length < 4 := by omega
    have hgrown : (st.qbuf ++ [q]).length + qs.length ≤ 4 := by
      rw [length_append, length_singleton]
      omega
    obtain ⟨read, rest', rfl, htail, hends, hscan⟩ :=
      ih after ⟨st.qbuf ++ [q], 0, st.padStart, st.dpos + spaces.length + 1⟩ hafter
        (fun q' hq' => hqs q' (mem_cons_of_mem _ hq')) rfl hgrown
    refine ⟨spaces ++ symbol q :: read, rest', by simp, htail, ?_, ?_⟩
    · have hlast : ¬ EndsInWhitespace (spaces ++ [symbol q]) := by
        simp [EndsInWhitespace, isWhitespace_symbol hq]
      have happend := mt (endsInWhitespace_append hlast).mp hends
      simpa using happend
    · have hstep := step_white_sextet { st with dpos := st.dpos + spaces.length } hq hpad
      rw [scan_spaces hspaces _ _ hroom, scan, if_pos hroom, hstep]
      dsimp only at hscan ⊢
      rw [hpad, hscan]
      congr 2
      · simp
      · simp only [length_append, length_cons]
        omega

theorem step_white_pad (st : Scan) (hlate : 2 ≤ st.qbuf.length)
    (hroom : st.qbuf.length + st.padLen < 4) :
    ∃ padStart, st.step doParseWhite false kPad =
      some { st with padLen := st.padLen + 1, padStart := padStart } := by
  have hil : ¬ pd = il := by decide
  have hsp : ¬ pd = sp := by decide
  have hearly : ¬ st.qbuf.length < 2 := Nat.not_lt.mpr hlate
  have hfull : ¬ 4 ≤ st.qbuf.length + st.padLen := Nat.not_le.mpr hroom
  exact ⟨if st.padLen = 0 then st.dpos else st.padStart,
    by simp [Scan.step, code_kPad, hil, hsp, hearly, hfull]⟩

/-- Pads are read over all whitespace around them. -/
theorem scan_white_pads (p : Nat) (rest : List UInt8) (st : Scan)
    (hrest : stripped rest = List.replicate p kPad) (hlate : 2 ≤ st.qbuf.length)
    (hlt : st.qbuf.length < 4) (hroom : st.qbuf.length + st.padLen + p ≤ 4) :
    ∃ padStart, scan doParseWhite false rest st =
      ⟨st.qbuf, st.padLen + p, padStart, st.dpos + rest.length⟩ := by
  induction p generalizing rest st with
  | zero =>
    have hscan := scan_spaces (stripped_eq_nil hrest) [] st hlt
    rw [append_nil] at hscan
    exact ⟨st.padStart, hscan⟩
  | succ p ih =>
    obtain ⟨spaces, after, rfl, hspaces, hafter⟩ := stripped_eq_cons hrest
    obtain ⟨padStart, hstep⟩ := step_white_pad { st with dpos := st.dpos + spaces.length } hlate
      (by dsimp only; omega)
    obtain ⟨padStart', hscan⟩ :=
      ih after ⟨st.qbuf, st.padLen + 1, padStart, st.dpos + spaces.length + 1⟩ hafter hlate hlt
        (by dsimp only; omega)
    refine ⟨padStart', ?_⟩
    rw [scan_spaces hspaces _ _ hlt, scan, if_pos hlt, hstep]
    dsimp only at hscan ⊢
    rw [hscan]
    congr 1
    · omega
    · simp only [length_append, length_cons]
      omega

section Quanta

variable {data rest qs : List UInt8} {dpos p : Nat}

/-- A full quantum is read up to its last character. -/
theorem getNextQuantum_white_full {tail : List UInt8} (hq : IsQuantum qs 0)
    (hdrop : data.drop dpos = rest) (hrest : stripped rest = text qs 0 ++ tail) :
    ∃ read rest', rest = read ++ rest' ∧ stripped rest' = tail ∧ ¬ EndsInWhitespace read ∧
      getNextQuantum doParseWhite false data dpos = ⟨qs, dpos + read.length, true⟩ := by
  have hfull : qs.length = 4 := hq.full
  rw [text, replicate_zero, append_nil] at hrest
  obtain ⟨read, rest', hsplit, htail, hends, hscan⟩ :=
    scan_white_sextets qs rest tail ⟨[], 0, 0, dpos⟩ hrest hq.sextets rfl
      (by rw [hfull, length_nil])
  have hend : scan doParseWhite false rest' ⟨qs, 0, 0, dpos + read.length⟩ =
      ⟨qs, 0, 0, dpos + read.length⟩ := by
    cases rest' with
    | nil => rfl
    | cons ch rest' => rw [scan, if_neg (by dsimp only; omega)]
  refine ⟨read, rest', hsplit, htail, hends, ?_⟩
  rw [nil_append] at hscan
  unfold getNextQuantum
  rw [hdrop, hscan, hend]
  dsimp only
  rw [if_pos (by omega)]

/-- A padded quantum is read with all whitespace behind it. -/
theorem getNextQuantum_white_padded (hq : IsQuantum qs p) (hp : 0 < p)
    (hdrop : data.drop dpos = rest) (hrest : stripped rest = text qs p) :
    getNextQuantum doParseWhite false data dpos = ⟨qs, dpos + rest.length, true⟩ := by
  have hfull := hq.full
  have hpads := hq.pads
  obtain ⟨read, rest', hsplit, htail, -, hscan⟩ :=
    scan_white_sextets qs rest _ ⟨[], 0, 0, dpos⟩ hrest hq.sextets rfl
      (by rw [length_nil]; omega)
  obtain ⟨padStart, hend⟩ := scan_white_pads p rest' ⟨qs, 0, 0, dpos + read.length⟩ htail
    (by dsimp only; omega) (by dsimp only; omega) (by dsimp only; omega)
  rw [nil_append] at hscan
  unfold getNextQuantum
  rw [hdrop, hscan, hend]
  dsimp only
  rw [if_pos (by omega), hsplit, length_append, Nat.add_assoc]

theorem getNextQuantum_white_nil (hdrop : data.drop dpos = rest) (hrest : stripped rest = []) :
    getNextQuantum doParseWhite false data dpos = ⟨[], dpos + rest.length, false⟩ := by
  have hscan := scan_spaces (stripped_eq_nil hrest) [] ⟨[], 0, 0, dpos⟩ (Nat.zero_lt_succ 3)
  rw [append_nil] at hscan
  unfold getNextQuantum
  rw [hdrop, hscan]
  rfl

end Quanta

/-! ### Decoding -/

/-- `DO_PARSE_WHITE` and `DO_TERM_BUFFER` with one of the pad flags. -/
def whiteFlags (padFlags : DecodeFlags) : DecodeFlags :=
  doParseWhite ||| padFlags ||| doTermBuffer

theorem decodeLoop_whiteFlags {padFlags : DecodeFlags}
    (hpad : padFlags = doPadYes ∨ padFlags = doPadAny) (data : List UInt8) (dpos : Nat)
    (result : List UInt8) :
    decodeLoop (whiteFlags padFlags) data dpos result =
      if dpos < data.length then
        let q := getNextQuantum doParseWhite false data dpos
        if q.qbuf.length < 4 then
          ⟨decide ((unpack q.qbuf).2 = 0) && (decide (padFlags = doPadAny) || q.padded),
            result ++ (unpack q.qbuf).1, q.dpos⟩
        else decodeLoop (whiteFlags padFlags) data q.dpos (result ++ (unpack q.qbuf).1)
      else ⟨true, result, dpos⟩ := by
  have hparse : whiteFlags padFlags &&& doParseMask = doParseWhite := by
    rcases hpad with rfl | rfl <;> decide
  have hmask : whiteFlags padFlags &&& doPadMask = padFlags := by
    rcases hpad with rfl | rfl <;> decide
  have hno : (doPadNo == padFlags) = false := by
    rcases hpad with rfl | rfl <;> decide
  have hyes : doPadYes = padFlags ↔ ¬ padFlags = doPadAny := by
    rcases hpad with rfl | rfl <;> decide
  have hterm : doTermAny ≠ whiteFlags padFlags &&& doTermMask := by
    rcases hpad with rfl | rfl <;> decide
  rw [decodeLoop]
  simp only [hparse, hmask, hno, dite_eq_ite]
  by_cases hdpos : dpos < data.length
  · rw [if_pos hdpos, if_pos hdpos]
    by_cases hlen : (getNextQuantum doParseWhite false data dpos).qbuf.length < 4
    · rw [if_pos hlen, if_pos hlen]
      generalize getNextQuantum doParseWhite false data dpos = q
      rw [Decoded.mk.injEq]
      refine ⟨?_, rfl, rfl⟩
      simp [hterm, hyes]
    · rw [if_neg hlen, if_neg hlen]
  · rw [if_neg hdpos, if_neg hdpos]

section Loop

variable {padFlags : DecodeFlags} {data : List UInt8} {dpos : Nat}

section

variable (hpad : padFlags = doPadYes ∨ padFlags = doPadAny)

include hpad

/-- Nothing but whitespace is left: a quantum without sextets. -/
theorem decodeLoop_spaces
    (result : List UInt8) (hdpos : dpos ≤ data.length) (h : stripped (data.drop dpos) = []) :
    decodeLoop (whiteFlags padFlags) data dpos result =
      ⟨decide (padFlags = doPadAny ∨ dpos = data.length), result, data.length⟩ := by
  rw [decodeLoop_whiteFlags hpad]
  by_cases hlt : dpos < data.length
  · have hleft : (unpack []).2 = 0 := by decide
    have hbytes : (unpack []).1 = [] := rfl
    have hend : dpos + (data.drop dpos).length = data.length := by
      rw [length_drop]
      omega
    rw [if_pos hlt, getNextQuantum_white_nil rfl h]
    dsimp only
    rw [hleft, hbytes, hend]
    simp [Nat.ne_of_lt hlt]
  · have hend : dpos = data.length := by omega
    simp [hend]

theorem decodeLoop_white_last {p : Nat}
    (bytes result : List UInt8) (hlen : bytes.length + p = 3) (hp : p ≤ 2) (hpos : 0 < p)
    (h : stripped (data.drop dpos) = encodeFromArray bytes) :
    decodeLoop (whiteFlags padFlags) data dpos result = ⟨true, result ++ bytes, data.length⟩ := by
  have hquantum := isQuantum_pack hlen hp
  have hfull := hquantum.full
  have hencode : encodeFromArray (bytes ++ []) = text (pack bytes) p ++ encodeFromArray [] :=
    encodeFromArray_append hlen hp (.inr rfl)
  rw [append_nil, encodeFromArray, append_nil] at hencode
  rw [hencode] at h
  have hlt : dpos < data.length := by
    by_contra hend
    rw [drop_eq_nil_of_le (Nat.le_of_not_lt hend)] at h
    have hzero := congrArg List.length h
    rw [length_text, hfull] at hzero
    cases hzero
  have hend : dpos + (data.drop dpos).length = data.length := by
    rw [length_drop]
    omega
  rw [decodeLoop_whiteFlags hpad, if_pos hlt, getNextQuantum_white_padded hquantum hpos rfl h]
  dsimp only
  rw [if_pos (by omega), unpack_pack hlen hp, hend]
  simp

/-- A full quantum is read up to its last symbol. -/
theorem decodeLoop_white_full (x y z : UInt8)
    (b result : List UInt8) (h : stripped (data.drop dpos) = encodeFromArray (x :: y :: z :: b)) :
    ∃ next ≤ data.length, stripped (data.drop next) = encodeFromArray b ∧
      (EndsInWhitespace (data.drop dpos) ↔ EndsInWhitespace (data.drop next)) ∧
      decodeLoop (whiteFlags padFlags) data dpos result =
        decodeLoop (whiteFlags padFlags) data next (result ++ [x, y, z]) := by
  have hquantum : IsQuantum (pack [x, y, z]) 0 := isQuantum_pack rfl (by decide)
  have hbytes : unpack (pack [x, y, z]) = ([x, y, z], 0) := unpack_pack (p := 0) rfl (by decide)
  have hnext : stripped (data.drop dpos) = text (pack [x, y, z]) 0 ++ encodeFromArray b := h
  obtain ⟨read, rest', hsplit, hrest, hends, hquant⟩ :=
    getNextQuantum_white_full hquantum rfl hnext
  have hlength := congrArg List.length hsplit
  rw [length_drop, length_append] at hlength
  have hlt : dpos < data.length := by
    by_contra hend
    rw [drop_eq_nil_of_le (Nat.le_of_not_lt hend)] at h
    cases h
  have hdrop : data.drop (dpos + read.length) = rest' := by
    rw [← drop_drop, hsplit, drop_left]
  refine ⟨dpos + read.length, by omega, by rw [hdrop, hrest], ?_, ?_⟩
  · rw [hdrop, hsplit, endsInWhitespace_append hends]
  · rw [decodeLoop_whiteFlags hpad, if_pos hlt, hquant]
    rw [if_neg (by rw [show (pack [x, y, z]).length = 4 from rfl]; decide), hbytes]

/-- The loop returns what was encoded, and complains only about whitespace behind the last
full quantum. -/
theorem decodeLoop_white (b : List UInt8)
    (dpos : Nat) (result : List UInt8) (hdpos : dpos ≤ data.length)
    (h : stripped (data.drop dpos) = encodeFromArray b) :
    (decodeLoop (whiteFlags padFlags) data dpos result).result = result ++ b ∧
      (decodeLoop (whiteFlags padFlags) data dpos result).dataUsed = data.length ∧
      ((decodeLoop (whiteFlags padFlags) data dpos result).success = true ↔
        padFlags = doPadAny ∨ ¬ (3 ∣ b.length ∧ EndsInWhitespace (data.drop dpos))) := by
  fun_induction encodeFromArray b generalizing dpos result with
  | case1 =>
    have hends : EndsInWhitespace (data.drop dpos) ↔ ¬ dpos = data.length := by
      rw [endsInWhitespace_iff h, ne_eq, drop_eq_nil_iff]
      omega
    rw [decodeLoop_spaces hpad result hdpos h]
    simp [hends]
  | case2 x =>
    rw [decodeLoop_white_last hpad [x] (p := 2) result rfl (by decide) (by decide) h]
    simp
  | case3 x y =>
    rw [decodeLoop_white_last hpad [x, y] (p := 1) result rfl (by decide) (by decide) h]
    simp
  | case4 x y z b ih =>
    obtain ⟨next, hle, hnext, hends, hloop⟩ := decodeLoop_white_full hpad x y z b result h
    obtain ⟨hresult, hused, hsuccess⟩ := ih next (result ++ [x, y, z]) hle hnext
    have hthree : 3 ∣ (x :: y :: z :: b).length ↔ 3 ∣ b.length := by
      simp only [length_cons]
      omega
    rw [hloop, hresult, hused, hsuccess, hends, hthree, append_assoc]
    exact ⟨rfl, rfl, Iff.rfl⟩

end

end Loop

/-- **Decoding over whitespace.** A string that is the encoding of `b` but for whitespace decodes
to `b`, exactly if padding is optional, `b` does not fill its last quantum, or the string does
not end in whitespace. -/
theorem white_decode_iff (b s : List UInt8) (hs : stripped s = encodeFromArray b)
    (padFlags : DecodeFlags) (hpad : padFlags = doPadYes ∨ padFlags = doPadAny) :
    ((decodeFromArray s (whiteFlags padFlags)).success = true ∧
        (decodeFromArray s (whiteFlags padFlags)).result = b) ↔
      (padFlags = doPadAny ∨ ¬ (3 ∣ b.length ∧ EndsInWhitespace s)) := by
  obtain ⟨hresult, hused, hsuccess⟩ := decodeLoop_white hpad b 0 [] (Nat.zero_le s.length) hs
  rw [drop_zero] at hsuccess
  rw [← hsuccess]
  simp [decodeFromArray, hresult, hused]

/-- Whitespace in front of and inside of the padding. -/
theorem white_decode_padded :
    (decodeFromArray [0x51, 0x20, 0x51, 0x3d, 0x0a, 0x3d, 0x20] (whiteFlags doPadYes)).success =
        true ∧
      (decodeFromArray [0x51, 0x20, 0x51, 0x3d, 0x0a, 0x3d, 0x20] (whiteFlags doPadYes)).result =
        [0x41] :=
  (white_decode_iff [0x41] [0x51, 0x20, 0x51, 0x3d, 0x0a, 0x3d, 0x20] (by decide) doPadYes
    (.inl rfl)).mpr (.inr fun h => absurd h.1 (by decide))

/-- A line end after a full quantum is rejected if padding is required. -/
theorem white_decode_line_end :
    stripped [0x51, 0x55, 0x4a, 0x44, 0x0a] = encodeFromArray [0x41, 0x42, 0x43] ∧
      (decodeFromArray [0x51, 0x55, 0x4a, 0x44, 0x0a] (whiteFlags doPadYes)).success = false := by
  have hloop : decodeLoop (whiteFlags doPadYes) [0x51, 0x55, 0x4a, 0x44, 0x0a] 0 [] =
      ⟨false, [0x41, 0x42, 0x43], 5⟩ := by
    rw [decodeLoop_whiteFlags (.inl rfl), if_pos (by decide)]
    dsimp only
    rw [decodeLoop_spaces (.inl rfl) _ (by decide) (by decide)]
    rfl
  refine ⟨by decide, ?_⟩
  rw [decodeFromArray, hloop]
  rfl

end CxxKit.Base64
