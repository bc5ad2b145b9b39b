import Mathlib.Data.List.Basic

/-!
`Base64` (`text/base64.hpp`, `text/base64.cpp`).

Strings are lists of bytes.  `get_next_quantum` reads characters of the input until it
has four sextets or meets one that it may not skip; `qbuf` is modelled by the sextets
read, the rest of the array being zero.  `decode_from_array` collects the bytes of one
quantum after the other.  The overloads for strings and vectors are one function.
-/

namespace CxxKit.Base64

/-! ### Tables -/

/-- `kPad`, the character `=`. -/
def kPad : UInt8 := 0x3d

/-- Padding. -/
def pd : UInt8 := 0xFD

/-- Whitespace. -/
def sp : UInt8 := 0xFE

/-- Illegal character. -/
def il : UInt8 := 0xFF

def base64Table : List UInt8 :=
  List.map Char.toUInt8 ['A', 'B', 'C', 'D', 'E', 'F', 'G', 'H', 'I', 'J', 'K', 'L', 'M',
    'N', 'O', 'P', 'Q', 'R', 'S', 'T', 'U', 'V', 'W', 'X', 'Y', 'Z',
    'a', 'b', 'c', 'd', 'e', 'f', 'g', 'h', 'i', 'j', 'k', 'l', 'm',
    'n', 'o', 'p', 'q', 'r', 's', 't', 'u', 'v', 'w', 'x', 'y', 'z',
    '0', '1', '2', '3', '4', '5', '6', '7', '8', '9', '+', '/']

def decodeTable : List UInt8 := [il, il, il, il, il, il, il, il, il, sp,
    sp, sp, sp, sp, il, il, il, il, il, il,
    il, il, il, il, il, il, il, il, il, il,
    il, il, sp, il, il, il, il, il, il, il,
    il, il, il, 62, il, il, il, 63, 52, 53,
    54, 55, 56, 57, 58, 59, 60, 61, il, il,
    il, pd, il, il, il, 0, 1, 2, 3, 4,
    5, 6, 7, 8, 9, 10, 11, 12, 13, 14,
    15, 16, 17, 18, 19, 20, 21, 22, 23, 24,
    25, il, il, il, il, il, il, 26, 27, 28,
    29, 30, 31, 32, 33, 34, 35, 36, 37, 38,
    39, 40, 41, 42, 43, 44, 45, 46, 47, 48,
    49, 50, 51, il, il, il, il, il, il, il,
    il, il, il, il, il, il, il, il, il, il,
    il, il, il, il, il, il, il, il, il, il,
    il, il, il, il, il, il, il, il, il, il,
    il, il, il, il, il, il, il, il, il, il,
    il, il, il, il, il, il, il, il, il, il,
    il, il, il, il, il, il, il, il, il, il,
    il, il, il, il, il, il, il, il, il, il,
    il, il, il, il, il, il, il, il, il, il,
    il, il, il, il, il, il, il, il, il, il,
    il, il, il, il, il, il, il, il, il, il,
    il, il, il, il, il, il, il, il, il, il,
    il, il, il, il, il, il, il, il, il, il,
    il, il, il, il, il, il]

/-- `Base64Table[c]`. -/
def symbol (c : UInt8) : UInt8 :=
  base64Table.getD c.toNat 0

/-- `DecodeTable[ch]`. -/
def code (ch : UInt8) : UInt8 :=
  decodeTable.getD ch.toNat 0

/-! ### `encode_from_array` -/

/-- The index of the second character, from what is left of one byte and the next. -/
def secondSextet (x y : UInt8) : UInt8 :=
  let c : UInt8 := (x <<< 4) &&& 0x3f
  let d : UInt8 := (y >>> 4) &&& 0x0f
  c ||| d

/-- The index of the third character. -/
def thirdSextet (y z : UInt8) : UInt8 :=
  let c : UInt8 := (y <<< 2) &&& 0x3f
  let d : UInt8 := (z >>> 6) &&& 0x03
  c ||| d

/-- One pass of the loop writes four characters for up to three bytes. -/
def encodeFromArray : List UInt8 → List UInt8
  | [] => []
  | [x] => [symbol ((x >>> 2) &&& 0x3f), symbol ((x <<< 4) &&& 0x3f), kPad, kPad]
  | [x, y] =>
    [symbol ((x >>> 2) &&& 0x3f), symbol (secondSextet x y), symbol ((y <<< 2) &&& 0x3f), kPad]
  | x :: y :: z :: rest =>
    symbol ((x >>> 2) &&& 0x3f) :: symbol (secondSextet x y) :: symbol (thirdSextet y z) ::
      symbol (z &&& 0x3f) :: encodeFromArray rest

/-! ### `DecodeFlags` -/

abbrev DecodeFlags := Nat

def doParseStrict : DecodeFlags := 1
def doParseWhite : DecodeFlags := 2
def doParseAny : DecodeFlags := 3
def doParseMask : DecodeFlags := 3
def doPadYes : DecodeFlags := 4
def doPadAny : DecodeFlags := 8
def doPadNo : DecodeFlags := 12
def doPadMask : DecodeFlags := 12
def doTermBuffer : DecodeFlags := 16
def doTermChar : DecodeFlags := 32
def doTermAny : DecodeFlags := 48
def doTermMask : DecodeFlags := 48

def doStrict : DecodeFlags := doParseStrict ||| doPadYes ||| doTermBuffer

/-! ### `get_next_quantum` -/

/-- The variables of the loop; `byte_len` is the length of `qbuf`. -/
structure Scan where
  qbuf : List UInt8
  padLen : Nat
  padStart : Nat
  dpos : Nat

/-- The body of the loop, `none` where it breaks. -/
def Scan.step (parseFlags : DecodeFlags) (illegalPads : Bool) (ch : UInt8) (st : Scan) :
    Option Scan :=
  -- a character that only `DO_PARSE_ANY` passes over
  let skip (st : Scan) : Option Scan := if parseFlags ≠ doParseAny then none else some st
  if code ch = il ∨ (illegalPads = true ∧ code ch = pd) then skip st
  else if code ch = sp then
    if parseFlags = doParseStrict then none else some st
  else if code ch = pd then
    if st.qbuf.length < 2 then skip st
    else if 4 ≤ st.qbuf.length + st.padLen then skip st
    else
      let padStart := if st.padLen = 0 then st.dpos else st.padStart
      some { st with padLen := st.padLen + 1, padStart := padStart }
  else if 0 < st.padLen then
    skip { st with qbuf := st.qbuf ++ [code ch], padLen := 0 }
  else some { st with qbuf := st.qbuf ++ [code ch] }

/-- The loop, over what is left of the input. -/
def scan (parseFlags : DecodeFlags) (illegalPads : Bool) : List UInt8 → Scan → Scan
  | [], st => st
  | ch :: rest, st =>
    if st.qbuf.length < 4 then
      match st.step parseFlags illegalPads ch with
      | none => st
      | some st' => scan parseFlags illegalPads rest { st' with dpos := st'.dpos + 1 }
    else st

/-- What `get_next_quantum` leaves behind; its result `byte_len` is the length of `qbuf`. -/
structure Quantum where
  qbuf : List UInt8
  dpos : Nat
  padded : Bool

def getNextQuantum (parseFlags : DecodeFlags) (illegalPads : Bool) (data : List UInt8)
    (dpos : Nat) : Quantum :=
  let st := scan parseFlags illegalPads (data.drop dpos) ⟨[], 0, 0, dpos⟩
  if 4 = st.qbuf.length + st.padLen then ⟨st.qbuf, st.dpos, true⟩
  -- illegal padding is given back
  else if st.padLen ≠ 0 then ⟨st.qbuf, st.padStart, false⟩
  else ⟨st.qbuf, st.dpos, false⟩

variable {parseFlags : DecodeFlags} {illegalPads : Bool}

/-- A step takes over one sextet or none, and a sextet ends a run of pads. -/
theorem Scan.step_qbuf {ch : UInt8} {st st' : Scan}
    (h : st.step parseFlags illegalPads ch = some st') : st'.dpos = st.dpos ∧
      (st'.qbuf = st.qbuf ∨ st'.qbuf = st.qbuf ++ [code ch] ∧ st'.padLen = 0) := by
  have hskip {x y : Scan} (h : (if parseFlags ≠ doParseAny then none else some x) = some y) :
      y = x := by
    split at h
    · cases h
    · cases h
      rfl
  simp only [step] at h
  split at h
  · rw [hskip h]
    exact ⟨rfl, .inl rfl⟩
  split at h
  · split at h
    · cases h
    · cases h
      exact ⟨rfl, .inl rfl⟩
  split at h
  · split at h
    · rw [hskip h]
      exact ⟨rfl, .inl rfl⟩
    split at h
    · rw [hskip h]
      exact ⟨rfl, .inl rfl⟩
    · cases h
      exact ⟨rfl, .inl rfl⟩
  split at h
  · rw [hskip h]
    exact ⟨rfl, .inr ⟨rfl, rfl⟩⟩
  next hpad =>
    cases h
    exact ⟨rfl, .inr ⟨rfl, Nat.eq_zero_of_not_pos hpad⟩⟩

/-- Four sextets take four characters, and there is no padding with them. -/
theorem scan_four (parseFlags : DecodeFlags) (illegalPads : Bool) (rest : List UInt8) {s : Scan}
    (hlen : s.qbuf.length ≤ 4) (hpad : s.qbuf.length = 4 → s.padLen = 0) :
    let t := scan parseFlags illegalPads rest s
    t.qbuf.length ≤ 4 ∧ (t.qbuf.length = 4 → t.padLen = 0) ∧
      s.dpos + t.qbuf.length ≤ t.dpos + s.qbuf.length := by
  induction rest generalizing s with
  | nil => exact ⟨hlen, hpad, Nat.le_refl _⟩
  | cons ch rest ih =>
    simp only [scan]
    split
    next hroom =>
      split
      · exact ⟨hlen, hpad, Nat.le_refl _⟩
      next st' hstep =>
        obtain ⟨hpos, hsame | ⟨hmore, hzero⟩⟩ := Scan.step_qbuf hstep
        · have hkept : st'.qbuf.length = s.qbuf.length := congrArg List.length hsame
          have hlt : st'.qbuf.length < 4 := by rwa [hkept]
          have hrest := ih (s := { st' with dpos := st'.dpos + 1 }) (Nat.le_of_lt hlt)
            (fun hfour => absurd hfour (Nat.ne_of_lt hlt))
          dsimp only at hrest
          exact ⟨hrest.1, hrest.2.1, by omega⟩
        · have hgrown : st'.qbuf.length = s.qbuf.length + 1 := by
            rw [hmore, List.length_append, List.length_singleton]
          have hrest := ih (s := { st' with dpos := st'.dpos + 1 })
            (by dsimp only; omega) (fun _ => hzero)
          dsimp only at hrest
          exact ⟨hrest.1, hrest.2.1, by omega⟩
    next => exact ⟨hlen, hpad, Nat.le_refl _⟩

theorem lt_dpos_getNextQuantum {data : List UInt8} {dpos : Nat}
    (h : ¬ (getNextQuantum parseFlags illegalPads data dpos).qbuf.length < 4) :
    dpos < (getNextQuantum parseFlags illegalPads data dpos).dpos := by
  have hfour := scan_four parseFlags illegalPads (data.drop dpos) (s := ⟨[], 0, 0, dpos⟩)
    (Nat.zero_le 4) (fun _ => rfl)
  dsimp only [List.length_nil] at hfour
  unfold getNextQuantum at h ⊢
  dsimp only at h ⊢
  split at h
  next hpadded =>
    rw [if_pos hpadded]
    dsimp only at h ⊢
    omega
  next hpadded =>
    -- without padding there are four sextets, which the first case is about
    generalize scan parseFlags illegalPads (data.drop dpos) ⟨[], 0, 0, dpos⟩ = t at hfour h hpadded
    have hlen : ¬ t.qbuf.length < 4 := by
      split at h <;> exact h
    omega

/-! ### `decode_from_array` -/

def firstByte (p q : UInt8) : UInt8 :=
  let hi : UInt8 := p <<< 2
  let lo : UInt8 := (q >>> 4) &&& 0x3
  hi ||| lo

def secondByte (q r : UInt8) : UInt8 :=
  let hi : UInt8 := (q <<< 4) &&& 0xf0
  let lo : UInt8 := (r >>> 2) &&& 0xf
  hi ||| lo

def thirdByte (r s : UInt8) : UInt8 :=
  let hi : UInt8 := (r <<< 6) &&& 0xc0
  hi ||| s

/-- The bytes of a quantum, and the bits that are left over. -/
def unpack (qbuf : List UInt8) : List UInt8 × UInt8 :=
  let q (i : Nat) : UInt8 := qbuf.getD i 0
  let c₀ := firstByte (q 0) (q 1)
  if 2 ≤ qbuf.length then
    let c₁ := secondByte (q 1) (q 2)
    if 3 ≤ qbuf.length then
      let c₂ := thirdByte (q 2) (q 3)
      if 4 ≤ qbuf.length then ([c₀, c₁, c₂], 0) else ([c₀, c₁], c₂)
    else ([c₀], c₁)
  else ([], c₀)

/-- What a call answers and leaves in `result` and `data_used`. -/
structure Decoded where
  success : Bool
  result : List UInt8
  dataUsed : Nat
  deriving DecidableEq

/-- The loop. -/
def decodeLoop (flags : DecodeFlags) (data : List UInt8) (dpos : Nat) (result : List UInt8) :
    Decoded :=
  let padFlags := flags &&& doPadMask
  if _hdpos : dpos < data.length then
    let q := getNextQuantum (flags &&& doParseMask) (doPadNo == padFlags) data dpos
    let bytes := (unpack q.qbuf).1
    let c := (unpack q.qbuf).2
    if _hlen : q.qbuf.length < 4 then
      let unusedBits := doTermAny ≠ flags &&& doTermMask ∧ c ≠ 0
      let expectedPadding := doPadYes = padFlags ∧ q.padded = false
      ⟨¬ unusedBits ∧ ¬ expectedPadding, result ++ bytes, q.dpos⟩
    else decodeLoop flags data q.dpos (result ++ bytes)
  else ⟨true, result, dpos⟩
termination_by data.length - dpos
decreasing_by
  exact Nat.sub_lt_sub_left _hdpos (lt_dpos_getNextQuantum _hlen)

def decodeFromArray (data : List UInt8) (flags : DecodeFlags) : Decoded :=
  let d := decodeLoop flags data 0 []
  let unusedChars := doTermBuffer = flags &&& doTermMask ∧ d.dataUsed ≠ data.length
  { d with success := d.success && ¬ unusedChars }

end CxxKit.Base64
