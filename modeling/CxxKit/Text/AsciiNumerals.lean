import CxxKit.Text.Ascii
import Mathlib.Data.Nat.Digits.Defs
import Mathlib.Tactic.Ring

/-!
Numerals at the front of a string, and the parser of `text/ascii.cpp` against them.

`readNumeral` says which numeral a string begins with: white space, a sign, the prefix `0x` of
base 16 and the prefix `0` of base 8, and the longest run of digits of the base.  The digit loop
computes the value of the run with a test for overflow before each step (`Accum.Follows`), and
`parseLongLong_eq` says that the parser finds that numeral, with its value cut off at the largest
`uint64_t`.
-/

namespace CxxKit.Ascii

open List Nat Option

/-! ### Numerals -/

section

variable (base : Nat)

/-- The digit of `base` that a character stands for. -/
def digitOf (c : UInt8) : Option Nat := (digitValue c).filter (· < base)

/-- The longest run of digits of `base` at the front of a string. -/
def digitRun (s : Cursor) : List Nat :=
  (s.takeWhile fun c => (digitOf base c).isSome).filterMap (digitOf base)

/-- What follows that run. -/
def afterRun (s : Cursor) : Cursor := s.dropWhile fun c => (digitOf base c).isSome

/-- A numeral at the front of a string, and what follows it. -/
structure Numeral where
  negative : Bool
  base : Nat
  digits : List Nat
  rest : Cursor
  deriving DecidableEq, Repr

/-- The number that the digits stand for, without the sign. -/
def Numeral.magnitude (n : Numeral) : Nat := ofDigits n.base n.digits.reverse

/-- A magnitude with its sign. -/
def signed (negative : Bool) (m : Nat) : Int := if negative then -(m : Int) else m

def Numeral.value (n : Numeral) : Int := signed n.negative n.magnitude

/-- The prefix `0x`, where the base allows it. -/
def HexPrefixed (s : Cursor) : Prop :=
  (base = 0 ∨ base = 16) ∧ char s 0 = '0'.toUInt8 ∧ toUpper (char s 1) = 'X'.toUInt8

instance (base : Nat) (s : Cursor) : Decidable (HexPrefixed base s) :=
  inferInstanceAs (Decidable (_ ∧ _))

/-- The base of a numeral without that prefix. -/
def effectiveBase (s : Cursor) : Nat :=
  if base ≠ 0 then base else if char s 0 = '0'.toUInt8 then 8 else 10

/-- The numeral behind the sign. -/
def readUnsigned (s : Cursor) (negative : Bool) : Option Numeral :=
  if HexPrefixed base s then
    -- `0x` without a digit behind it is the numeral `0`
    if digitRun 16 (s.drop 2) = [] then some ⟨negative, 16, [0], s.drop 1⟩
    else some ⟨negative, 16, digitRun 16 (s.drop 2), afterRun 16 (s.drop 2)⟩
  else if digitRun (effectiveBase base s) s = [] then none
  else some ⟨negative, effectiveBase base s, digitRun (effectiveBase base s) s,
    afterRun (effectiveBase base s) s⟩

/-- The numeral at the front of a string, in the sense of `strtol`. -/
def readNumeral (str : Cursor) : Option Numeral :=
  match str.dropWhile isSpace with
  | [] => none
  | c :: s =>
    if c = '-'.toUInt8 then readUnsigned base s true
    else if c = '+'.toUInt8 then readUnsigned base s false
    else readUnsigned base (c :: s) false

/-! ### The digit loop -/

end

/-- The value of one more digit. -/
theorem ofDigits_push (base d : Nat) (ds : List Nat) :
    ofDigits base (ds ++ [d]).reverse = ofDigits base ds.reverse * base + d := by
  rw [reverse_append, reverse_singleton, singleton_append, ofDigits_cons]
  ring

variable {base v d : Nat} {c : UInt8} {before s : Cursor} {acc : Accum}

/-- The test of the loop: `v * base + d` exceeds the limit exactly when `v` is beyond the quotient,
or at it with the digit beyond the remainder. -/
theorem cutoff_iff {limit : Nat} (hd : d < base) :
    (limit / base < v ∨ (v = limit / base ∧ limit % base < d)) ↔ limit < v * base + d := by
  have hdiv := div_add_mod limit base
  have hmod := mod_lt limit (zero_lt_of_lt hd)
  rw [Nat.mul_comm] at hdiv
  constructor
  · rintro (hlt | ⟨rfl, hrem⟩)
    · have hmul : (limit / base + 1) * base ≤ v * base := Nat.mul_le_mul_right base hlt
      rw [Nat.add_mul] at hmul
      omega
    · omega
  · intro hlimit
    rcases Nat.lt_trichotomy v (limit / base) with hlt | rfl | hgt
    · have hmul : (v + 1) * base ≤ limit / base * base := Nat.mul_le_mul_right base hlt
      rw [Nat.add_mul] at hmul
      omega
    · exact .inr ⟨rfl, by omega⟩
    · exact .inl hgt

/-- The body of the loop by the number it would reach: the flag is set when that does not fit, and
the multiplication and the addition do not wrap when it does. -/
theorem Accum.push_eq (acc : Accum) (hd : d < base) :
    acc.push base d = if kUInt64Max < acc.ui64 * base + d then { acc with overflow := true }
      else { acc with ui64 := acc.ui64 * base + d } := by
  simp only [Accum.push, cutoff_iff hd]
  split
  · rfl
  case isFalse hfits =>
    have hmax : kUInt64Max = 2 ^ 64 - 1 := rfl
    have hmul : acc.ui64 * base % 2 ^ 64 = acc.ui64 * base := mod_eq_of_lt (by omega)
    rw [hmul, mod_eq_of_lt (by omega)]

/-- The loop variables after digits of value `v`: the value itself, or the overflow flag once it
does not fit. -/
def Accum.Follows (acc : Accum) (v : Nat) : Prop :=
  if acc.overflow then kUInt64Max < v else acc.ui64 = v ∧ v ≤ kUInt64Max

theorem Accum.Follows.push (h : acc.Follows v) (hd : d < base) :
    (acc.push base d).Follows (v * base + d) := by
  rw [Accum.push_eq acc hd]
  unfold Accum.Follows at h
  split at h
  case isTrue hover =>
    -- once set, the flag stays, and the value only grows
    have hgrow : v ≤ v * base + d :=
      (Nat.le_mul_of_pos_right v (zero_lt_of_lt hd)).trans (Nat.le_add_right _ _)
    split
    · exact h.trans_le hgrow
    · rw [Accum.Follows, if_pos hover]
      exact h.trans_le hgrow
  case isFalse hover =>
    obtain ⟨rfl, -⟩ := h
    split
    case isTrue hlimit => exact hlimit
    case isFalse hlimit =>
      rw [Accum.Follows, if_neg hover]
      exact ⟨rfl, Nat.le_of_not_lt hlimit⟩

theorem digitOf_zero (base : Nat) : digitOf base 0 = none := by
  rfl

/-- One round of the loop, by the digit that the character is. -/
theorem readDigits_cons (base : Nat) (c : UInt8) (s : Cursor) (acc : Accum) :
    readDigits base (c :: s) acc =
      match digitOf base c with
      | none => (c :: s, acc)
      | some d => readDigits base s (acc.push base d) := by
  rw [readDigits]
  rcases eq_or_ne c 0 with rfl | hc
  · rw [if_pos rfl, digitOf_zero]
  · rw [if_neg hc, digitOf]
    cases hd : digitValue c with
    | none => rfl
    | some d =>
      by_cases hle : base ≤ d
      · rw [filter_some_neg (by simpa using hle)]
        exact if_pos hle
      · rw [filter_some_pos (by simpa using hle)]
        exact if_neg hle

theorem digitRun_cons_none (h : digitOf base c = none) (s : Cursor) :
    digitRun base (c :: s) = [] ∧ afterRun base (c :: s) = c :: s := by
  simp [digitRun, afterRun, h]

theorem digitRun_cons_some (h : digitOf base c = some d) (s : Cursor) :
    digitRun base (c :: s) = d :: digitRun base s ∧ afterRun base (c :: s) = afterRun base s := by
  simp [digitRun, afterRun, h]

theorem digitOf_lt (h : digitOf base c = some d) : d < base := by
  obtain ⟨-, hlt⟩ := filter_eq_some_iff.mp h
  exact of_decide_eq_true hlt

/-- **The digit loop** stops behind the run, and its variables follow the value of the run. -/
theorem readDigits_spec (base : Nat) : ∀ (s : Cursor) (ds : List Nat) (acc : Accum),
    acc.Follows (ofDigits base ds.reverse) →
    (readDigits base s acc).1 = afterRun base s ∧
      (readDigits base s acc).2.Follows (ofDigits base (ds ++ digitRun base s).reverse)
  | [], ds, acc, h => by
    refine ⟨rfl, ?_⟩
    rw [show digitRun base [] = [] from rfl, append_nil]
    exact h
  | c :: s, ds, acc, h => by
    rw [readDigits_cons]
    cases hd : digitOf base c with
    | none =>
      obtain ⟨hrun, hafter⟩ := digitRun_cons_none hd s
      rw [hrun, hafter, append_nil]
      exact ⟨rfl, h⟩
    | some d =>
      obtain ⟨hrun, hafter⟩ := digitRun_cons_some hd s
      have hpush := h.push (digitOf_lt hd)
      rw [← ofDigits_push] at hpush
      obtain ⟨hstop, hfollows⟩ := readDigits_spec base s (ds ++ [d]) _ hpush
      rw [hrun, hafter]
      rw [append_assoc] at hfollows
      exact ⟨hstop, hfollows⟩

/-- The loop stops where it began exactly when there is no digit. -/
theorem length_afterRun (base : Nat) : ∀ s : Cursor,
    (afterRun base s).length + (digitRun base s).length = s.length
  | [] => rfl
  | c :: s => by
    cases hd : digitOf base c with
    | none =>
      obtain ⟨hrun, hafter⟩ := digitRun_cons_none hd s
      rw [hrun, hafter]
      rfl
    | some d =>
      obtain ⟨hrun, hafter⟩ := digitRun_cons_some hd s
      have ih := length_afterRun base s
      rw [hrun, hafter, length_cons, length_cons]
      omega

/-- What the loop leaves to return. -/
theorem Accum.Follows.result (h : acc.Follows v) :
    (if acc.overflow then kUInt64Max else acc.ui64) = min v kUInt64Max := by
  unfold Accum.Follows at h
  split at h
  case isTrue hover => rw [if_pos hover, Nat.min_eq_right (Nat.le_of_lt h)]
  case isFalse hover =>
    obtain ⟨rfl, hle⟩ := h
    rw [if_neg hover, Nat.min_eq_left hle]

/-! ### The parser -/

theorem skipSpace_eq : ∀ s : Cursor, skipSpace s = s.dropWhile isSpace
  | [] => rfl
  | c :: s => by
    rw [skipSpace, dropWhile_cons, skipSpace_eq s]

/-- The parse of a numeral: its value cut off at the largest `uint64_t`, and what follows it. -/
def Numeral.parsed (n : Numeral) : Parsed :=
  ⟨min n.magnitude kUInt64Max, n.rest, n.negative, none⟩

/-- White space and signs, which stand before a numeral, are not the `x` of a prefix. -/
def Plain (before : Cursor) : Prop := ∀ c ∈ before, toUpper c ≠ 'X'.toUInt8

theorem noconv_of_plain {save : Cursor} (h : Plain before) (negative : Bool) :
    noconv (before ++ save) save negative = ⟨0, before ++ save, negative, none⟩ := by
  have hoffset : (before ++ save).length - save.length = before.length := by
    rw [length_append]
    omega
  rw [noconv, hoffset]
  refine if_neg ?_
  rintro ⟨htwo, hx, -⟩
  have hlt : before.length - 1 < before.length := by omega
  refine h _ (getElem_mem hlt) ?_
  rw [← hx, char, getD_eq_getElem?_getD, getElem?_append_left hlt,
    getElem?_eq_getElem hlt, getD_some]

theorem noconv_of_hex (before save : Cursor) {x : UInt8} (hx : toUpper x = 'X'.toUInt8)
    (negative : Bool) :
    noconv (before ++ '0'.toUInt8 :: x :: save) save negative = ⟨0, x :: save, negative, none⟩ := by
  have hoffset : (before ++ '0'.toUInt8 :: x :: save).length - save.length = before.length + 2 := by
    rw [length_append, length_cons, length_cons]
    omega
  have hlast : char (before ++ '0'.toUInt8 :: x :: save) (before.length + 1) = x := by
    simp [char]
  have hfirst : char (before ++ '0'.toUInt8 :: x :: save) before.length = '0'.toUInt8 := by
    simp [char]
  rw [noconv, hoffset]
  refine (if_pos ⟨Nat.le_add_left 2 _, (congrArg toUpper hlast).trans hx, hfirst⟩).trans ?_
  simp

theorem readPrefix_of_hex (h : HexPrefixed base s) : readPrefix base s = (16, s.drop 2) := by
  rw [readPrefix, if_pos h.2.1, if_pos ⟨h.1, h.2.2⟩]

theorem readPrefix_of_not_hex (h : ¬ HexPrefixed base s) :
    readPrefix base s = (effectiveBase base s, s) := by
  unfold readPrefix effectiveBase
  by_cases hzero : char s 0 = '0'.toUInt8
  · rw [if_pos hzero, if_neg fun hx => h ⟨hx.1, hzero, hx.2⟩]
    by_cases hbase : base = 0
    · rw [if_pos hbase, if_neg (not_not.mpr hbase), if_pos hzero]
    · rw [if_neg hbase, if_pos hbase]
  · rw [if_neg hzero]
    by_cases hbase : base = 0
    · rw [if_pos hbase, if_neg (not_not.mpr hbase), if_neg hzero]
    · rw [if_neg hbase, if_pos hbase]

/-- A string that begins with the prefix. -/
theorem HexPrefixed.split (h : HexPrefixed base s) :
    ∃ x rest, s = '0'.toUInt8 :: x :: rest ∧ toUpper x = 'X'.toUInt8 := by
  obtain ⟨-, hzero, hx⟩ := h
  match s with
  | [] => exact absurd hzero (by decide)
  | [c] => exact absurd (show toUpper 0 = 'X'.toUInt8 from hx) (by decide)
  | c :: x :: rest => exact ⟨x, rest, by rw [show c = '0'.toUInt8 from hzero], hx⟩

/-- The digit loop over a run: what is parsed is the run's value, unless there is no digit. -/
theorem parseUnsigned_run {nptr save : Cursor} {base' : Nat} (negative : Bool)
    (hread : readPrefix base s = (base', save)) :
    parseUnsigned nptr base negative s =
      if digitRun base' save = [] then noconv nptr save negative
      else (Numeral.mk negative base' (digitRun base' save) (afterRun base' save)).parsed := by
  have hstart : (Accum.mk 0 false).Follows (ofDigits base' ([] : List Nat).reverse) :=
    ⟨rfl, Nat.zero_le _⟩
  obtain ⟨hstop, hfollows⟩ := readDigits_spec base' save [] _ hstart
  have hresult := hfollows.result
  have hlength := length_afterRun base' save
  rw [parseUnsigned, hread]
  simp only [hstop]
  by_cases hrun : digitRun base' save = []
  · rw [hrun, length_nil, Nat.add_zero] at hlength
    rw [if_pos hrun, if_pos hlength]
  · have hpos := length_pos_iff.mpr hrun
    rw [if_neg hrun, if_neg (by omega), Numeral.parsed, Numeral.magnitude]
    rw [nil_append] at hresult
    rw [← hresult]
    cases (readDigits base' save {}).2.overflow <;> rfl

/-- The parser behind the sign finds the numeral there. -/
theorem parseUnsigned_eq (hplain : Plain before) (base : Nat) (negative : Bool) :
    parseUnsigned (before ++ s) base negative s =
      match readUnsigned base s negative with
      | none => ⟨0, before ++ s, negative, none⟩
      | some n => n.parsed := by
  unfold readUnsigned
  by_cases hhex : HexPrefixed base s
  · rw [if_pos hhex, parseUnsigned_run negative (readPrefix_of_hex hhex)]
    by_cases hrun : digitRun 16 (s.drop 2) = []
    · obtain ⟨x, rest, rfl, hx⟩ := hhex.split
      rw [if_pos hrun, if_pos hrun]
      exact noconv_of_hex before rest hx negative
    · rw [if_neg hrun, if_neg hrun]
  · rw [parseUnsigned_run negative (readPrefix_of_not_hex hhex)]
    split
    · exact noconv_of_plain hplain negative
    · rfl

theorem plain_takeWhile_isSpace : ∀ s : Cursor, Plain (s.takeWhile isSpace)
  | [] => fun _ h => absurd h not_mem_nil
  | c :: s => by
    rw [takeWhile_cons]
    split
    case isTrue hspace =>
      simp only [isSpace, decide_eq_true_eq] at hspace
      refine forall_mem_cons.mpr ⟨?_, plain_takeWhile_isSpace s⟩
      rcases hspace with rfl | rfl | rfl | rfl | rfl | rfl <;> decide
    case isFalse => exact fun _ h => absurd h not_mem_nil

/-- The sign joins what stands before the digits. -/
theorem readSign_split (h : Plain before) :
    ∃ before', before ++ s = before' ++ (readSign s).2 ∧ Plain before' := by
  have hstep : ∀ c rest, toUpper c ≠ 'X'.toUInt8 →
      ∃ before', before ++ c :: rest = before' ++ rest ∧ Plain before' := by
    intro c rest hc
    exact ⟨before ++ [c], by rw [append_assoc, singleton_append],
      forall_mem_append.mpr ⟨h, forall_mem_singleton.mpr hc⟩⟩
  unfold readSign
  match s with
  | [] => exact ⟨before, rfl, h⟩
  | c :: rest =>
    split
    case isTrue hminus => exact hstep c rest (by rw [show c = '-'.toUInt8 from hminus]; decide)
    case isFalse =>
      split
      case isTrue hplus => exact hstep c rest (by rw [show c = '+'.toUInt8 from hplus]; decide)
      case isFalse => exact ⟨before, rfl, h⟩

theorem readUnsigned_of_nul (h : char s 0 = 0) (negative : Bool) :
    readUnsigned base s negative = none := by
  have hrun : ∀ b, digitRun b s = [] := by
    intro b
    cases s with
    | nil => rfl
    | cons c s =>
      cases show c = 0 from h
      exact (digitRun_cons_none (digitOf_zero b) s).1
  rw [readUnsigned, if_neg (fun hhex => absurd (h.symm.trans hhex.2.1) (by decide)), hrun,
    if_pos rfl]

theorem readNumeral_eq (base : Nat) (str : Cursor) :
    readNumeral base str = readUnsigned base (readSign (str.dropWhile isSpace)).2
      (readSign (str.dropWhile isSpace)).1 := by
  unfold readNumeral readSign
  cases str.dropWhile isSpace with
  | nil => exact (readUnsigned_of_nul rfl false).symm
  | cons c s =>
    rw [show char (c :: s) 0 = c from rfl]
    by_cases hminus : c = '-'.toUInt8
    · rw [if_pos hminus]
      exact (if_pos hminus).trans rfl
    · rw [if_neg hminus]
      refine (if_neg hminus).trans ?_
      by_cases hplus : c = '+'.toUInt8
      · rw [if_pos hplus, if_pos hplus]
        rfl
      · rw [if_neg hplus, if_neg hplus]

/-- **The parser** finds the numeral that the string begins with, and stores the start of the string
when there is none. -/
theorem parseLongLong_eq (nptr : Cursor) (hone : base ≠ 1) (hle : base ≤ 36) :
    match readNumeral base nptr with
    | none => ∃ negative, parseLongLong nptr base = ⟨0, nptr, negative, none⟩
    | some n => parseLongLong nptr base = n.parsed := by
  rw [readNumeral_eq, parseLongLong, if_neg (by omega), skipSpace_eq]
  obtain ⟨before, hsplit, hplain⟩ := readSign_split (plain_takeWhile_isSpace nptr)
  rw [takeWhile_append_dropWhile] at hsplit
  by_cases hnul : char (nptr.dropWhile isSpace) 0 = 0
  · have hsign : readSign (nptr.dropWhile isSpace) = (false, nptr.dropWhile isSpace) := by
      rw [readSign, if_neg (by rw [hnul]; decide), if_neg (by rw [hnul]; decide)]
    rw [hsign, readUnsigned_of_nul hnul]
    refine ⟨false, (if_pos hnul).trans ?_⟩
    exact @noconv_of_plain [] nptr (fun _ h => absurd h not_mem_nil) false
  · have hparse := parseUnsigned_eq (s := (readSign (nptr.dropWhile isSpace)).2) hplain base
      (readSign (nptr.dropWhile isSpace)).1
    rw [← hsplit] at hparse
    simp only [if_neg hnul, hparse]
    cases readUnsigned base (readSign (nptr.dropWhile isSpace)).2
        (readSign (nptr.dropWhile isSpace)).1 with
    | none => exact ⟨_, rfl⟩
    | some n => rfl

end CxxKit.Ascii
