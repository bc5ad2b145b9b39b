import CxxKit.Text.AsciiNumerals

/-!
The conversions of `text/ascii.cpp` against the numeral that a string begins with.

`ascii_strtoll` returns the value of the numeral, clamped to `int64_t`, and is undefined for one
value only, which it negates after converting it (`strtoll_iff`).  `ascii_strtoull` is right for
every numeral of 64 bits and for no other (`strtoull_iff`).  `ascii_string_to_signed` and
`ascii_string_to_unsigned` test the outcome of the conversion before it has been made, and refuse
every string (`string_to_number_iff`).
-/

namespace CxxKit.Ascii

open Char

/-- The bases of the conversions. -/
def ValidBase (base : Nat) : Prop := base = 0 ∨ (2 ≤ base ∧ base ≤ 36)

instance (base : Nat) : Decidable (ValidBase base) := inferInstanceAs (Decidable (_ ∨ _))

variable {base m : Nat} {v : Int} {str endptr nptr : Cursor} {n : Numeral} {α : Type}

theorem ValidBase.ne_one (h : ValidBase base) : base ≠ 1 := by
  unfold ValidBase at h
  omega

theorem ValidBase.le (h : ValidBase base) : base ≤ 36 := by
  unfold ValidBase at h
  omega

theorem parseLongLong_of_none (hbase : ValidBase base) (h : readNumeral base nptr = none) :
    ∃ negative, parseLongLong nptr base = ⟨0, nptr, negative, none⟩ := by
  have hparse := parseLongLong_eq nptr hbase.ne_one hbase.le
  rwa [h] at hparse

theorem parseLongLong_of_some (hbase : ValidBase base) (h : readNumeral base nptr = some n) :
    parseLongLong nptr base = n.parsed := by
  have hparse := parseLongLong_eq nptr hbase.ne_one hbase.le
  rwa [h] at hparse

/-! ### `ascii_strtoll` -/

/-- The nearest `int64_t`. -/
def clampInt64 (v : Int) : Int := max kInt64Min (min v kInt64Max)

/-- The range error, when clamping changes the value. -/
def clampError (v : Int) : Option Errno := if clampInt64 v = v then none else some .ERANGE

theorem clampInt64_of_fits (hmin : kInt64Min ≤ v) (hmax : v ≤ kInt64Max) : clampInt64 v = v := by
  rw [clampInt64, min_eq_left hmax, max_eq_right hmin]

theorem clampInt64_of_lt (h : v < kInt64Min) : clampInt64 v = kInt64Min := by
  have hle : kInt64Min ≤ kInt64Max := by decide
  rw [clampInt64, min_eq_left (h.le.trans hle), max_eq_left h.le]

theorem clampInt64_of_gt (h : kInt64Max < v) : clampInt64 v = kInt64Max := by
  have hle : kInt64Min ≤ kInt64Max := by decide
  rw [clampInt64, min_eq_right h.le, max_eq_right hle]

/-- The end of `ascii_strtoll`: the sign is applied and the value clamped, unless the value is to
be negated and is `2 ^ 63`. -/
theorem asciiStrtoll_of_parsed {negative : Bool}
    (hparse : parseLongLong str base = ⟨m, endptr, negative, none⟩)
    (hleast : ¬ (negative = true ∧ m = 2 ^ 63)) : asciiStrtoll str base =
      some ⟨clampInt64 (signed negative m), endptr, clampError (signed negative m)⟩ := by
  have hmin : kInt64Min = -2 ^ 63 := rfl
  have hmax : kInt64Max = 2 ^ 63 - 1 := rfl
  simp only [asciiStrtoll, hparse, clampError]
  cases negative with
  | true =>
    rw [show signed true m = -(m : Int) from rfl]
    rcases Nat.lt_trichotomy m (2 ^ 63) with hlt | heq | hgt
    · have hneg : negInt64 (toInt64 m) = some (-(m : Int)) := by
        rw [toInt64, if_pos hlt, negInt64, if_neg (by omega)]
      rw [clampInt64_of_fits (by omega) (by omega), if_neg (by omega), if_neg (by simp),
        if_pos rfl, hneg, if_pos rfl, Option.map_some]
    · exact absurd ⟨rfl, heq⟩ hleast
    · rw [if_pos ⟨rfl, hgt⟩, clampInt64_of_lt (by omega), if_neg (by omega)]
  | false =>
    rw [show signed false m = (m : Int) from rfl, if_neg (by simp)]
    rcases Nat.lt_or_ge m (2 ^ 63) with hlt | hge
    · rw [clampInt64_of_fits (by omega) (by omega), if_neg (by omega), if_neg (by simp), toInt64,
        if_pos hlt, if_pos rfl]
    · rw [if_pos ⟨by simp, by omega⟩, clampInt64_of_gt (by omega), if_neg (by omega)]

/-- The value that the source converts to the least `int64_t` and then negates. -/
theorem asciiStrtoll_of_least (hparse : parseLongLong str base = ⟨2 ^ 63, endptr, true, none⟩) :
    asciiStrtoll str base = none := by
  rw [asciiStrtoll, hparse]
  rfl

/-- What `ascii_strtoll` is for: the value of the numeral that the string begins with, clamped, the
range error when that changes it, and the place behind the numeral; or zero and the string
itself. -/
def convertSigned (base : Nat) (str : Cursor) : Converted Int :=
  match readNumeral base str with
  | none => ⟨0, str, none⟩
  | some n => ⟨clampInt64 n.value, n.rest, clampError n.value⟩

/-- The numeral that the string begins with is a minus sign and `2 ^ 63`. -/
def ReadsLeast (base : Nat) (str : Cursor) : Prop :=
  ∃ n, readNumeral base str = some n ∧ n.negative = true ∧ n.magnitude = 2 ^ 63

/-- The parser cuts the magnitude off above both bounds of `int64_t`, so that clamping does not see
it. -/
theorem clamp_cut (negative : Bool) (m : Nat) :
    clampInt64 (signed negative (min m kUInt64Max)) = clampInt64 (signed negative m) ∧
      clampError (signed negative (min m kUInt64Max)) = clampError (signed negative m) := by
  have hlimit : kUInt64Max = 2 ^ 64 - 1 := rfl
  have hmin : kInt64Min = -2 ^ 63 := rfl
  have hmax : kInt64Max = 2 ^ 63 - 1 := rfl
  rcases Nat.le_total m kUInt64Max with hle | hge
  · rw [Nat.min_eq_left hle]
    exact ⟨rfl, rfl⟩
  · unfold clampError
    cases negative with
    | true =>
      simp only [signed, if_true]
      rw [clampInt64_of_lt (by omega), clampInt64_of_lt (by omega), if_neg (by omega),
        if_neg (by omega)]
      exact ⟨rfl, rfl⟩
    | false =>
      simp only [signed, if_false, Bool.false_eq_true]
      rw [clampInt64_of_gt (by omega), clampInt64_of_gt (by omega), if_neg (by omega),
        if_neg (by omega)]
      exact ⟨rfl, rfl⟩

theorem asciiStrtoll_eq (hbase : ValidBase base) (hleast : ¬ ReadsLeast base str) :
    asciiStrtoll str base = some (convertSigned base str) := by
  unfold convertSigned
  cases hread : readNumeral base str with
  | none =>
    obtain ⟨negative, hparse⟩ := parseLongLong_of_none hbase hread
    rw [asciiStrtoll_of_parsed hparse (fun h => absurd h.2 (by decide))]
    cases negative <;> rfl
  | some n =>
    have hlimit : kUInt64Max = 2 ^ 64 - 1 := rfl
    have hparse : parseLongLong str base = ⟨min n.magnitude kUInt64Max, n.rest, n.negative, none⟩ :=
      parseLongLong_of_some hbase hread
    obtain ⟨hvalue, herror⟩ := clamp_cut n.negative n.magnitude
    rw [asciiStrtoll_of_parsed hparse, hvalue, herror]
    · rfl
    · rintro ⟨hneg, hmag⟩
      exact hleast ⟨n, hread, hneg, by omega⟩

theorem asciiStrtoll_undefined (hbase : ValidBase base)
    (hleast : ReadsLeast base str) : asciiStrtoll str base = none := by
  obtain ⟨n, hread, hneg, hmag⟩ := hleast
  have hparse := parseLongLong_of_some hbase hread
  rw [Numeral.parsed, hneg, hmag] at hparse
  exact asciiStrtoll_of_least hparse

/-- **`ascii_strtoll`** converts the numeral of every string, in every base, but for a minus sign
and `2 ^ 63`: there the source negates the least `int64_t`. -/
theorem strtoll_iff (str : CString) {base : Nat} (hbase : ValidBase base) :
    asciiStrtoll str.bytes base = some (convertSigned base str.bytes) ↔
      ¬ ReadsLeast base str.bytes := by
  constructor
  · intro h hleast
    rw [asciiStrtoll_undefined hbase hleast] at h
    cases h
  · exact asciiStrtoll_eq hbase

/-- `"  -0x7f;"` in base 0. -/
theorem strtoll_iff_hex :
    asciiStrtoll ("  -0x7f;".toList.map toUInt8) 0 = some ⟨-127, [';'.toUInt8], none⟩ := by
  have hconvert := (strtoll_iff ⟨"  -0x7f;".toList.map toUInt8, by decide +kernel⟩
    (show ValidBase 0 by decide)).mpr ?_
  · decide +kernel
  · rintro ⟨n, hn, -, hmag⟩
    cases hn
    exact absurd hmag (by decide +kernel)

/-- `"-9223372036854775808"` is in range, and its conversion is undefined. -/
theorem strtoll_least : asciiStrtoll ("-9223372036854775808".toList.map toUInt8) 10 = none ∧
      convertSigned 10 ("-9223372036854775808".toList.map toUInt8) = ⟨-2 ^ 63, [], none⟩ := by
  decide +kernel

/-! ### `ascii_strtoull` -/

/-- What `ascii_strtoull` is for: the value of the numeral, negated modulo `2 ^ 64` behind a minus
sign, when its magnitude fits in 64 bits, and the largest value and the range error otherwise. -/
def convertUnsigned (base : Nat) (str : Cursor) : Converted Nat :=
  match readNumeral base str with
  | none => ⟨0, str, none⟩
  | some n =>
    if n.magnitude < 2 ^ 64 then ⟨(n.value % 2 ^ 64).toNat, n.rest, none⟩
    else ⟨kUInt64Max, n.rest, some .ERANGE⟩

/-- The negation of `uint64_t`. -/
theorem negate_uint64 (h : m < 2 ^ 64) (negative : Bool) :
    (if negative = true then (2 ^ 64 - m) % 2 ^ 64 else m) =
      (signed negative m % 2 ^ 64).toNat := by
  cases negative with
  | true =>
    rw [if_pos rfl, show signed true m = -(m : Int) from rfl]
    omega
  | false =>
    rw [if_neg (by simp), show signed false m = (m : Int) from rfl]
    omega

theorem asciiStrtoull_of_fits (hbase : ValidBase base)
    (hfits : ∀ n, readNumeral base str = some n → n.magnitude < 2 ^ 64) :
    asciiStrtoull str base = convertUnsigned base str := by
  unfold convertUnsigned
  cases hread : readNumeral base str with
  | none =>
    obtain ⟨negative, hparse⟩ := parseLongLong_of_none hbase hread
    simp only [asciiStrtoull, hparse, Nat.sub_zero, Nat.mod_self, ite_self]
  | some n =>
    have hlt := hfits n hread
    have hlimit : kUInt64Max = 2 ^ 64 - 1 := rfl
    have hcut : min n.magnitude kUInt64Max = n.magnitude := Nat.min_eq_left (by omega)
    have hnegate := negate_uint64 hlt n.negative
    simp only [asciiStrtoull, parseLongLong_of_some hbase hread, Numeral.parsed, hcut, hnegate,
      if_pos hlt, Numeral.value]

/-- An overflowing numeral is never reported: the parser leaves `errno` alone. -/
theorem asciiStrtoull_errno (hbase : ValidBase base) (hread : readNumeral base str = some n) :
    (asciiStrtoull str base).errno = none := by
  rw [asciiStrtoull, parseLongLong_of_some hbase hread]
  rfl

/-- **`ascii_strtoull`** converts exactly the numerals whose magnitude fits in 64 bits. For the
others the source calls `strerror(ERANGE)` where it should store `ERANGE`, and negates the maximum
behind a minus sign. -/
theorem strtoull_iff (str : CString) {base : Nat} (hbase : ValidBase base) :
    asciiStrtoull str.bytes base = convertUnsigned base str.bytes ↔
      ∀ n, readNumeral base str.bytes = some n → n.magnitude < 2 ^ 64 := by
  refine ⟨fun h n hread => ?_, asciiStrtoull_of_fits hbase⟩
  by_contra hover
  have herrno := asciiStrtoull_errno hbase hread
  simp only [h, convertUnsigned, hread, if_neg hover] at herrno
  cases herrno

/-- `"-7"` in base 10. -/
theorem strtoull_iff_negated :
    asciiStrtoull ("-7".toList.map toUInt8) 10 = ⟨2 ^ 64 - 7, [], none⟩ := by
  have hconvert := (strtoull_iff ⟨"-7".toList.map toUInt8, by decide +kernel⟩
    (show ValidBase 10 by decide)).mpr ?_
  · decide +kernel
  · rintro n hn
    cases hn
    decide +kernel

/-- `"-18446744073709551616"` overflows, and is converted to 1 without an error. -/
theorem strtoull_wraps :
    asciiStrtoull ("-18446744073709551616".toList.map toUInt8) 10 = ⟨1, [], none⟩ ∧
      convertUnsigned 10 ("-18446744073709551616".toList.map toUInt8) =
        ⟨kUInt64Max, [], some .ERANGE⟩ := by
  decide +kernel

/-! ### `ascii_string_to_signed` and `ascii_string_to_unsigned` -/

/-- The documented outcomes of the two functions. -/
inductive Outcome (α : Type) where
  | number (n : α)
  | invalid
  | outOfBounds
  deriving DecidableEq, Repr

/-- The number of a string that consists of digits of the base, and of at least one. -/
def wholeNumber (base : Nat) (s : Cursor) : Option Nat :=
  if digitRun base s ≠ [] ∧ afterRun base s = [] then
    some (Nat.ofDigits base (digitRun base s).reverse)
  else none

/-- The number of a string that consists of such digits behind an optional sign. -/
def wholeSigned (base : Nat) (s : Cursor) : Option Int :=
  if char s 0 = '-'.toUInt8 then (wholeNumber base (s.drop 1)).map fun m => signed true m
  else if char s 0 = '+'.toUInt8 then (wholeNumber base (s.drop 1)).map fun m => signed false m
  else (wholeNumber base s).map fun m => signed false m

/-- The outcome for a number and its bounds. -/
def bounded {α : Type} [LE α] [DecidableLE α] (min max : α) : Option α → Outcome α
  | none => .invalid
  | some v => if min ≤ v ∧ v ≤ max then .number v else .outOfBounds

/-- The documented outcome of `ascii_string_to_signed`. -/
def documentedSigned (str : CString) (base : Nat) (min max : Int) : Outcome Int :=
  bounded min max (wholeSigned base str.bytes)

/-- The documented outcome of `ascii_string_to_unsigned`. -/
def documentedUnsigned (str : CString) (base : Nat) (min max : Nat) : Outcome Nat :=
  bounded min max (wholeNumber base str.bytes)

/-- The outcome is a number. -/
def Outcome.IsNumber {α : Type} (o : Outcome α) : Prop := ∃ n, o = .number n

/-- The value returned and the number stored are those of the outcome. -/
def Answer.Returns {α : Type} (a : Answer α) : Outcome α → Prop
  | .number n => a.ret = true ∧ a.outNum = some n
  | .invalid => a.ret = false ∧ a.outNum = none
  | .outOfBounds => a.ret = false ∧ a.outNum = none

/-- The error reported is that of the outcome. -/
def Answer.Reports {α : Type} (a : Answer α) : Outcome α → Prop
  | .number _ => a.reported = none
  | .invalid => a.reported = some .invalid
  | .outOfBounds => a.reported = some .outOfBounds

/-- Refusing without a report. -/
def refused (α : Type) : Answer α := ⟨false, none, none⟩

theorem refused_returns_iff (o : Outcome α) : (refused α).Returns o ↔ ¬ o.IsNumber := by
  cases o with
  | number n => exact ⟨fun h => absurd h.1 Bool.false_ne_true, fun h => absurd ⟨n, rfl⟩ h⟩
  | invalid | outOfBounds => exact ⟨fun _ => by rintro ⟨_, ⟨⟩⟩, fun _ => ⟨rfl, rfl⟩⟩

theorem refused_reports_iff (o : Outcome α) : (refused α).Reports o ↔ o.IsNumber := by
  cases o with
  | number n => exact ⟨fun _ => ⟨n, rfl⟩, fun _ => rfl⟩
  | invalid | outOfBounds => exact ⟨by rintro ⟨⟩, by rintro ⟨_, ⟨⟩⟩⟩

/-- The test of the conversion, made before the conversion: `end_ptr` is still `NULL`. -/
theorem parseFailed_initially : parseFailed none none = true := rfl

theorem asciiStringToUnsigned_refuses (str : CString) (base min max : Nat) :
    asciiStringToUnsigned str base min max = refused Nat := by
  simp only [asciiStringToUnsigned, parseFailed_initially, or_true, if_true]
  exact ite_self _

theorem readNumeral_of_nul (base : Nat) (h : char str 0 = 0) : readNumeral base str = none := by
  cases str with
  | nil => rfl
  | cons c s =>
    cases show c = 0 from h
    exact (readUnsigned_of_nul rfl false)

theorem asciiStringToSigned_refuses (str : CString) (hbase : ValidBase base)
    (min max : Int) (hleast : ¬ ReadsLeast base str.bytes) :
    asciiStringToSigned str base min max = some (refused Int) := by
  simp only [asciiStringToSigned, parseFailed_initially, or_true, if_true,
    asciiStrtoll_eq hbase hleast, Option.map_some]
  exact ite_self _

theorem asciiStringToSigned_undefined (str : CString) (hbase : ValidBase base)
    (min max : Int) (hleast : ReadsLeast base str.bytes) :
    asciiStringToSigned str base min max = none := by
  have hstart : char str.bytes 0 ≠ 0 := by
    intro hnul
    obtain ⟨n, hread, -⟩ := hleast
    rw [readNumeral_of_nul base hnul] at hread
    cases hread
  simp only [asciiStringToSigned, if_neg hstart, asciiStrtoll_undefined hbase hleast,
    Option.map_none]

/-- **`ascii_string_to_signed` and `ascii_string_to_unsigned`** return what is documented exactly
when that is a failure, and report what is documented exactly when there is nothing to report; where
`ascii_strtoll` is undefined, so is the first. -/
theorem string_to_number_iff (str : CString) {base : Nat} (htwo : 2 ≤ base) (hle : base ≤ 36) :
    (∀ min max : Int, ((∃ a, asciiStringToSigned str base min max = some a ∧
          a.Returns (documentedSigned str base min max)) ↔
        ¬ (documentedSigned str base min max).IsNumber ∧ ¬ ReadsLeast base str.bytes) ∧
      ((∃ a, asciiStringToSigned str base min max = some a ∧
          a.Reports (documentedSigned str base min max)) ↔
        (documentedSigned str base min max).IsNumber ∧ ¬ ReadsLeast base str.bytes)) ∧
    ∀ min max : Nat,
      ((asciiStringToUnsigned str base min max).Returns (documentedUnsigned str base min max) ↔
        ¬ (documentedUnsigned str base min max).IsNumber) ∧
      ((asciiStringToUnsigned str base min max).Reports (documentedUnsigned str base min max) ↔
        (documentedUnsigned str base min max).IsNumber) := by
  have hbase : ValidBase base := .inr ⟨htwo, hle⟩
  refine ⟨fun min max => ?_, fun min max => ?_⟩
  · by_cases hleast : ReadsLeast base str.bytes
    · simp [asciiStringToSigned_undefined str hbase min max hleast, hleast]
    · simp [asciiStringToSigned_refuses str hbase min max hleast, hleast, refused_returns_iff,
        refused_reports_iff]
  · rw [asciiStringToUnsigned_refuses]
    exact ⟨refused_returns_iff _, refused_reports_iff _⟩

/-- `"42"` in base 10 between 0 and 100. -/
def fortyTwo : CString := ⟨"42".toList.map toUInt8, by decide +kernel⟩

theorem string_to_number_iff_fortyTwo : ¬ ∃ a, asciiStringToSigned fortyTwo 10 0 100 = some a ∧
      a.Returns (documentedSigned fortyTwo 10 0 100) := by
  have hdoc : documentedSigned fortyTwo 10 0 100 = .number 42 := by decide +kernel
  intro h
  have hiff := ((@string_to_number_iff fortyTwo 10 (by decide) (by decide)).1 0 100).1
  exact (hiff.mp h).1 ⟨42, hdoc⟩

/-- The string is refused by both functions, and nothing is stored or reported. -/
theorem string_to_number_refuses :
    asciiStringToSigned fortyTwo 10 0 100 = some ⟨false, none, none⟩ ∧
      documentedSigned fortyTwo 10 0 100 = .number 42 ∧
      asciiStringToUnsigned fortyTwo 10 0 100 = ⟨false, none, none⟩ ∧
      documentedUnsigned fortyTwo 10 0 100 = .number 42 := by
  decide +kernel

end CxxKit.Ascii
