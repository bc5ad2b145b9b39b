import Mathlib.Algebra.Group.Int.Defs
import Mathlib.Algebra.Group.Nat.Defs
import Mathlib.Data.List.Basic

/-!
Numbers in text (`text/ascii.cpp`): `ascii_strtoull`, `ascii_strtoll`, the parser that they share,
and `ascii_string_to_signed` and `ascii_string_to_unsigned`, which are built on them.

A pointer into a NUL-terminated string is the list of bytes from it up to the terminator, so that
`*s` of the empty list is NUL.  Unsigned 64-bit values are numbers below `2 ^ 64`.  What a call
stores in `errno` is `some` error, and `none` when it leaves `errno` alone.
-/

namespace CxxKit.Ascii

/-- A pointer into a NUL-terminated string. -/
abbrev Cursor := List UInt8

/-- A NUL-terminated string: no byte before the terminator is NUL. -/
structure CString where
  bytes : Cursor
  noNul : ∀ c ∈ bytes, c ≠ 0

/-- `s[i]`. -/
def char (s : Cursor) (i : Nat) : UInt8 := s.getD i 0

/-! ### Characters -/

variable (c : UInt8)

/-- `ISSPACE`. -/
def isSpace : Bool :=
  c = 0x20 ∨ c = 0x0c ∨ c = 0x0a ∨ c = 0x0d ∨ c = 0x09 ∨ c = 0x0b

/-- `ISUPPER`. -/
def isUpper : Bool := 'A'.toUInt8 ≤ c ∧ c ≤ 'Z'.toUInt8

/-- `ISLOWER`. -/
def isLower : Bool := 'a'.toUInt8 ≤ c ∧ c ≤ 'z'.toUInt8

/-- `ISALPHA`. -/
def isAlpha : Bool := isUpper c || isLower c

/-- `TOUPPER`. -/
def toUpper : UInt8 := if isLower c then c - 'a'.toUInt8 + 'A'.toUInt8 else c

/-- The first 128 entries of `ascii_table_data`; the others are zero. -/
def asciiTable : List Nat := [
    0x004, 0x004, 0x004, 0x004, 0x004, 0x004, 0x004, 0x004, 0x004, 0x104, 0x104, 0x104, 0x104,
    0x104, 0x004, 0x004, 0x004, 0x004, 0x004, 0x004, 0x004, 0x004, 0x004, 0x004, 0x004, 0x004,
    0x004, 0x004, 0x004, 0x004, 0x004, 0x004, 0x140, 0x0d0, 0x0d0, 0x0d0, 0x0d0, 0x0d0, 0x0d0,
    0x0d0, 0x0d0, 0x0d0, 0x0d0, 0x0d0, 0x0d0, 0x0d0, 0x0d0, 0x0d0, 0x459, 0x459, 0x459, 0x459,
    0x459, 0x459, 0x459, 0x459, 0x459, 0x459, 0x0d0, 0x0d0, 0x0d0, 0x0d0, 0x0d0, 0x0d0, 0x0d0,
    0x653, 0x653, 0x653, 0x653, 0x653, 0x653, 0x253, 0x253, 0x253, 0x253, 0x253, 0x253, 0x253,
    0x253, 0x253, 0x253, 0x253, 0x253, 0x253, 0x253, 0x253, 0x253, 0x253, 0x253, 0x253, 0x253,
    0x0d0, 0x0d0, 0x0d0, 0x0d0, 0x0d0, 0x0d0, 0x473, 0x473, 0x473, 0x473, 0x473, 0x473, 0x073,
    0x073, 0x073, 0x073, 0x073, 0x073, 0x073, 0x073, 0x073, 0x073, 0x073, 0x073, 0x073, 0x073,
    0x073, 0x073, 0x073, 0x073, 0x073, 0x073, 0x0d0, 0x0d0, 0x0d0, 0x0d0, 0x004]

/-- `ascii_isspace`: the bit `CXXKIT_ASCII_SPACE` of the table. -/
def asciiIsspace : Bool := asciiTable.getD c.toNat 0 &&& 0x100 != 0

/-- `ascii_tolower`: the entries of `ascii_lower_table_data`. -/
def asciiTolower : UInt8 := if isUpper c then c - 'A'.toUInt8 + 'a'.toUInt8 else c

/-! ### `_parse_long_long` -/

inductive Errno where
  | EINVAL
  | ERANGE
  deriving DecidableEq, Repr

def kUInt64Max : Nat := 2 ^ 64 - 1

/-- `while (ISSPACE(*s)) ++s`. -/
def skipSpace : Cursor → Cursor
  | [] => []
  | c :: s => if isSpace c then skipSpace s else c :: s

/-- The value of a character as a digit, whatever the base. -/
def digitValue : Option Nat :=
  if '0'.toUInt8 ≤ c ∧ c ≤ '9'.toUInt8 then some (c - '0'.toUInt8).toNat
  else if isAlpha c then some (toUpper c - 'A'.toUInt8 + 10).toNat
  else none

/-- The variables `ui64` and `overflow` of the digit loop. -/
structure Accum where
  ui64 : Nat := 0
  overflow : Bool := false
  deriving DecidableEq, Repr

/-- The body of the digit loop for a digit `c`. -/
def Accum.push (base : Nat) (acc : Accum) (c : Nat) : Accum :=
  let cutoff := kUInt64Max / base
  let cutlim := kUInt64Max % base
  if cutoff < acc.ui64 ∨ (acc.ui64 = cutoff ∧ cutlim < c) then { acc with overflow := true }
  else { acc with ui64 := (acc.ui64 * base % 2 ^ 64 + c) % 2 ^ 64 }

/-- The digit loop: where it stops, and its variables there. -/
def readDigits (base : Nat) : Cursor → Accum → Cursor × Accum
  | [], acc => ([], acc)
  | c :: s, acc =>
    if c = 0 then (c :: s, acc)
    else
      match digitValue c with
      | none => (c :: s, acc)
      | some d => if base ≤ d then (c :: s, acc) else readDigits base s (acc.push base d)

/-- The sign, if there is one: `*negative`, and `s` behind it. -/
def readSign (s : Cursor) : Bool × Cursor :=
  if char s 0 = '-'.toUInt8 then (true, s.drop 1)
  else if char s 0 = '+'.toUInt8 then (false, s.drop 1)
  else (false, s)

/-- The number prefix, and the base when it was zero. -/
def readPrefix (base : Nat) (s : Cursor) : Nat × Cursor :=
  if char s 0 = '0'.toUInt8 then
    if (base = 0 ∨ base = 16) ∧ toUpper (char s 1) = 'X'.toUInt8 then (16, s.drop 2)
    else if base = 0 then (8, s)
    else (base, s)
  else if base = 0 then (10, s)
  else (base, s)

/-- What `_parse_long_long` returns and stores. -/
structure Parsed where
  value : Nat
  endptr : Cursor
  negative : Bool
  errno : Option Errno
  deriving DecidableEq, Repr

/-- The label `noconv`: nothing was converted, `save` is where the digits should have been. -/
def noconv (nptr save : Cursor) (negative : Bool) : Parsed :=
  let offset := nptr.length - save.length
  if 2 ≤ offset ∧ toUpper (char nptr (offset - 1)) = 'X'.toUInt8 ∧
      char nptr (offset - 2) = '0'.toUInt8 then
    ⟨0, nptr.drop (offset - 1), negative, none⟩
  else ⟨0, nptr, negative, none⟩

/-- `_parse_long_long` from the number prefix on.  On overflow the source calls
`strerror(ERANGE)`, which only looks up the text of the error, and does not store it in `errno`. -/
def parseUnsigned (nptr : Cursor) (base : Nat) (negative : Bool) (s : Cursor) : Parsed :=
  let (base, save) := readPrefix base s
  let (s, acc) := readDigits base save {}
  if s.length = save.length then noconv nptr save negative
  else if acc.overflow then ⟨kUInt64Max, s, negative, none⟩
  else ⟨acc.ui64, s, negative, none⟩

/-- `_parse_long_long`. -/
def parseLongLong (nptr : Cursor) (base : Nat) : Parsed :=
  if base = 1 ∨ 36 < base then ⟨0, nptr, false, some .EINVAL⟩
  else
    let s := skipSpace nptr
    if char s 0 = 0 then noconv nptr nptr false
    else
      let (negative, s) := readSign s
      parseUnsigned nptr base negative s

/-! ### `ascii_strtoull` and `ascii_strtoll` -/

/-- What a conversion returns and stores. -/
structure Converted (α : Type) where
  value : α
  endptr : Cursor
  errno : Option Errno
  deriving DecidableEq, Repr

/-- `ascii_strtoull`; the negation is that of `uint64_t`. -/
def asciiStrtoull (nptr : Cursor) (base : Nat) : Converted Nat :=
  let result := parseLongLong nptr base
  ⟨if result.negative then (2 ^ 64 - result.value) % 2 ^ 64 else result.value, result.endptr,
    result.errno⟩

def kInt64Min : Int := -2 ^ 63

def kInt64Max : Int := 2 ^ 63 - 1

/-- The conversion of a `uint64_t` to `int64_t`. -/
def toInt64 (n : Nat) : Int := if n < 2 ^ 63 then n else n - 2 ^ 64

/-- The negation of an `int64_t`.  The least value has no negative: negating it is a signed
overflow, and undefined. -/
def negInt64 (x : Int) : Option Int := if x = kInt64Min then none else some (-x)

/-- `ascii_strtoll`; `none` when its behaviour is undefined. -/
def asciiStrtoll (nptr : Cursor) (base : Nat) : Option (Converted Int) :=
  let result := parseLongLong nptr base
  if result.negative ∧ 2 ^ 63 < result.value then
    some ⟨kInt64Min, result.endptr, some .ERANGE⟩
  else if ¬ result.negative ∧ 2 ^ 63 - 1 < result.value then
    some ⟨kInt64Max, result.endptr, some .ERANGE⟩
  else if result.negative then
    (negInt64 (toInt64 result.value)).map fun number => ⟨number, result.endptr, result.errno⟩
  else some ⟨toInt64 result.value, result.endptr, result.errno⟩

/-! ### `ascii_string_to_signed` and `ascii_string_to_unsigned` -/

/-- The codes of `CXXKIT_NUMBER_PARSER_ERROR`. -/
inductive ParserError where
  | invalid
  | outOfBounds
  deriving DecidableEq, Repr

/-- What the two functions do: the value returned, the number stored in `*out_num`, and the error
reported.  The statements that would report an error are commented out in the source. -/
structure Answer (α : Type) where
  ret : Bool
  outNum : Option α
  reported : Option ParserError
  deriving DecidableEq, Repr

/-- `_str_has_sign`. -/
def strHasSign (str : Cursor) : Bool := char str 0 = '-'.toUInt8 ∨ char str 0 = '+'.toUInt8

/-- `_str_has_hex_prefix`. -/
def strHasHexPrefix (str : Cursor) : Bool :=
  char str 0 = '0'.toUInt8 ∧ asciiTolower (char str 1) = 'x'.toUInt8

/-- `(saved_errno != 0 && saved_errno != ERANGE) || end_ptr == NULL || *end_ptr != '\0'`, over the
values that the two variables have at that point. -/
def parseFailed (savedErrno : Option Errno) (endPtr : Option Cursor) : Bool :=
  (savedErrno != none && savedErrno != some .ERANGE) ||
    match endPtr with
    | none => true
    | some s => char s 0 != 0

/-- The end of both functions, once the conversion is done. -/
def checkBounds {α : Type} [LT α] [DecidableLT α] (result : Converted α) (min max : α) : Answer α :=
  if result.errno = some .ERANGE ∨ result.value < min ∨ max < result.value then
    ⟨false, none, none⟩
  else ⟨true, some result.value, none⟩

/-- `ascii_string_to_signed`.  As in the source, `support` is computed before the conversion, with
the initial values `0` and `NULL` of `saved_errno` and `end_ptr`. -/
def asciiStringToSigned (str : CString) (base : Nat) (min max : Int) : Option (Answer Int) :=
  let isspace := asciiIsspace (char str.bytes 0)
  let support := (base = 16 ∧ (if strHasSign str.bytes then strHasHexPrefix (str.bytes.drop 1)
    else strHasHexPrefix str.bytes)) ∨ parseFailed none none
  if char str.bytes 0 = 0 then some ⟨false, none, none⟩
  else
    (asciiStrtoll str.bytes base).map fun result =>
      if isspace ∨ support then ⟨false, none, none⟩
      else checkBounds result min max

/-- `ascii_string_to_unsigned`. -/
def asciiStringToUnsigned (str : CString) (base : Nat) (min max : Nat) : Answer Nat :=
  let isspace := asciiIsspace (char str.bytes 0)
  let hasSign := strHasSign str.bytes
  let support := (base = 16 ∧ strHasHexPrefix str.bytes) ∨ parseFailed none none
  if char str.bytes 0 = 0 then ⟨false, none, none⟩
  else if isspace ∨ hasSign ∨ support then ⟨false, none, none⟩
  else checkBounds (asciiStrtoull str.bytes base) min max

end CxxKit.Ascii
