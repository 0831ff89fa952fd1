import ImageProxy.Library.Ascii
import ImageProxy.Library.Pieces

set_option autoImplicit false

/-! # String helpers (`string_util.hpp`, `string_util_posix.hpp`, `string_cast.hpp`)

What the connection uses of `cpcl`: comparison without regard to ASCII case, bounded copying and
formatting, conversion of a decimal number. -/

namespace ImageProxy.Cpcl

open Ascii

/-- The table `charsASCII`: `A` to `Z` in lower case, every other byte itself. -/
def charsASCII (c : UInt8) : UInt8 := if asc 'A' ≤ c ∧ c ≤ asc 'Z' then c + 0x20 else c

/-- `StringEqualsIgnoreCaseASCII` of two string pieces. -/
def stringEqualsIgnoreCaseASCII (a b : Bytes) : Bool :=
  a.length == b.length && (a.zip b).all fun p => charsASCII p.1 == charsASCII p.2

/-- What `StringCopy` stores in a buffer of `rSize` bytes before the final NUL. -/
def stringCopy (rSize : ℕ) (s : Bytes) : Bytes := s.take (rSize - 1)

/-- What `StringFormat` stores in a buffer of `rSize` bytes before the final NUL, `s` being the
formatted text. From 2 ^ 31 bytes on `vsnprintf` fails. -/
def stringFormat (rSize : ℕ) (s : Bytes) : Bytes :=
  if rSize = 0 then []
  else if s.length ≥ 2 ^ 31 then []
  else if s.length ≥ rSize then s.take (rSize - 1)
  else s

/-- The bytes of a C string, up to the first NUL. -/
def cString (s : Bytes) : Bytes := s.takeWhile (· ≠ 0)

theorem zero_notMem_cString (s : Bytes) : 0 ∉ cString s := Pieces.not_mem_takeWhile_ne 0 s

theorem stringFormat_of_lt {rSize : ℕ} {s : Bytes} (h : s.length < rSize) (hmax : rSize ≤ 2 ^ 31) :
    stringFormat rSize s = s := by
  rw [stringFormat, if_neg (by omega), if_neg (by omega), if_neg (by omega)]

/-! ## `TryConvert<unsigned int>` -/

/-- `isspace` in the C locale. -/
def isSpace (c : UInt8) : Bool := c = 32 || (9 ≤ c && c ≤ 13)

def isDigit (c : UInt8) : Bool := asc '0' ≤ c && c ≤ asc '9'

/-- The value of a run of decimal digits. -/
def decimalValue (s : Bytes) : ℕ := s.foldl (fun n c => 10 * n + (c.toNat - 48)) 0

/-- `strtoul(str, &tail, 10)`: the result, and whether `tail` moved. A value above `ULONG_MAX` gives
`ULONG_MAX`, a minus sign negates modulo 2 ^ 64. -/
def strtoul (str : Bytes) : ℕ × Bool :=
  let s := (cString str).dropWhile isSpace
  let (negative, s) := match s with
    | c :: rest => if c = asc '-' then (true, rest) else if c = asc '+' then (false, rest) else (false, s)
    | [] => (false, s)
  let digits := s.takeWhile isDigit
  if digits.isEmpty then (0, false)
  else
    let n := decimalValue digits
    if n ≥ 2 ^ 64 then (2 ^ 64 - 1, true)
    else (if negative then (2 ^ 64 - n) % 2 ^ 64 else n, true)

/-- `TryConvert<unsigned long>` of a string. -/
def tryConvertUnsignedLong (s : Bytes) : Option ℕ :=
  let (n, moved) := strtoul s
  if n = 2 ^ 64 - 1 ∨ (n = 0 ∧ !moved) then none
  else if n ≥ 2 ^ 63 then none
  else some n

/-- `TryConvert<unsigned int>` of a string. -/
def tryConvertUnsignedInt (s : Bytes) : Option ℕ := (tryConvertUnsignedLong s).map (· % 2 ^ 32)

end ImageProxy.Cpcl
