import RbProtocol.Foundations.Strtod

/-!
# `sscanf` and `strtoul`

The conversions of `sscanf` that the code uses, each with the text that is left, and `strtoul` with
base 16. `long` and `unsigned` have 32 bits.
-/

namespace RbProtocol

open Ascii

/-- White space in the format. -/
def skipSpace (s : Bytes) : Bytes := s.dropWhile isSpace

/-- Any other text in the format. -/
def scanLiteral (text s : Bytes) : Option Bytes :=
  if text <+: s then some (s.drop text.length) else none

/-- `%s` with a width. -/
def scanWord (width : ℕ) (s : Bytes) : Option (Bytes × Bytes) :=
  let rest := skipSpace s
  let word := (rest.takeWhile fun c => !isSpace c).take width
  if word = [] then none else some (word, rest.drop word.length)

/-- The sign and the digits of an integer. -/
structure Numeral where
  negative : Bool
  magnitude : ℕ

/-- A number as a `long`, the nearest one if it is too large. -/
def Numeral.toLong (n : Numeral) : ℤ :=
  if n.negative then max (-2 ^ 31) (-(n.magnitude : ℤ)) else min (2 ^ 31 - 1) n.magnitude

/-- A number as an `unsigned long`: a negative one wraps around, the largest one if it is too
large. -/
def Numeral.toUnsigned (n : Numeral) : ℕ :=
  if 2 ^ 32 ≤ n.magnitude then 2 ^ 32 - 1
  else if n.negative then (2 ^ 32 - n.magnitude) % 2 ^ 32
  else n.magnitude

/-- `%ld` and `%u`. -/
def scanNumeral (s : Bytes) : Option (Numeral × Bytes) :=
  let (negative, rest) := splitSign (skipSpace s)
  let (digits, rest) := spanDigits isDigit rest
  if digits = [] then none else some (⟨negative, digitsValue 10 digits⟩, rest)

/-- `strtoul (s, NULL, 16)`. -/
def strtoulHex (s : Bytes) : ℕ :=
  let (negative, rest) := splitSign (skipSpace s)
  let digits := if literal "0x" <+: rest.map toLower ∧ isHexDigit (rest.getD 2 0) then rest.drop 2
    else rest
  Numeral.toUnsigned ⟨negative, digitsValue 16 (spanDigits isHexDigit digits).1⟩

end RbProtocol
