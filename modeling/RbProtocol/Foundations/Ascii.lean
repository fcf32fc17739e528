import RbProtocol.Foundations.Bytes

/-!
# ASCII

The characters the code mentions, and the character classes of the C library.
-/

namespace RbProtocol.Ascii

abbrev nul : UInt8 := 0
abbrev backspace : UInt8 := 8
abbrev tab : UInt8 := 9
abbrev newline : UInt8 := 10
abbrev formFeed : UInt8 := 12
abbrev carriageReturn : UInt8 := 13
abbrev space : UInt8 := 32
abbrev quote : UInt8 := 34
abbrev percent : UInt8 := 37
abbrev plus : UInt8 := 43
abbrev comma : UInt8 := 44
abbrev minus : UInt8 := 45
abbrev dot : UInt8 := 46
abbrev slash : UInt8 := 47
abbrev colon : UInt8 := 58
abbrev questionMark : UInt8 := 63
abbrev openBracket : UInt8 := 91
abbrev backslash : UInt8 := 92
abbrev closeBracket : UInt8 := 93
abbrev openBrace : UInt8 := 123
abbrev closeBrace : UInt8 := 125

/-- `isdigit`. -/
def isDigit (c : UInt8) : Bool := 48 ≤ c && c ≤ 57

/-- `isspace`. -/
def isSpace (c : UInt8) : Bool := c == space || 9 ≤ c && c ≤ 13

/-- `isxdigit`. -/
def isHexDigit (c : UInt8) : Bool := isDigit c || 65 ≤ c && c ≤ 70 || 97 ≤ c && c ≤ 102

/-- `tolower`. -/
def toLower (c : UInt8) : UInt8 := if 65 ≤ c && c ≤ 90 then c + 32 else c

/-- The value of a hexadecimal digit. -/
def digitValue (c : UInt8) : ℕ :=
  if isDigit c then c.toNat - 48 else (toLower c).toNat - 87

/-- The value of a run of digits. -/
def digitsValue (base : ℕ) (digits : Bytes) : ℕ :=
  digits.foldl (fun acc c => acc * base + digitValue c) 0

theorem isDigit_iff {c : UInt8} : isDigit c = true ↔ 48 ≤ c.toNat ∧ c.toNat ≤ 57 := by
  rw [isDigit, Bool.and_eq_true, decide_eq_true_eq, decide_eq_true_eq, UInt8.le_iff_toNat_le,
    UInt8.le_iff_toNat_le]
  rfl

end RbProtocol.Ascii
