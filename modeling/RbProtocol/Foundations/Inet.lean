import RbProtocol.Foundations.Network
import RbProtocol.Foundations.Printf
import RbProtocol.Foundations.Strtod

/-!
# IPv4 addresses as texts

`inet_ntop` writes the four bytes of an address as decimal numbers with dots between them, and
`inet_pton` reads such a text, of four numbers of one to three digits that are at most 255.

The text of an address is short, and no NUL is in it (`inetNtop_text`).
-/

namespace RbProtocol

open Ascii

/-- A byte as a decimal number. -/
def octetText (b : UInt8) : Bytes := (printfDigits 3 b.toNat).reverse

/-- `inet_ntop (AF_INET, ..)`: the text before its terminator. -/
def inetNtop (addr : UInt32) : Bytes := [dot].intercalate ((rawBytes addr).map octetText)

/-- The number at the start of a text. -/
def octet? (text : Bytes) : Option (UInt8 × Bytes) :=
  let (digits, rest) := spanDigits isDigit text
  if digits = [] ∨ 3 < digits.length ∨ 255 < digitsValue 10 digits then none
  else some (UInt8.ofNat (digitsValue 10 digits), rest)

/-- The `uint32_t` with four bytes in memory. -/
def ofRawBytes (a b c d : UInt8) : UInt32 :=
  UInt32.ofNat (a.toNat + b.toNat * 2 ^ 8 + c.toNat * 2 ^ 16 + d.toNat * 2 ^ 24)

/-- `inet_pton (AF_INET, ..)`, on a C string; `none` if it is no address. -/
def inetPton (text : Bytes) : Option UInt32 := do
  let (a, rest) ← octet? text
  let (b, rest) ← octet? (← skip? [dot] rest)
  let (c, rest) ← octet? (← skip? [dot] rest)
  let (d, rest) ← octet? (← skip? [dot] rest)
  if rest = [] then some (ofRawBytes a b c d) else none

theorem isDigit_of_mem_octetText {b c : UInt8} (h : c ∈ octetText b) : isDigit c = true :=
  printfDigits_isDigit (List.mem_reverse.1 h)

theorem length_octetText_le (b : UInt8) : (octetText b).length ≤ 3 := by
  have hlt : b.toNat < 10 ^ 3 := b.toNat_lt.trans (by norm_num)
  rw [octetText, List.length_reverse]
  exact length_printfDigits_le hlt (by norm_num)

/-- The text is short, and no NUL is in it. -/
theorem inetNtop_text (addr : UInt32) : (inetNtop addr).length ≤ 15 ∧ 0 ∉ inetNtop addr := by
  have hnul (b : UInt8) : (0 : UInt8) ∉ octetText b := fun h => by
    have := isDigit_of_mem_octetText h
    cases this
  have hlength := length_octetText_le
  constructor
  · have h0 := hlength (UInt8.ofNat addr.toNat)
    have h1 := hlength (UInt8.ofNat (addr.toNat / 2 ^ 8))
    have h2 := hlength (UInt8.ofNat (addr.toNat / 2 ^ 16))
    have h3 := hlength (UInt8.ofNat (addr.toNat / 2 ^ 24))
    simp only [inetNtop, rawBytes, List.intercalate, List.map_cons, List.map_nil,
      List.intersperse_cons_cons, List.intersperse_singleton, List.flatten_cons, List.flatten_nil,
      List.length_append, List.length_cons, List.length_nil]
    omega
  · have hdot : (0 : UInt8) ≠ dot := by decide
    simp [inetNtop, rawBytes, List.intercalate, hnul, hdot]

example : inetNtop 0x0100007F = literal "127.0.0.1" := by decide

end RbProtocol
