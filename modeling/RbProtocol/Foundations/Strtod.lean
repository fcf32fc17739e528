import RbProtocol.Library.BinaryFloat
import RbProtocol.Foundations.Printf

/-!
# `strtod`

The decimal and hexadecimal numbers, infinities and NaNs that `strtod` reads from the start of a
string, rounded to a `double`. It inverts the text of an integer (`strtod_formatLongLong`).
-/

namespace RbProtocol

open Ascii Library

/-- The digits at the start of a string. -/
def spanDigits (isDig : UInt8 → Bool) (s : Bytes) : Bytes × Bytes :=
  (s.takeWhile isDig, s.dropWhile isDig)

/-- A string without one of the characters at its start. -/
def skip? (chars : Bytes) : Bytes → Option Bytes
  | [] => none
  | c :: rest => if c ∈ chars then some rest else none

/-- A sign at the start of a string. -/
def splitSign (s : Bytes) : Bool × Bytes :=
  match skip? [minus] s with
  | some rest => (true, rest)
  | none => (false, (skip? [plus] s).getD s)

/-- The exponent at the start of a string, 0 if there is none. -/
def strtodExponent (marks : Bytes) (s : Bytes) : ℤ :=
  match skip? marks s with
  | none => 0
  | some rest =>
    let (negative, rest) := splitSign rest
    let exponent : ℤ := digitsValue 10 (spanDigits isDigit rest).1
    if negative then -exponent else exponent

/-- Digits with a decimal point and an exponent: `none` without a digit. -/
def strtodNumber (base scale : ℕ) (isDig : UInt8 → Bool) (marks s : Bytes) : Option ℚ :=
  let (whole, rest) := spanDigits isDig s
  let (frac, rest) := match skip? [dot] rest with
    | none => ([], rest)
    | some rest => spanDigits isDig rest
  if whole ++ frac = [] then none
  else
    some (digitsValue base (whole ++ frac) / (base : ℚ) ^ frac.length *
      (scale : ℚ) ^ strtodExponent marks rest)

/-- The value behind the sign. -/
def strtodUnsigned (s : Bytes) : Option BinaryFloat :=
  let lower := s.map toLower
  if [105, 110, 102] <+: lower then some (.infinite false)
  else if [110, 97, 110] <+: lower then some .nan
  else
    let hex := if [48, 120] <+: lower then strtodNumber 16 2 isHexDigit [80, 112] (s.drop 2)
      else none
    match hex with
    | some q => some (.round binary64 q)
    | none => (strtodNumber 10 10 isDigit [69, 101] s).map (.round binary64)

/-- The value with the other sign. -/
def negateFloat : BinaryFloat → BinaryFloat
  | .finite q => .finite (-q)
  | .infinite negative => .infinite !negative
  | .nan => .nan

/-- `strtod`; `none` when it converts nothing, so that `endptr` is the start of the string. -/
def strtod (s : Bytes) : Option BinaryFloat :=
  let (negative, rest) := splitSign (s.dropWhile isSpace)
  (strtodUnsigned rest).map fun x => if negative then negateFloat x else x

/-! ## Integers -/

theorem spanDigits_all {isDig : UInt8 → Bool} {digits : Bytes} (h : ∀ c ∈ digits, isDig c = true) :
    spanDigits isDig digits = (digits, []) := by
  rw [spanDigits, List.takeWhile_eq_self_iff.2 h, List.dropWhile_eq_nil_iff.2 h]

theorem strtodNumber_digits {digits : Bytes} (hne : digits ≠ [])
    (h : ∀ c ∈ digits, isDigit c = true) (scale : ℕ) (marks : Bytes) :
    strtodNumber 10 scale isDigit marks digits = some (digitsValue 10 digits : ℚ) := by
  rw [strtodNumber, spanDigits_all h]
  simp [skip?, hne, strtodExponent]

/-- `tolower` keeps digits. -/
theorem toLower_digit {c : UInt8} (hc : isDigit c = true) : toLower c = c := by
  obtain ⟨-, hle⟩ := isDigit_iff.1 hc
  have hlower : ¬65 ≤ c := by
    rw [UInt8.le_iff_toNat_le]
    simp only [UInt8.reduceToNat]
    omega
  rw [toLower, if_neg (by simp [hlower])]

theorem map_toLower_digits {digits : Bytes} (h : ∀ c ∈ digits, isDigit c = true) :
    digits.map toLower = digits :=
  List.map_congr_left (fun c hc => toLower_digit (h c hc)) |>.trans (List.map_id _)

/-- Text that starts with a character that is no digit does not start a run of digits. -/
theorem not_prefix_digits {digits : Bytes} (h : ∀ c ∈ digits, isDigit c = true) {text : Bytes}
    {c : UInt8} (hc : c ∈ text) (hdigit : isDigit c = false) : ¬text <+: digits := fun hstart => by
  rw [h c (hstart.subset hc)] at hdigit
  cases hdigit

theorem strtodUnsigned_digits {digits : Bytes} (hne : digits ≠ [])
    (h : ∀ c ∈ digits, isDigit c = true) :
    strtodUnsigned digits = some (.round binary64 (digitsValue 10 digits : ℚ)) := by
  rw [strtodUnsigned, map_toLower_digits h]
  simp only
  rw [if_neg (not_prefix_digits h (c := 105) (by decide) (by decide)),
    if_neg (not_prefix_digits h (c := 110) (by decide) (by decide)),
    if_neg (not_prefix_digits h (c := 120) (by decide) (by decide)),
    strtodNumber_digits hne h]
  rfl

/-- A digit is not a sign. -/
theorem splitSign_digit {c : UInt8} (hc : isDigit c = true) (rest : Bytes) :
    splitSign (c :: rest) = (false, c :: rest) := by
  have hminus : c ≠ minus := by
    rintro rfl
    exact absurd hc (by decide)
  have hplus : c ≠ plus := by
    rintro rfl
    exact absurd hc (by decide)
  simp [splitSign, skip?, hminus, hplus]

/-- A digit is not a space. -/
theorem dropWhile_isSpace_digit {c : UInt8} (hc : isDigit c = true) (rest : Bytes) :
    (c :: rest).dropWhile isSpace = c :: rest := by
  have hspace : isSpace c = false := by
    obtain ⟨hge, -⟩ := isDigit_iff.1 hc
    have hne : c ≠ space := by
      rintro rfl
      exact absurd hge (by decide)
    have hlt : ¬c ≤ 13 := by
      rw [UInt8.le_iff_toNat_le]
      simp only [UInt8.reduceToNat]
      omega
    simp [isSpace, hne, hlt]
  rw [List.dropWhile_cons_of_neg (by simp [hspace])]

/-- A run of digits is not a sign or a space. -/
theorem splitSign_digits {digits : Bytes} (h : ∀ c ∈ digits, isDigit c = true) :
    splitSign digits = (false, digits) := by
  cases digits with
  | nil => rfl
  | cons c rest => exact splitSign_digit (h c List.mem_cons_self) rest

theorem dropWhile_isSpace_digits {digits : Bytes} (h : ∀ c ∈ digits, isDigit c = true) :
    digits.dropWhile isSpace = digits := by
  cases digits with
  | nil => rfl
  | cons c rest => exact dropWhile_isSpace_digit (h c List.mem_cons_self) rest

/-- **`strtod` inverts the text of an integer** that a `double` can hold. -/
theorem strtod_formatLongLong {n : ℤ} (hn : |n| ≤ 2 ^ 53) :
    strtod (formatLongLong n) = some (.finite n) := by
  obtain ⟨digits, hne, hdigits, hvalue, -, -, htext⟩ := formatLongLong_eq (n := n) (by
    have : (n.natAbs : ℤ) = |n| := Int.natCast_natAbs n
    omega)
  have hround : BinaryFloat.round binary64 ((n.natAbs : ℕ) : ℚ) = .finite (n.natAbs : ℕ) := by
    rw [← Int.cast_natCast]
    exact BinaryFloat.round_intCast (by rw [Int.natCast_natAbs, abs_abs]; exact hn)
  rw [htext]
  split_ifs with hneg
  · have habs : ((n.natAbs : ℕ) : ℚ) = -(n : ℚ) := by
      rw [← Int.cast_natCast, show (n.natAbs : ℤ) = -n by omega, Int.cast_neg]
    have hsign : splitSign ((minus :: digits).dropWhile isSpace) = (true, digits) := rfl
    rw [strtod, hsign]
    simp only
    rw [strtodUnsigned_digits hne hdigits, hvalue, hround, habs]
    simp [negateFloat]
  · have habs : ((n.natAbs : ℕ) : ℚ) = (n : ℚ) := by
      rw [← Int.cast_natCast, show (n.natAbs : ℤ) = n by omega]
    rw [strtod, dropWhile_isSpace_digits hdigits, splitSign_digits hdigits]
    simp only
    rw [strtodUnsigned_digits hne hdigits, hvalue, hround, habs]
    simp

/-! ## Any number -/

theorem isSome_strtodUnsigned {c : UInt8} (hc : isDigit c = true) (rest : Bytes) :
    (strtodUnsigned (c :: rest)).isSome := by
  have hdecimal : (strtodNumber 10 10 isDigit [69, 101] (c :: rest)).isSome := by
    rw [strtodNumber, spanDigits, List.takeWhile_cons_of_pos hc]
    simp
  rw [strtodUnsigned]
  split_ifs
  · rfl
  · rfl
  · simp only
    split
    · rfl
    · rwa [Option.isSome_map]
  · simpa only [Option.isSome_map] using hdecimal

/-- **A text that starts with a number is converted.** -/
theorem StartsNumber.isSome_strtod {text : Bytes} (h : StartsNumber text) :
    (strtod text).isSome := by
  obtain ⟨c, rest, hc, rfl | rfl⟩ := h
  · rw [strtod, dropWhile_isSpace_digit hc, splitSign_digit hc, Option.isSome_map]
    exact isSome_strtodUnsigned hc rest
  · have hsign : splitSign ((minus :: c :: rest).dropWhile isSpace) = (true, c :: rest) := rfl
    rw [strtod, hsign, Option.isSome_map]
    exact isSome_strtodUnsigned hc rest

end RbProtocol
