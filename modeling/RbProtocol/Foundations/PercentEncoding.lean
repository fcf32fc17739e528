import RbProtocol.Foundations.Scanf

/-!
# Percent-encoding

The bytes that a percent-encoded text stands for. A percent sign with two hexadecimal digits behind
it is an escape; any other percent sign is itself. Decoding undoes encoding
(`percentDecode_percentEncode`). `strtoul` has the value of the two digits (`strtoulHex_digits`); of
two other characters it makes no percent sign (`strtoulHex_ne_percent`).
-/

namespace RbProtocol

open Ascii

/-- The byte of an escape. -/
def escaped (a b : UInt8) : UInt8 := UInt8.ofNat (digitsValue 16 [a, b])

/-- The bytes that a text stands for. -/
def percentDecode : Bytes → Bytes
  | [] => []
  | [c] => [c]
  | [c, d] => [c, d]
  | c :: a :: b :: src =>
    if c = percent ∧ isHexDigit a ∧ isHexDigit b then escaped a b :: percentDecode src
    else c :: percentDecode (a :: b :: src)

theorem percentDecode_cons_of_ne {c : UInt8} (h : c ≠ percent) (src : Bytes) :
    percentDecode (c :: src) = c :: percentDecode src := by
  rcases src with _ | ⟨a, _ | ⟨b, src⟩⟩
  · rfl
  · rfl
  · rw [percentDecode, if_neg fun hall => h hall.1]

theorem percentDecode_escape {a b : UInt8} (ha : isHexDigit a = true) (hb : isHexDigit b = true)
    (src : Bytes) :
    percentDecode (percent :: a :: b :: src) = escaped a b :: percentDecode src := by
  rw [percentDecode, if_pos ⟨rfl, ha, hb⟩]

theorem percentDecode_cons_of_not_escape {a b : UInt8}
    (h : ¬(isHexDigit a = true ∧ isHexDigit b = true)) (src : Bytes) :
    percentDecode (percent :: a :: b :: src) = percent :: percentDecode (a :: b :: src) := by
  rw [percentDecode, if_neg fun hall => h hall.2]

/-! ## Encoding -/

/-- The digit of a value. -/
def hexDigit (n : ℕ) : UInt8 := if n < 10 then UInt8.ofNat (48 + n) else UInt8.ofNat (55 + n)

/-- A byte in an encoded text: itself, if it is one of those that are kept, or an escape. -/
def percentEncodeByte (keep : UInt8 → Bool) (c : UInt8) : Bytes :=
  if keep c then [c] else [percent, hexDigit (c.toNat / 16), hexDigit (c.toNat % 16)]

/-- A percent-encoded text. -/
def percentEncode (keep : UInt8 → Bool) (s : Bytes) : Bytes := s.flatMap (percentEncodeByte keep)

theorem isHexDigit_hexDigit {n : ℕ} (h : n < 16) : isHexDigit (hexDigit n) = true := by
  have hall : ∀ n < 16, isHexDigit (hexDigit n) = true := by decide
  exact hall n h

theorem digitValue_hexDigit {n : ℕ} (h : n < 16) : digitValue (hexDigit n) = n := by
  have hall : ∀ n < 16, digitValue (hexDigit n) = n := by decide
  exact hall n h

/-- The two digits of a byte. -/
theorem hexDigits_byte (c : UInt8) : isHexDigit (hexDigit (c.toNat / 16)) = true ∧
    isHexDigit (hexDigit (c.toNat % 16)) = true ∧
    escaped (hexDigit (c.toNat / 16)) (hexDigit (c.toNat % 16)) = c := by
  have hlt := c.toNat_lt
  have hhigh : c.toNat / 16 < 16 := by omega
  have hlow : c.toNat % 16 < 16 := by omega
  refine ⟨isHexDigit_hexDigit hhigh, isHexDigit_hexDigit hlow, ?_⟩
  unfold escaped digitsValue
  rw [List.foldl_cons, List.foldl_cons, List.foldl_nil, digitValue_hexDigit hhigh,
    digitValue_hexDigit hlow, Nat.zero_mul, Nat.zero_add, Nat.div_add_mod']
  exact UInt8.ofNat_toNat

/-- **An encoded text stands for what was encoded**, if the percent sign is not kept. -/
theorem percentDecode_percentEncode {keep : UInt8 → Bool} (hkeep : keep percent = false)
    (s : Bytes) : percentDecode (percentEncode keep s) = s := by
  induction s with
  | nil => rfl
  | cons c s ih =>
    unfold percentEncode percentEncodeByte at ih ⊢
    rw [List.flatMap_cons]
    split_ifs with hc
    · have hne : c ≠ percent := by
        rintro rfl
        exact Bool.false_ne_true (hkeep.symm.trans hc)
      rw [List.singleton_append, percentDecode_cons_of_ne hne, ih]
    · obtain ⟨hhigh, hlow, hescaped⟩ := hexDigits_byte c
      rw [List.cons_append, List.cons_append, List.singleton_append,
        percentDecode_escape hhigh hlow, hescaped, ih]

/-- The characters of an encoded text. -/
theorem mem_percentEncode {keep : UInt8 → Bool} {s : Bytes} {c : UInt8}
    (h : c ∈ percentEncode keep s) : keep c = true ∨ c = percent ∨ isHexDigit c = true := by
  obtain ⟨b, -, hc⟩ := List.mem_flatMap.1 h
  obtain ⟨hhigh, hlow, -⟩ := hexDigits_byte b
  unfold percentEncodeByte at hc
  split_ifs at hc with hb
  · rw [List.mem_singleton.1 hc]
    exact .inl hb
  · rcases List.mem_cons.1 hc with rfl | hc
    · exact .inr (.inl rfl)
    rcases List.mem_cons.1 hc with rfl | hc
    · exact .inr (.inr hhigh)
    · rw [List.mem_singleton.1 hc]
      exact .inr (.inr hlow)

theorem percentEncode_ne_nil {keep : UInt8 → Bool} {s : Bytes} (h : s ≠ []) :
    percentEncode keep s ≠ [] := by
  obtain ⟨c, rest, rfl⟩ := List.exists_cons_of_ne_nil h
  unfold percentEncode percentEncodeByte
  rw [List.flatMap_cons]
  split_ifs <;> exact List.cons_ne_nil _ _

/-! ## `strtoul` -/

theorem digitValue_lt {c : UInt8} (h : isHexDigit c = true) : digitValue c < 16 := by
  have hall : ∀ n < 256, isHexDigit (UInt8.ofNat n) = true → digitValue (UInt8.ofNat n) < 16 := by
    decide +kernel
  simpa using hall c.toNat c.toNat_lt (by simpa using h)

/-- A digit is no NUL, no white space, no sign and not the mark of a base. -/
theorem isHexDigit_spec {c : UInt8} (h : isHexDigit c = true) :
    c ≠ 0 ∧ isSpace c = false ∧ c ≠ plus ∧ c ≠ minus ∧ toLower c ≠ 120 := by
  have hall : ∀ n < 256, isHexDigit (UInt8.ofNat n) = true → UInt8.ofNat n ≠ 0 ∧
      isSpace (UInt8.ofNat n) = false ∧ UInt8.ofNat n ≠ plus ∧ UInt8.ofNat n ≠ minus ∧
      toLower (UInt8.ofNat n) ≠ 120 := by
    decide +kernel
  simpa using hall c.toNat c.toNat_lt (by simpa using h)

/-- **What `strtoul` reads**: an optional sign and a run of digits. -/
theorem strtoulHex_eq (s : Bytes) : ∃ negative digits,
    strtoulHex s = Numeral.toUnsigned ⟨negative, digitsValue 16 digits⟩ ∧
      digits.Sublist s ∧ ∀ c ∈ digits, isHexDigit c = true := by
  have hskip : (skipSpace s).Sublist s := List.dropWhile_sublist _
  have hsign : (splitSign (skipSpace s)).2.Sublist (skipSpace s) := by
    unfold splitSign skip?
    rcases skipSpace s with _ | ⟨c, rest⟩
    · exact List.Sublist.refl _
    · dsimp only
      split_ifs <;> simp
  refine ⟨(splitSign (skipSpace s)).1, _, rfl, ?_, fun c hc => ?_⟩
  · refine (List.takeWhile_sublist _).trans (List.Sublist.trans ?_ (hsign.trans hskip))
    split_ifs
    · exact List.drop_sublist _ _
    · exact List.Sublist.refl _
  · exact List.mem_takeWhile_imp hc

/-- The value of two hexadecimal digits. -/
theorem strtoulHex_digits {a b : UInt8} (ha : isHexDigit a = true) (hb : isHexDigit b = true) :
    UInt8.ofNat (strtoulHex (cstr [a, b])) = escaped a b := by
  obtain ⟨ha0, hspace, hplus, hminus, -⟩ := isHexDigit_spec ha
  obtain ⟨hb0, -, -, -, hmark⟩ := isHexDigit_spec hb
  have hcstr : cstr [a, b] = [a, b] := cstr_eq_self (by simp [ha0.symm, hb0.symm])
  have hskip : skipSpace [a, b] = [a, b] := List.dropWhile_cons_of_neg (by rw [hspace]; decide)
  have hsign : splitSign [a, b] = (false, [a, b]) := by
    simp [splitSign, skip?, hplus, hminus]
  have hbase : ¬literal "0x" <+: [a, b].map toLower := by
    have hliteral : literal "0x" = [48, 120] := by decide
    rw [hliteral]
    simp [List.cons_prefix_cons, hmark.symm]
  have hvalue : digitsValue 16 [a, b] < 256 := by
    have hda := digitValue_lt ha
    have hdb := digitValue_lt hb
    simp only [digitsValue, List.foldl_cons, List.foldl_nil]
    omega
  have hspan : (spanDigits isHexDigit [a, b]).1 = [a, b] := by
    simp [spanDigits, ha, hb]
  have hsmall : ¬2 ^ 32 ≤ digitsValue 16 [a, b] := by omega
  rw [hcstr, strtoulHex, hskip, hsign]
  simp only [hbase, false_and, if_false, hspan, Numeral.toUnsigned, hsmall]
  rfl

/-- A run of one digit, or none, has no value that makes a percent sign. -/
theorem toUnsigned_ne_percent (negative : Bool) {magnitude : ℕ} (h : magnitude < 16) :
    UInt8.ofNat (Numeral.toUnsigned ⟨negative, magnitude⟩) ≠ percent := by
  have hall : ∀ negative, ∀ n < 16,
      UInt8.ofNat (Numeral.toUnsigned ⟨negative, n⟩) ≠ percent := by decide
  exact hall negative magnitude h

/-- Of two characters that are not both digits `strtoul` reads one digit at most. -/
theorem strtoulHex_ne_percent {a b : UInt8} (h : ¬(isHexDigit a = true ∧ isHexDigit b = true)) :
    UInt8.ofNat (strtoulHex (cstr [a, b])) ≠ percent := by
  obtain ⟨negative, digits, hvalue, hsublist, hdigits⟩ := strtoulHex_eq (cstr [a, b])
  have hsub : digits.Sublist [a, b] := hsublist.trans (List.takeWhile_sublist _)
  rw [hvalue]
  refine toUnsigned_ne_percent negative ?_
  rcases digits with _ | ⟨c, _ | ⟨d, digits⟩⟩
  · decide
  · have hc := digitValue_lt (hdigits c List.mem_cons_self)
    simpa [digitsValue] using hc
  · -- two digits would be both characters
    have hlength : (c :: d :: digits).length = [a, b].length :=
      hsub.length_le.antisymm (Nat.le_add_left 2 _)
    have hall := hsub.eq_of_length hlength
    exact absurd ⟨hdigits a (hall ▸ List.mem_cons_self),
      hdigits b (hall ▸ List.mem_cons_of_mem _ List.mem_cons_self)⟩ h

end RbProtocol
