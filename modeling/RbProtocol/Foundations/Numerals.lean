import RbProtocol.Foundations.JsonText

/-!
# Numbers in JSON texts

`strtod` on a number of the JSON grammar: it reads all of it, and gives the `double` nearest to what
the number denotes (`strtod_number`).
-/

namespace RbProtocol.JsonText

open Ascii Library

/-! ## Digits -/

theorem digitsValue_append (base : ℕ) (a b : Bytes) :
    digitsValue base (a ++ b) = digitsValue base a * base ^ b.length + digitsValue base b := by
  induction b using List.reverseRecOn with
  | nil => simp [digitsValue]
  | append_singleton b c ih =>
    have hsnoc : ∀ s : Bytes, digitsValue base (s ++ [c]) =
        digitsValue base s * base + digitValue c := fun s => by
      rw [digitsValue, digitsValue, List.foldl_append]
      rfl
    rw [← List.append_assoc, hsnoc, ih, hsnoc, List.length_append, List.length_singleton, pow_succ]
    ring

/-- A run of digits ends where another character comes. -/
theorem spanDigits_append {digits rest : Bytes} (h : ∀ c ∈ digits, isDigit c = true)
    (hrest : ∀ c ∈ rest.head?, isDigit c = false) :
    spanDigits isDigit (digits ++ rest) = (digits, rest) := by
  have htake : rest.takeWhile isDigit = [] := by
    cases rest with
    | nil => rfl
    | cons c rest => exact List.takeWhile_cons_of_neg (by simp [hrest c rfl])
  have hdrop : rest.dropWhile isDigit = rest := by
    cases rest with
    | nil => rfl
    | cons c rest => exact List.dropWhile_cons_of_neg (by simp [hrest c rfl])
  rw [spanDigits, List.takeWhile_append_of_pos h, List.dropWhile_append_of_pos h, htake, hdrop,
    List.append_nil]

/-! ## The parts of a number -/

/-- The characters of a number. -/
def IsNumeral (c : UInt8) : Prop :=
  isDigit c = true ∨ c = minus ∨ c = plus ∨ c = dot ∨ c = 69 ∨ c = 101

theorem Minus.isNumeral {sign : ℚ} {m : Bytes} (h : Minus sign m) : ∀ c ∈ m, IsNumeral c := by
  cases h with
  | none => exact List.forall_mem_nil _
  | minus => exact fun c hc => .inr (.inl (List.mem_singleton.1 hc))

theorem Digits.isNumeral {digits : Bytes} (h : Digits digits) : ∀ c ∈ digits, IsNumeral c :=
  fun c hc => .inl (h.2 c hc)

theorem IntPart.isNumeral {whole : ℚ} {i : Bytes} (h : IntPart whole i) : ∀ c ∈ i, IsNumeral c := by
  cases h with
  | mk hdigits => exact Digits.isNumeral hdigits

/-- The integer part begins with a digit. -/
theorem IntPart.cons {whole : ℚ} {i : Bytes} (h : IntPart whole i) :
    ∃ c rest, i = c :: rest ∧ isDigit c = true := by
  cases h with
  | mk hdigits _ =>
    obtain ⟨c, rest, rfl⟩ := List.exists_cons_of_ne_nil hdigits.1
    exact ⟨c, rest, rfl, hdigits.2 c List.mem_cons_self⟩

theorem Frac.isNumeral {frac : ℚ} {f : Bytes} (h : Frac frac f) : ∀ c ∈ f, IsNumeral c := by
  cases h with
  | none => exact List.forall_mem_nil _
  | digits hdigits =>
    exact List.forall_mem_cons.2 ⟨.inr (.inr (.inr (.inl rfl))), Digits.isNumeral hdigits⟩

/-- The letter of an exponent. -/
theorem isNumeral_mark {e : UInt8} (h : e = 69 ∨ e = 101) : IsNumeral e :=
  .inr (.inr (.inr (.inr h)))

theorem Exp.isNumeral {exp : ℚ} {x : Bytes} (h : Exp exp x) : ∀ c ∈ x, IsNumeral c := by
  cases h with
  | none => exact List.forall_mem_nil _
  | digits he hsign hdigits =>
    refine List.forall_mem_cons.2 ⟨isNumeral_mark he,
      List.forall_mem_append.2 ⟨?_, Digits.isNumeral hdigits⟩⟩
    rcases hsign with rfl | rfl
    · exact List.forall_mem_nil _
    · exact fun c hc => .inr (.inr (.inl (List.mem_singleton.1 hc)))
  | negative he hdigits =>
    exact List.forall_mem_cons.2 ⟨isNumeral_mark he,
      List.forall_mem_cons.2 ⟨.inr (.inl rfl), Digits.isNumeral hdigits⟩⟩

theorem isNumeral_number {sign whole frac exp : ℚ} {m i f x : Bytes} (hm : Minus sign m)
    (hi : IntPart whole i) (hf : Frac frac f) (hx : Exp exp x) :
    ∀ c ∈ m ++ i ++ f ++ x, IsNumeral c := by
  simp only [List.forall_mem_append]
  exact ⟨⟨⟨hm.isNumeral, hi.isNumeral⟩, hf.isNumeral⟩, hx.isNumeral⟩

/-- What follows the fraction is no digit. -/
theorem Exp.head? {exp : ℚ} {x : Bytes} (hx : Exp exp x) : ∀ c ∈ x.head?, isDigit c = false := by
  cases hx with
  | none => exact fun c hc => by cases hc
  | digits he _ _ =>
    rintro c ⟨⟩
    rcases he with rfl | rfl <;> rfl
  | negative he _ =>
    rintro c ⟨⟩
    rcases he with rfl | rfl <;> rfl

/-- What follows the integer part is no digit. -/
theorem Frac.head? {frac exp : ℚ} {f x : Bytes} (hf : Frac frac f) (hx : Exp exp x) :
    ∀ c ∈ (f ++ x).head?, isDigit c = false := by
  cases hf with
  | none => exact hx.head?
  | digits _ =>
    rintro c ⟨⟩
    rfl

/-! ## `strtod` -/

theorem strtodExponent_exp {exp : ℚ} {x : Bytes} (h : Exp exp x) :
    (10 : ℚ) ^ strtodExponent [69, 101] x = exp := by
  have hskip {e : UInt8} (he : e = 69 ∨ e = 101) (rest : Bytes) :
      skip? [69, 101] (e :: rest) = some rest := by
    rcases he with rfl | rfl <;> rfl
  cases h with
  | none => rfl
  | @digits e sign digits he hsign hdigits =>
    have hsplit : splitSign (sign ++ digits) = (false, digits) := by
      rcases hsign with rfl | rfl
      · exact splitSign_digits hdigits.2
      · rfl
    rw [strtodExponent, List.cons_append, hskip he]
    simp only [hsplit, spanDigits_all hdigits.2, Bool.false_eq_true, if_false]
    exact zpow_natCast 10 _
  | @negative e digits he hdigits =>
    have hsplit : splitSign (minus :: digits) = (true, digits) := rfl
    rw [strtodExponent, hskip he]
    simp only [hsplit, spanDigits_all hdigits.2, if_true]
    rw [zpow_neg, zpow_natCast]

/-- The digits of a number, with its point and its exponent. -/
theorem strtodNumber_number {whole frac exp : ℚ} {i f x : Bytes} (hi : IntPart whole i)
    (hf : Frac frac f) (hx : Exp exp x) :
    strtodNumber 10 10 isDigit [69, 101] (i ++ (f ++ x)) = some ((whole + frac) * exp) := by
  cases hi with
  | mk hdigits _ =>
    rw [strtodNumber, spanDigits_append hdigits.2 (hf.head? hx)]
    cases hf with
    | none =>
      have hskip : skip? [dot] ([] ++ x) = none := by
        cases hx with
        | none => rfl
        | digits he _ _ => rcases he with rfl | rfl <;> rfl
        | negative he _ => rcases he with rfl | rfl <;> rfl
      simp only [hskip, List.append_nil, if_neg hdigits.1]
      simp [strtodExponent_exp hx]
    | @digits frac' hfrac =>
      have hskip : skip? [dot] (dot :: frac' ++ x) = some (frac' ++ x) := rfl
      have hne : i ++ frac' ≠ [] := by simp [hdigits.1]
      simp only [hskip, spanDigits_append hfrac.2 hx.head?, if_neg hne, digitsValue_append,
        Nat.cast_ofNat, strtodExponent_exp hx]
      push_cast
      rw [add_div, mul_div_cancel_right₀ _ (by positivity)]

/-- The letters of the other things that `strtod` reads are in no number. -/
theorem IsNumeral.toLower_ne {c : UInt8} (h : IsNumeral c) :
    toLower c ≠ 105 ∧ toLower c ≠ 110 ∧ toLower c ≠ 120 := by
  rcases h with hc | rfl | rfl | rfl | rfl | rfl
  · rw [toLower_digit hc]
    refine ⟨?_, ?_, ?_⟩ <;> rintro rfl <;> revert hc <;> decide
  all_goals decide

theorem strtodUnsigned_number {whole frac exp : ℚ} {i f x : Bytes} (hi : IntPart whole i)
    (hf : Frac frac f) (hx : Exp exp x) :
    strtodUnsigned (i ++ (f ++ x)) = some (.round binary64 ((whole + frac) * exp)) := by
  have hall : ∀ c ∈ i ++ (f ++ x), IsNumeral c := by
    rw [← List.append_assoc]
    exact isNumeral_number .none hi hf hx
  have hnot {word : Bytes} {d : UInt8} (hd : d ∈ word) (hne : ∀ c, IsNumeral c → toLower c ≠ d) :
      ¬word <+: (i ++ (f ++ x)).map toLower := fun hword => by
    obtain ⟨c, hc, heq⟩ := List.mem_map.1 (hword.subset hd)
    exact hne c (hall c hc) heq
  rw [strtodUnsigned]
  simp only
  rw [if_neg (hnot (d := 105) (by decide) fun c hc => hc.toLower_ne.1),
    if_neg (hnot (d := 110) (by decide) fun c hc => hc.toLower_ne.2.1),
    if_neg (hnot (d := 120) (by decide) fun c hc => hc.toLower_ne.2.2),
    strtodNumber_number hi hf hx]
  rfl

/-- A value is rounded as the one with the other sign. -/
theorem negateFloat_round (fmt : FloatFormat) (q : ℚ) :
    negateFloat (.round fmt q) = .round fmt (-q) := by
  have hulp : BinaryFloat.ulp fmt (-q) = BinaryFloat.ulp fmt q := by
    rw [BinaryFloat.ulp, BinaryFloat.ulp, abs_neg]
  have hr : (roundHalfEven (-q / BinaryFloat.ulp fmt (-q)) : ℚ) * BinaryFloat.ulp fmt (-q) =
      -(roundHalfEven (q / BinaryFloat.ulp fmt q) * BinaryFloat.ulp fmt q) := by
    rw [hulp, neg_div, roundHalfEven_neg, Int.cast_neg, neg_mul]
  rw [BinaryFloat.round, BinaryFloat.round]
  simp only [hr]
  generalize (roundHalfEven (q / BinaryFloat.ulp fmt q) : ℚ) * BinaryFloat.ulp fmt q = r
  rw [abs_neg]
  split_ifs with hbig
  · have hne : r ≠ 0 := by
      rintro rfl
      rw [abs_zero] at hbig
      exact absurd hbig (not_le.2 (by positivity))
    have hsign : (!decide (r < 0)) = decide (-r < 0) := by
      rw [← decide_not, decide_eq_decide, not_lt, neg_lt_zero]
      exact ⟨fun h => lt_of_le_of_ne h hne.symm, le_of_lt⟩
    rw [negateFloat, hsign]
  · rfl

/-- The sign in front of a digit. -/
theorem strtod_sign {sign : ℚ} {m : Bytes} (hm : Minus sign m) {c : UInt8} (hc : isDigit c = true)
    (rest : Bytes) : strtod (m ++ c :: rest) =
      (strtodUnsigned (c :: rest)).map fun x => if m = [] then x else negateFloat x := by
  cases hm with
  | none =>
    have hdrop : (c :: rest).dropWhile isSpace = c :: rest := by
      have hone : ([c] : Bytes).dropWhile isSpace = [c] := dropWhile_isSpace_digits (by simpa)
      have hspace : ¬isSpace c = true := fun hspace => by
        rw [List.dropWhile_cons_of_pos hspace] at hone
        cases hone
      exact List.dropWhile_cons_of_neg hspace
    have hsign : splitSign (c :: rest) = (false, c :: rest) := by
      have hminus : c ≠ minus := by
        rintro rfl
        exact absurd hc (by decide)
      have hplus : c ≠ plus := by
        rintro rfl
        exact absurd hc (by decide)
      simp [splitSign, skip?, hminus, hplus]
    rw [List.nil_append, strtod, hdrop, hsign]
    rfl
  | minus => rfl

/-- **`strtod` reads the numbers of JSON.** -/
theorem strtod_number {sign whole frac exp : ℚ} {m i f x : Bytes} (hm : Minus sign m)
    (hi : IntPart whole i) (hf : Frac frac f) (hx : Exp exp x) :
    strtod (m ++ i ++ f ++ x) = some (.round binary64 (sign * (whole + frac) * exp)) := by
  have hunsigned := strtodUnsigned_number hi hf hx
  obtain ⟨c, rest, hcons, hc⟩ := hi.cons
  rw [hcons, List.cons_append] at hunsigned
  rw [List.append_assoc, List.append_assoc, hcons, List.cons_append, strtod_sign hm hc, hunsigned]
  cases hm with
  | none => simp only [Option.map_some, if_true, one_mul]
  | minus =>
    rw [Option.map_some, if_neg (List.cons_ne_nil _ _), negateFloat_round, neg_one_mul, neg_mul]

/-- `strtod` finds a number wherever a digit comes behind the sign. -/
theorem exists_strtod {sign : ℚ} {m : Bytes} (hm : Minus sign m) {c : UInt8} (hc : isDigit c = true)
    (rest : Bytes) : ∃ x, strtod (m ++ c :: rest) = some x := by
  have hunsigned : ∃ x, strtodUnsigned (c :: rest) = some x := by
    have hnumber : ∃ q, strtodNumber 10 10 isDigit [69, 101] (c :: rest) = some q := by
      have hne (frac : Bytes) : (spanDigits isDigit (c :: rest)).1 ++ frac ≠ [] := by
        rw [spanDigits, List.takeWhile_cons_of_pos hc]
        exact List.cons_ne_nil _ _
      rw [strtodNumber]
      exact ⟨_, if_neg (hne _)⟩
    obtain ⟨q, hq⟩ := hnumber
    rw [strtodUnsigned, hq]
    simp only
    split_ifs
    · exact ⟨_, rfl⟩
    · exact ⟨_, rfl⟩
    · split
      · exact ⟨_, rfl⟩
      · exact ⟨_, rfl⟩
    · exact ⟨_, rfl⟩
  obtain ⟨x, hx⟩ := hunsigned
  rw [strtod_sign hm hc, hx]
  exact ⟨_, rfl⟩

end RbProtocol.JsonText
