import RbProtocol.Foundations.Ascii

/-!
# The vendored `printf`

The three conversions of `mpaland-printf` that the JSON code uses: `"%lld"`, `"%.4f"` and
`"%.*s"`. Numbers are written to a 32-byte buffer from the last digit to the first, and the buffer
is output in reverse. On values below `10 ^ 31` nothing is cut off: the digits of `"%lld"` have the
value that was formatted (`formatLongLong_eq`).
-/

namespace RbProtocol

open Ascii

/-- `PRINTF_NTOA_BUFFER_SIZE` and `PRINTF_FTOA_BUFFER_SIZE`. -/
def printfBufferSize : ℕ := 32

/-- The digit loop, with `room` bytes left in the buffer: the last digit comes first. -/
def printfDigits : ℕ → ℕ → Bytes
  | 0, _ => []
  | room + 1, value =>
    UInt8.ofNat (48 + value % 10) :: if value / 10 = 0 then [] else printfDigits room (value / 10)

/-- The end of `_ntoa_format` and `_ftoa`: the sign, and the buffer in reverse. -/
def printfSigned (buf : Bytes) (negative : Bool) : Bytes :=
  (if negative && buf.length < printfBufferSize then buf ++ [minus] else buf).reverse

/-- `_ntoa_long_long`, as `"%lld"` calls it: base 10, no flags, no width and no precision. -/
def ntoaLongLong (value : ℕ) (negative : Bool) : Bytes :=
  printfSigned (printfDigits printfBufferSize value) negative

/-- `"%lld"`. -/
def formatLongLong (value : ℤ) : Bytes := ntoaLongLong value.natAbs (value < 0)

/-- `_ftoa`, as `"%.4f"` calls it: precision 4, no other flags and no width. The value is a finite
`float` of at most `PRINTF_MAX_FLOAT`, on which the arithmetic of the code is exact. -/
def ftoa (value : ℚ) : Bytes :=
  let negative := value < 0
  let value := |value|
  let whole := ⌊value⌋.toNat
  let tmp := (value - whole) * 10000
  let frac := ⌊tmp⌋.toNat
  let diff := tmp - frac
  let (frac, whole) :=
    if 1 / 2 < diff then if 10000 ≤ frac + 1 then (0, whole + 1) else (frac + 1, whole)
    else if diff < 1 / 2 then (frac, whole)
    else if frac = 0 ∨ frac % 2 = 1 then (frac + 1, whole)
    else (frac, whole)
  let digits := printfDigits printfBufferSize frac
  -- `count` is unsigned: a fifth digit would wrap it around, and zeros would fill the buffer
  let count := if digits.length ≤ 4 then 4 - digits.length else printfBufferSize
  let buf := digits ++ List.replicate (min count (printfBufferSize - digits.length)) 48
  let buf := if buf.length < printfBufferSize then buf ++ [dot] else buf
  printfSigned (buf ++ printfDigits (printfBufferSize - buf.length) whole) negative

/-- `snprintf (buf, size, "%.*s", len, str)` for `len > 0`: the C string it leaves in the buffer. -/
def snprintfPrefix (size len : ℕ) (str : Bytes) : Bytes := (cstr (str.take len)).take (size - 1)

/-! ## Digits -/

theorem printfDigits_isDigit {room value : ℕ} {c : UInt8} (h : c ∈ printfDigits room value) :
    isDigit c = true := by
  induction room generalizing value with
  | zero => simp [printfDigits] at h
  | succ room ih =>
    rw [printfDigits, List.mem_cons] at h
    rcases h with rfl | h
    · have hmod := Nat.mod_lt value (show 0 < 10 by decide)
      generalize value % 10 = d at hmod
      interval_cases d <;> decide
    · split_ifs at h
      · simp at h
      · exact ih h

theorem digitValue_ofNat {d : ℕ} (h : d < 10) : digitValue (UInt8.ofNat (48 + d)) = d := by
  interval_cases d <;> decide

/-- One digit less is left, and there is one left. -/
theorem div_ten_lt {value k : ℕ} (h : value < 10 ^ (k + 1)) (hne : ¬value / 10 = 0) :
    value / 10 < 10 ^ k ∧ 0 < k := by
  have hdiv : value / 10 < 10 ^ k := by
    rw [pow_succ] at h
    omega
  refine ⟨hdiv, Nat.pos_of_ne_zero ?_⟩
  rintro rfl
  rw [pow_zero] at hdiv
  omega

/-- The digits that fit the buffer have the value that was formatted. -/
theorem digitsValue_printfDigits {room value : ℕ} (h : value < 10 ^ room) (hroom : 0 < room) :
    digitsValue 10 (printfDigits room value).reverse = value := by
  induction room generalizing value with
  | zero => omega
  | succ room ih =>
    rw [printfDigits, List.reverse_cons, digitsValue, List.foldl_append]
    simp only [List.foldl_cons, List.foldl_nil, digitValue_ofNat (Nat.mod_lt value (by decide))]
    split_ifs with hlast
    · simp only [List.reverse_nil, List.foldl_nil]
      omega
    · obtain ⟨hdiv, hroom'⟩ := div_ten_lt h hlast
      have hrest := ih hdiv hroom'
      rw [digitsValue] at hrest
      rw [hrest]
      omega

theorem printfDigits_ne_nil {room value : ℕ} (h : 0 < room) : printfDigits room value ≠ [] := by
  obtain ⟨k, rfl⟩ : ∃ k, room = k + 1 := ⟨room - 1, by omega⟩
  simp [printfDigits]

theorem length_printfDigits_le {room value k : ℕ} (h : value < 10 ^ k) (hk : 0 < k) :
    (printfDigits room value).length ≤ k := by
  induction room generalizing value k with
  | zero => simp [printfDigits]
  | succ room ih =>
    rw [printfDigits, List.length_cons]
    split_ifs with hlast
    · exact hk
    · obtain ⟨k, rfl⟩ : ∃ j, k = j + 1 := ⟨k - 1, by omega⟩
      obtain ⟨hdiv, hk'⟩ := div_ten_lt h hlast
      have := ih hdiv hk'
      omega

theorem ofNat_eq_zeroDigit {d : ℕ} (hd : d < 10) (h : UInt8.ofNat (48 + d) = 48) : d = 0 := by
  interval_cases d <;> first | rfl | cases h

/-- No zero is in front of other digits. -/
theorem length_printfDigits_of_zero {room value : ℕ} (h : value < 10 ^ room) (hroom : 0 < room)
    (hzero : (printfDigits room value).getLast? = some 48) :
    (printfDigits room value).length = 1 := by
  induction room generalizing value with
  | zero => omega
  | succ room ih =>
    rw [printfDigits] at hzero ⊢
    split_ifs at hzero ⊢ with hlast
    · rfl
    · exfalso
      obtain ⟨hdiv, hroom'⟩ := div_ten_lt h hlast
      have hne : printfDigits room (value / 10) ≠ [] := printfDigits_ne_nil hroom'
      rw [List.getLast?_cons_of_ne_nil hne] at hzero
      have hone := ih hdiv hroom' hzero
      obtain ⟨k, rfl⟩ : ∃ k, room = k + 1 := ⟨room - 1, by omega⟩
      rw [printfDigits] at hone hzero
      split_ifs at hone hzero with hnext
      · have hd := ofNat_eq_zeroDigit (Nat.mod_lt _ (by decide)) (Option.some.inj hzero)
        omega
      · rw [List.length_cons, Nat.add_eq_right, List.length_eq_zero_iff] at hone
        exact absurd hone (printfDigits_ne_nil (by
          obtain ⟨-, hk⟩ := div_ten_lt hdiv hnext
          exact hk))

/-- **The text of an integer** of less than 31 digits: a sign if it is negative, and digits of its
absolute value. -/
theorem formatLongLong_eq {n : ℤ} (h : n.natAbs < 10 ^ 31) :
    ∃ digits : Bytes, digits ≠ [] ∧ (∀ c ∈ digits, isDigit c = true) ∧
      digitsValue 10 digits = n.natAbs ∧
      (∀ k, 0 < k → n.natAbs < 10 ^ k → digits.length ≤ k) ∧
      (digits.head? = some 48 → digits.length = 1) ∧
      formatLongLong n = if n < 0 then minus :: digits else digits := by
  have hlen : (printfDigits printfBufferSize n.natAbs).length ≤ 31 :=
    length_printfDigits_le h (by decide)
  refine ⟨(printfDigits printfBufferSize n.natAbs).reverse, ?_, ?_, ?_, fun k hk hlt => ?_,
    fun hzero => ?_, ?_⟩
  · simpa using printfDigits_ne_nil (by decide)
  · intro c hc
    exact printfDigits_isDigit (List.mem_reverse.1 hc)
  · exact digitsValue_printfDigits (h.trans (by decide)) (by decide)
  · rw [List.length_reverse]
    exact length_printfDigits_le hlt hk
  · rw [List.head?_reverse] at hzero
    rw [List.length_reverse]
    exact length_printfDigits_of_zero (h.trans (by decide)) (by decide) hzero
  · rw [formatLongLong, ntoaLongLong, printfSigned]
    have hroom : (printfDigits printfBufferSize n.natAbs).length < printfBufferSize := by
      rw [printfBufferSize] at hlen ⊢
      omega
    by_cases hn : n < 0 <;> simp [hn, hroom]

/-! ## The first characters -/

/-- A text that starts with a digit, perhaps behind a sign. -/
def StartsNumber (text : Bytes) : Prop :=
  ∃ c rest, isDigit c = true ∧ (text = c :: rest ∨ text = minus :: c :: rest)

theorem exists_getLast?_printfDigits {room value : ℕ} (h : 0 < room) :
    ∃ c, (printfDigits room value).getLast? = some c ∧ isDigit c = true :=
  have hne := @printfDigits_ne_nil room value h
  ⟨_, List.getLast?_eq_some_getLast hne, printfDigits_isDigit (List.getLast_mem hne)⟩

theorem startsNumber_printfSigned {buf : Bytes} {c : UInt8} (hlast : buf.getLast? = some c)
    (hc : isDigit c = true) (negative : Bool) : StartsNumber (printfSigned buf negative) := by
  obtain ⟨front, rfl⟩ := List.getLast?_eq_some_iff.1 hlast
  rw [printfSigned]
  split_ifs
  · exact ⟨c, front.reverse, hc, .inr (by simp)⟩
  · exact ⟨c, front.reverse, hc, .inl (by simp)⟩

theorem startsNumber_formatLongLong (n : ℤ) : StartsNumber (formatLongLong n) := by
  obtain ⟨c, hlast, hc⟩ := @exists_getLast?_printfDigits printfBufferSize n.natAbs (by decide)
  exact startsNumber_printfSigned hlast hc _

/-- The last character in the buffer is a digit of the whole part, or the buffer is full of those of
the fraction. -/
theorem startsNumber_ftoa (q : ℚ) : StartsNumber (ftoa q) := by
  unfold ftoa
  extract_lets negative value whole tmp frac diff
  split
  rename_i frac' whole' _
  extract_lets digits count buf buf'
  have hlength : buf.length = digits.length + min count (printfBufferSize - digits.length) := by
    simp [buf]
  by_cases hfew : digits.length ≤ 4
  · have hbuf' : buf'.length < printfBufferSize := by
      have hcount : count = 4 - digits.length := if_pos hfew
      have hle : buf.length ≤ 4 := by omega
      simp only [buf']
      split_ifs with hroom
      · rw [List.length_append, List.length_singleton, printfBufferSize]
        omega
      · rw [printfBufferSize]
        omega
    obtain ⟨c, hlast, hc⟩ := @exists_getLast?_printfDigits _ whole' (Nat.sub_pos_of_lt hbuf')
    refine startsNumber_printfSigned (c := c) ?_ hc _
    rw [List.getLast?_append, hlast, Option.some_or]
  · have hcount : count = printfBufferSize := if_neg hfew
    have hfull : ¬buf.length < printfBufferSize := by omega
    have hbuf' : buf' = buf := if_neg hfull
    rw [hbuf', Nat.sub_eq_zero_of_le (not_lt.1 hfull), printfDigits, List.append_nil]
    have hne : buf ≠ [] := by
      simp [buf, digits, printfDigits_ne_nil (show 0 < printfBufferSize by decide)]
    refine startsNumber_printfSigned (List.getLast?_eq_some_getLast hne) ?_ _
    rcases List.mem_append.1 (List.getLast_mem hne) with hmem | hmem
    · exact printfDigits_isDigit hmem
    · rw [List.eq_of_mem_replicate hmem]
      rfl

/-- The front of a number in a buffer. -/
theorem StartsNumber.snprintfPrefix {text : Bytes} (h : StartsNumber text) :
    StartsNumber (snprintfPrefix 32 text.length text) := by
  obtain ⟨c, rest, hc, htext⟩ := h
  have hne : c ≠ 0 := by
    rintro rfl
    cases hc
  rw [RbProtocol.snprintfPrefix, List.take_length, cstr]
  rcases htext with rfl | rfl
  · exact ⟨c, (cstr rest).take 30, hc, .inl (by simp [cstr, hne])⟩
  · exact ⟨c, (cstr rest).take 29, hc, .inr (by simp [cstr, hne, minus])⟩

end RbProtocol
