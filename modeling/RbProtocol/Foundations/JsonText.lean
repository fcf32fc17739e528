import RbProtocol.Foundations.Strtod

/-!
# The JSON grammar

JSON texts as RFC 8259 defines them, over bytes, and a decoder for them.

* `Reads phrase text rest`: a text begins with a phrase, and `rest` is behind it. The phrase is a
  value, or the members of an object or the items of an array up to the closing bracket; it carries
  what it denotes.
* `Sentence text v`: the text is a value between white space.
* `decode` reads a text from the front, and what it accepts is a sentence (`sentence_of_decode`).
* `Sentence.no_control`: no sentence has a control character but tab, newline and carriage return.

A byte above 127 is a character of a string.
-/

namespace RbProtocol

open Ascii

/-- What a JSON text denotes. -/
inductive Json
  | object (members : List (Bytes × Json))
  | array (items : List Json)
  | string (text : Bytes)
  | number (value : ℚ)
  | bool (value : Bool)
  | null

namespace JsonText

/-! ## Characters -/

/-- White space. -/
def isWs (c : UInt8) : Bool := c = space || c = tab || c = newline || c = carriageReturn

/-- A control character that is not white space. No text may have one. -/
def isControl (c : UInt8) : Bool := c < 32 && !isWs c

/-- A character of a string that stands for itself. -/
def isUnescaped (c : UInt8) : Bool := 32 ≤ c && c ≠ quote && c ≠ backslash

/-- The characters behind a backslash, with what they stand for. -/
def shortEscapes : List (UInt8 × UInt8) :=
  [(quote, quote), (backslash, backslash), (slash, slash), (98, backspace), (102, formFeed),
    (110, newline), (114, carriageReturn), (116, tab)]

/-- The UTF-8 encoding of a code point. -/
def utf8 (n : ℕ) : Bytes :=
  if n < 0x80 then [UInt8.ofNat n]
  else if n < 0x800 then [UInt8.ofNat (0xC0 + n / 0x40), UInt8.ofNat (0x80 + n % 0x40)]
  else if n < 0x10000 then
    [UInt8.ofNat (0xE0 + n / 0x1000), UInt8.ofNat (0x80 + n / 0x40 % 0x40),
      UInt8.ofNat (0x80 + n % 0x40)]
  else
    [UInt8.ofNat (0xF0 + n / 0x40000), UInt8.ofNat (0x80 + n / 0x1000 % 0x40),
      UInt8.ofNat (0x80 + n / 0x40 % 0x40), UInt8.ofNat (0x80 + n % 0x40)]

/-- A `\u` escape, behind the backslash: the code unit, and the text behind it. -/
def codeUnit? : Bytes → Option (ℕ × Bytes)
  | u :: a :: b :: c :: d :: rest =>
    if u = 117 ∧ [a, b, c, d].all isHexDigit then some (digitsValue 16 [a, b, c, d], rest) else none
  | _ => none

/-- The code point that a code unit begins: two surrogates are one, and one without the other stands
for U+FFFD. -/
def codePoint (unit : ℕ) (rest : Bytes) : ℕ × Bytes :=
  if unit / 0x400 = 0x36 then
    match rest.head?, codeUnit? rest.tail with
    | some 92, some (low, rest') =>
      if low / 0x400 = 0x37 then (0x10000 + unit % 0x400 * 0x400 + low % 0x400, rest')
      else (0xFFFD, rest)
    | _, _ => (0xFFFD, rest)
  else if unit / 0x400 = 0x37 then (0xFFFD, rest)
  else (unit, rest)

/-! ## The grammar -/

/-- White space in front of the rest. -/
inductive Space : Bytes → Bytes → Prop
  | nil {rest} : Space rest rest
  | cons {c text rest} : isWs c = true → Space text rest → Space (c :: text) rest

/-- The characters of a string, up to the closing quotation mark, with the text they stand for. -/
inductive Chars : Bytes → Bytes → Bytes → Prop
  | close {rest} : Chars [] (quote :: rest) rest
  | plain {c s text rest} : isUnescaped c = true → Chars s text rest →
      Chars (c :: s) (c :: text) rest
  | short {e c s text rest} : (e, c) ∈ shortEscapes → Chars s text rest →
      Chars (c :: s) (backslash :: e :: text) rest
  | unicode {unit point s text text' rest' rest} : codeUnit? text = some (unit, text') →
      codePoint unit text' = (point, rest') → Chars s rest' rest →
      Chars (utf8 point ++ s) (backslash :: text) rest

/-- One or more digits. -/
def Digits (digits : Bytes) : Prop := digits ≠ [] ∧ ∀ c ∈ digits, isDigit c = true

/-- The sign of a number, as a factor. -/
inductive Minus : ℚ → Bytes → Prop
  | none : Minus 1 []
  | minus : Minus (-1) [minus]

/-- The integer part: no zero in front of other digits. -/
inductive IntPart : ℚ → Bytes → Prop
  | mk {digits} : Digits digits → (digits.head? = some 48 → digits.length = 1) →
      IntPart (digitsValue 10 digits) digits

/-- The digits behind the decimal point. -/
inductive Frac : ℚ → Bytes → Prop
  | none : Frac 0 []
  | digits {digits} : Digits digits →
      Frac (digitsValue 10 digits / 10 ^ digits.length) (dot :: digits)

/-- The exponent, as a factor. -/
inductive Exp : ℚ → Bytes → Prop
  | none : Exp 1 []
  | digits {e sign digits} : e = 69 ∨ e = 101 → sign = [] ∨ sign = [plus] → Digits digits →
      Exp (10 ^ digitsValue 10 digits) (e :: sign ++ digits)
  | negative {e digits} : e = 69 ∨ e = 101 → Digits digits →
      Exp ((10 ^ digitsValue 10 digits)⁻¹) (e :: minus :: digits)

/-- What a text can be read as: a value, the members of an object up to the closing brace, or the
items of an array up to the closing bracket. -/
inductive Phrase
  | value (v : Json)
  | members (members : List (Bytes × Json))
  | items (items : List Json)

/-- A text begins with a phrase, and `rest` is behind it. -/
inductive Reads : Phrase → Bytes → Bytes → Prop
  | true {rest} : Reads (.value (.bool true)) (116 :: 114 :: 117 :: 101 :: rest) rest
  | false {rest} : Reads (.value (.bool false)) (102 :: 97 :: 108 :: 115 :: 101 :: rest) rest
  | null {rest} : Reads (.value .null) (110 :: 117 :: 108 :: 108 :: rest) rest
  | number {sign whole frac exp m i f x rest} : Minus sign m → IntPart whole i → Frac frac f →
      Exp exp x →
      Reads (.value (.number (sign * (whole + frac) * exp))) (m ++ i ++ f ++ x ++ rest) rest
  | string {s text rest} : Chars s text rest → Reads (.value (.string s)) (quote :: text) rest
  | emptyArray {text rest} : Space text (closeBracket :: rest) →
      Reads (.value (.array [])) (openBracket :: text) rest
  | array {items text text' rest} : Space text text' → Reads (.items items) text' rest →
      Reads (.value (.array items)) (openBracket :: text) rest
  | lastItem {v text text' rest} : Reads (.value v) text text' →
      Space text' (closeBracket :: rest) → Reads (.items [v]) text rest
  | item {v items text text' behind next rest} : Reads (.value v) text text' →
      Space text' (comma :: behind) → Space behind next → Reads (.items items) next rest →
      Reads (.items (v :: items)) text rest
  | emptyObject {text rest} : Space text (closeBrace :: rest) →
      Reads (.value (.object [])) (openBrace :: text) rest
  | object {members text text' rest} : Space text text' → Reads (.members members) text' rest →
      Reads (.value (.object members)) (openBrace :: text) rest
  | lastMember {key v text afterKey value front text' rest} : Chars key text afterKey →
      Space afterKey (colon :: value) → Space value front → Reads (.value v) front text' →
      Space text' (closeBrace :: rest) → Reads (.members [(key, v)]) (quote :: text) rest
  | member {key v members text afterKey value front text' behind next rest} :
      Chars key text afterKey → Space afterKey (colon :: value) → Space value front →
      Reads (.value v) front text' → Space text' (comma :: behind) → Space behind next →
      Reads (.members members) next rest →
      Reads (.members ((key, v) :: members)) (quote :: text) rest

/-- A JSON text with what it denotes. -/
def Sentence (text : Bytes) (v : Json) : Prop :=
  ∃ front behind, Space text front ∧ Reads (.value v) front behind ∧ Space behind []

/-! ## Control characters -/

/-- The control characters of a text are all behind the part that was read. -/
def NoControl (text rest : Bytes) : Prop := ∀ c ∈ text, isControl c = true → c ∈ rest

theorem NoControl.trans {text mid rest : Bytes} (h : NoControl text mid) (h' : NoControl mid rest) :
    NoControl text rest := fun c hc hcontrol => h' c (h c hc hcontrol) hcontrol

theorem NoControl.cons {c : UInt8} {text rest : Bytes} (hc : isControl c = false)
    (h : NoControl text rest) : NoControl (c :: text) rest := by
  intro d hd hcontrol
  rcases List.mem_cons.1 hd with rfl | hd
  · rw [hc] at hcontrol
    cases hcontrol
  · exact h d hd hcontrol

theorem NoControl.refl (text : Bytes) : NoControl text text := fun _ hc _ => hc

theorem noControl_append (text : Bytes) (h : ∀ c ∈ text, isControl c = false) (rest : Bytes) :
    NoControl (text ++ rest) rest := by
  induction text with
  | nil => exact .refl rest
  | cons c text ih =>
    exact .cons (h c List.mem_cons_self) (ih fun d hd => h d (List.mem_cons_of_mem _ hd))

theorem isControl_of_le {c : UInt8} (h : 32 ≤ c) : isControl c = false := by
  rw [isControl, decide_eq_false (UInt8.not_lt.2 h), Bool.false_and]

theorem isControl_digit {c : UInt8} (h : isHexDigit c = true) : isControl c = false := by
  refine isControl_of_le ?_
  simp only [isHexDigit, isDigit, Bool.or_eq_true, Bool.and_eq_true, decide_eq_true_eq,
    UInt8.le_iff_toNat_le] at h ⊢
  have h48 : (48 : UInt8).toNat = 48 := rfl
  have h65 : (65 : UInt8).toNat = 65 := rfl
  have h97 : (97 : UInt8).toNat = 97 := rfl
  have h32 : (32 : UInt8).toNat = 32 := rfl
  omega

theorem Space.noControl {text rest : Bytes} (h : Space text rest) : NoControl text rest := by
  induction h with
  | nil => exact .refl _
  | cons hc _ ih => exact .cons (by rw [isControl, hc, Bool.not_true, Bool.and_false]) ih

theorem codeUnit_noControl {text rest : Bytes} {unit : ℕ} (h : codeUnit? text = some (unit, rest)) :
    NoControl text rest := by
  rw [codeUnit?.eq_def] at h
  split at h
  · rename_i u a b c d rest'
    split_ifs at h with hunit
    obtain ⟨rfl, rfl⟩ := Prod.mk.inj (Option.some.inj h)
    obtain ⟨rfl, hdigits⟩ := hunit
    refine noControl_append [117, a, b, c, d] ?_ rest'
    rw [List.all_eq_true] at hdigits
    exact List.forall_mem_cons.2 ⟨by decide, fun e he => isControl_digit (hdigits e he)⟩
  · cases h

theorem codePoint_noControl {unit point : ℕ} {text rest : Bytes}
    (h : codePoint unit text = (point, rest)) : NoControl text rest := by
  rw [codePoint] at h
  split_ifs at h
  · split at h
    · rename_i low rest' hhead hunit
      split_ifs at h
      · obtain ⟨-, rfl⟩ := Prod.mk.inj h
        rw [List.eq_cons_of_mem_head? hhead]
        exact .cons (by decide) (codeUnit_noControl hunit)
      · exact (Prod.mk.inj h).2 ▸ .refl _
    · exact (Prod.mk.inj h).2 ▸ .refl _
  · exact (Prod.mk.inj h).2 ▸ .refl _
  · exact (Prod.mk.inj h).2 ▸ .refl _

theorem isControl_shortEscapes {p : UInt8 × UInt8} (h : p ∈ shortEscapes) :
    isControl p.1 = false := by
  have hall : shortEscapes.all (fun p => !isControl p.1) = true := rfl
  simpa using List.all_eq_true.1 hall p h

theorem Chars.noControl {s text rest : Bytes} (h : Chars s text rest) : NoControl text rest := by
  induction h with
  | close => exact .cons (by decide) (.refl _)
  | plain hc _ ih =>
    rw [isUnescaped, Bool.and_eq_true, Bool.and_eq_true, decide_eq_true_eq] at hc
    exact .cons (isControl_of_le hc.1.1) ih
  | short hc _ ih =>
    exact .cons (by decide) (.cons (isControl_shortEscapes hc) ih)
  | unicode hunit hpoint _ ih =>
    exact .cons (by decide)
      ((codeUnit_noControl hunit).trans ((codePoint_noControl hpoint).trans ih))

theorem Digits.noControl {digits : Bytes} (h : Digits digits) :
    ∀ c ∈ digits, isControl c = false := by
  intro c hc
  refine isControl_digit ?_
  rw [isHexDigit, h.2 c hc]
  rfl

theorem Reads.noControl {phrase : Phrase} {text rest : Bytes} (h : Reads phrase text rest) :
    NoControl text rest := by
  induction h with
  | true => exact .cons rfl (.cons rfl (.cons rfl (.cons rfl (.refl _))))
  | false => exact .cons rfl (.cons rfl (.cons rfl (.cons rfl (.cons rfl (.refl _)))))
  | null => exact .cons rfl (.cons rfl (.cons rfl (.cons rfl (.refl _))))
  | number hm hi hf hx =>
    refine noControl_append _ ?_ _
    simp only [List.mem_append]
    rintro c (((hc | hc) | hc) | hc)
    · cases hm with
      | none => cases hc
      | minus => exact List.mem_singleton.1 hc ▸ rfl
    · cases hi with
      | mk hdigits => exact hdigits.noControl c hc
    · cases hf with
      | none => cases hc
      | digits hdigits =>
        exact (List.mem_cons.1 hc).elim (fun h => h ▸ rfl) (hdigits.noControl c)
    · cases hx with
      | none => cases hc
      | digits he hsign hdigits =>
        simp only [List.cons_append, List.mem_cons, List.mem_append] at hc
        rcases hc with rfl | hc | hc
        · rcases he with rfl | rfl <;> rfl
        · rcases hsign with rfl | rfl
          · cases hc
          · exact List.mem_singleton.1 hc ▸ rfl
        · exact hdigits.noControl c hc
      | negative he hdigits =>
        simp only [List.mem_cons] at hc
        rcases hc with rfl | rfl | hc
        · rcases he with rfl | rfl <;> rfl
        · rfl
        · exact hdigits.noControl c hc
  | string hs => exact .cons rfl hs.noControl
  | emptyArray hws => exact .cons rfl (hws.noControl.trans (.cons rfl (.refl _)))
  | array hws _ ih => exact .cons rfl (hws.noControl.trans ih)
  | lastItem _ hws ih => exact ih.trans (hws.noControl.trans (.cons rfl (.refl _)))
  | item _ hws hws' _ ih ih' =>
    exact ih.trans (hws.noControl.trans (.cons rfl (hws'.noControl.trans ih')))
  | emptyObject hws => exact .cons rfl (hws.noControl.trans (.cons rfl (.refl _)))
  | object hws _ ih => exact .cons rfl (hws.noControl.trans ih)
  | lastMember hkey hws hws' _ hws'' ih =>
    exact .cons rfl (hkey.noControl.trans (hws.noControl.trans (.cons rfl
      (hws'.noControl.trans (ih.trans (hws''.noControl.trans (.cons rfl (.refl _))))))))
  | member hkey hws hws' _ hws'' hws₃ _ ih ih' =>
    exact .cons rfl (hkey.noControl.trans (hws.noControl.trans (.cons rfl
      (hws'.noControl.trans (ih.trans (hws''.noControl.trans (.cons rfl
        (hws₃.noControl.trans ih'))))))))

/-- **No sentence has a control character** that is not white space. -/
theorem Sentence.no_control {text : Bytes} {v : Json} (h : Sentence text v) :
    ∀ c ∈ text, isControl c = false := by
  obtain ⟨front, behind, hfront, hv, hbehind⟩ := h
  intro c hc
  rw [Bool.eq_false_iff]
  intro hcontrol
  cases (hfront.noControl.trans (hv.noControl.trans hbehind.noControl)) c hc hcontrol

/-! ## The decoder -/

/-- Behind white space. -/
def skipWs (text : Bytes) : Bytes := text.dropWhile isWs

/-- An escape, behind the backslash. -/
def decodeEscape (text : Bytes) : Option (Bytes × Bytes) :=
  match codeUnit? text with
  | some (unit, text') => some (utf8 (codePoint unit text').1, (codePoint unit text').2)
  | none =>
    match text with
    | [] => none
    | e :: text => (shortEscapes.lookup e).map fun c => ([c], text)

/-- The characters of a string, up to the closing quotation mark. The number bounds the calls. -/
def decodeChars : ℕ → Bytes → Option (Bytes × Bytes)
  | 0, _ => none
  | _ + 1, [] => none
  | fuel + 1, c :: text =>
    if c = quote then some ([], text)
    else if isUnescaped c then (decodeChars fuel text).map fun (s, rest) => (c :: s, rest)
    else if c ≠ backslash then none
    else
      (decodeEscape text).bind fun (e, text) =>
        (decodeChars fuel text).map fun (s, rest) => (e ++ s, rest)

/-- The sign of a number. -/
def decodeMinus : Bytes → ℚ × Bytes
  | c :: text => if c = minus then (-1, text) else (1, c :: text)
  | [] => (1, [])

/-- One or more digits. -/
def decodeDigits (text : Bytes) : Option (Bytes × Bytes) :=
  let (digits, rest) := spanDigits isDigit text
  if digits = [] then none else some (digits, rest)

/-- The integer part. -/
def decodeInt (text : Bytes) : Option (ℚ × Bytes) :=
  match decodeDigits text with
  | none => none
  | some (digits, rest) =>
    if digits.head? = some 48 ∧ digits.length ≠ 1 then none
    else some (digitsValue 10 digits, rest)

/-- The digits behind the decimal point. -/
def decodeFrac : Bytes → Option (ℚ × Bytes)
  | [] => some (0, [])
  | c :: text =>
    if c = dot then
      (decodeDigits text).map fun (digits, rest) =>
        (digitsValue 10 digits / 10 ^ digits.length, rest)
    else some (0, c :: text)

/-- The exponent. -/
def decodeExp : Bytes → Option (ℚ × Bytes)
  | [] => some (1, [])
  | c :: text =>
    if c = 69 ∨ c = 101 then
      if text.head? = some minus then
        (decodeDigits text.tail).map fun (digits, rest) => ((10 ^ digitsValue 10 digits)⁻¹, rest)
      else
        (decodeDigits (if text.head? = some plus then text.tail else text)).map
          fun (digits, rest) => (10 ^ digitsValue 10 digits, rest)
    else some (1, c :: text)

/-- A number. -/
def decodeNumber (text : Bytes) : Option (ℚ × Bytes) := do
  let (sign, text) := decodeMinus text
  let (whole, text) ← decodeInt text
  let (frac, text) ← decodeFrac text
  let (exp, rest) ← decodeExp text
  return (sign * (whole + frac) * exp, rest)

/-- A word at the front of a text. -/
def decodeWord (word : Bytes) (v : Json) (text : Bytes) : Option (Json × Bytes) :=
  if word <+: text then some (v, text.drop word.length) else none

/-- A character behind white space. -/
def expect (c : UInt8) (text : Bytes) : Option Bytes :=
  match skipWs text with
  | [] => none
  | d :: rest => if d = c then some rest else none

mutual

/-- A value. The number bounds the nesting of the calls. -/
def decodeValue : ℕ → Bytes → Option (Json × Bytes)
  | 0, _ => none
  | _ + 1, [] => none
  | fuel + 1, c :: text =>
    if c = openBrace then
      match expect closeBrace text with
      | some rest => some (.object [], rest)
      | none =>
        (decodeMembers fuel (skipWs text)).map fun (members, rest) => (.object members, rest)
    else if c = openBracket then
      match expect closeBracket text with
      | some rest => some (.array [], rest)
      | none => (decodeItems fuel (skipWs text)).map fun (items, rest) => (.array items, rest)
    else if c = quote then
      (decodeChars (text.length + 1) text).map fun (s, rest) => (.string s, rest)
    else if c = 116 then decodeWord [116, 114, 117, 101] (.bool true) (c :: text)
    else if c = 102 then decodeWord [102, 97, 108, 115, 101] (.bool false) (c :: text)
    else if c = 110 then decodeWord [110, 117, 108, 108] .null (c :: text)
    else (decodeNumber (c :: text)).map fun (q, rest) => (.number q, rest)
termination_by structural fuel => fuel

/-- The members of an object, up to the closing brace. -/
def decodeMembers : ℕ → Bytes → Option (List (Bytes × Json) × Bytes)
  | 0, _ => none
  | _ + 1, [] => none
  | fuel + 1, c :: text =>
    if c = quote then do
      let (key, text) ← decodeChars (text.length + 1) text
      let text ← expect colon text
      let (v, text) ← decodeValue fuel (skipWs text)
      match expect closeBrace text with
      | some rest => some ([(key, v)], rest)
      | none =>
        let text ← expect comma text
        let (members, rest) ← decodeMembers fuel (skipWs text)
        some ((key, v) :: members, rest)
    else none
termination_by structural fuel => fuel

/-- The items of an array, up to the closing bracket. -/
def decodeItems : ℕ → Bytes → Option (List Json × Bytes)
  | 0, _ => none
  | fuel + 1, text => do
    let (v, text) ← decodeValue fuel text
    match expect closeBracket text with
    | some rest => some ([v], rest)
    | none =>
      let text ← expect comma text
      let (items, rest) ← decodeItems fuel (skipWs text)
      some (v :: items, rest)
termination_by structural fuel => fuel

end

/-- A JSON text, from the first byte to the last. -/
def decode (text : Bytes) : Option Json :=
  match decodeValue (text.length + 1) (skipWs text) with
  | none => none
  | some (v, rest) => if skipWs rest = [] then some v else none

/-! ## What the decoder accepts -/

theorem space_skipWs (text : Bytes) : Space text (skipWs text) := by
  induction text with
  | nil => exact .nil
  | cons c text ih =>
    rw [skipWs]
    cases hc : isWs c with
    | true =>
      rw [List.dropWhile_cons_of_pos hc]
      exact .cons hc ih
    | false =>
      rw [List.dropWhile_cons_of_neg (by simp [hc])]
      exact .nil

theorem space_of_expect {c : UInt8} {text rest : Bytes} (h : expect c text = some rest) :
    Space text (c :: rest) := by
  have hspace := space_skipWs text
  rw [expect] at h
  split at h
  · cases h
  · rename_i d rest' hskip
    split_ifs at h with hd
    obtain rfl := Option.some.inj h
    rwa [hskip, hd] at hspace

theorem mem_of_lookup {e c : UInt8} {pairs : List (UInt8 × UInt8)} (h : pairs.lookup e = some c) :
    (e, c) ∈ pairs := by
  induction pairs with
  | nil => cases h
  | cons p pairs ih =>
    rw [List.lookup_cons] at h
    split at h
    · rename_i heq
      obtain rfl := Option.some.inj h
      rw [beq_iff_eq.1 heq]
      exact List.mem_cons_self
    · exact List.mem_cons_of_mem _ (ih h)

theorem chars_of_escape {e s text text' rest : Bytes} (h : decodeEscape text = some (e, text'))
    (hs : Chars s text' rest) : Chars (e ++ s) (backslash :: text) rest := by
  rw [decodeEscape.eq_def] at h
  split at h
  · rename_i unit behind hunit
    obtain ⟨rfl, rfl⟩ := Prod.mk.inj (Option.some.inj h)
    exact .unicode hunit rfl hs
  · split at h
    · cases h
    · obtain ⟨c, hlookup, heq⟩ := Option.map_eq_some_iff.1 h
      obtain ⟨rfl, rfl⟩ := Prod.mk.inj heq
      exact .short (mem_of_lookup hlookup) hs

theorem chars_of_decode {fuel : ℕ} {s text rest : Bytes}
    (h : decodeChars fuel text = some (s, rest)) : Chars s text rest := by
  induction fuel generalizing s text with
  | zero => cases h
  | succ fuel ih =>
    cases text with
    | nil => cases h
    | cons c text =>
      rw [decodeChars] at h
      split_ifs at h with hquote hplain hback
      · obtain ⟨rfl, rfl⟩ := Prod.mk.inj (Option.some.inj h)
        rw [hquote]
        exact .close
      · obtain ⟨⟨s', rest'⟩, hrest, heq⟩ := Option.map_eq_some_iff.1 h
        obtain ⟨rfl, rfl⟩ := Prod.mk.inj heq
        exact .plain hplain (ih hrest)
      · obtain ⟨⟨e, text'⟩, hescape, h⟩ := Option.bind_eq_some_iff.1 h
        obtain ⟨⟨s', rest'⟩, hrest, heq⟩ := Option.map_eq_some_iff.1 h
        obtain ⟨rfl, rfl⟩ := Prod.mk.inj heq
        rw [not_not.1 hback]
        exact chars_of_escape hescape (ih hrest)

theorem digits_of_decode {digits text rest : Bytes}
    (h : decodeDigits text = some (digits, rest)) : Digits digits ∧ text = digits ++ rest := by
  rw [decodeDigits, spanDigits] at h
  simp only at h
  split_ifs at h with hne
  obtain ⟨rfl, rfl⟩ := Prod.mk.inj (Option.some.inj h)
  exact ⟨⟨hne, fun c hc => List.mem_takeWhile_imp hc⟩, List.takeWhile_append_dropWhile.symm⟩

theorem minus_of_decode (text : Bytes) :
    ∃ m, Minus (decodeMinus text).1 m ∧ text = m ++ (decodeMinus text).2 := by
  cases text with
  | nil => exact ⟨[], .none, rfl⟩
  | cons c text =>
    rw [decodeMinus]
    split_ifs with hc
    · exact ⟨[minus], .minus, by rw [hc]; rfl⟩
    · exact ⟨[], .none, rfl⟩

theorem int_of_decode {whole : ℚ} {text rest : Bytes} (h : decodeInt text = some (whole, rest)) :
    ∃ i, IntPart whole i ∧ text = i ++ rest := by
  rw [decodeInt] at h
  split at h
  · cases h
  · rename_i digits rest' hdigits
    split_ifs at h with hzero
    obtain ⟨rfl, rfl⟩ := Prod.mk.inj (Option.some.inj h)
    obtain ⟨hd, heq⟩ := digits_of_decode hdigits
    exact ⟨digits, .mk hd fun hhead => not_not.1 (not_and.1 hzero hhead), heq⟩

theorem frac_of_decode {frac : ℚ} {text rest : Bytes} (h : decodeFrac text = some (frac, rest)) :
    ∃ f, Frac frac f ∧ text = f ++ rest := by
  cases text with
  | nil =>
    obtain ⟨rfl, rfl⟩ := Prod.mk.inj (Option.some.inj h)
    exact ⟨[], .none, rfl⟩
  | cons c text =>
    rw [decodeFrac] at h
    split_ifs at h with hc
    · obtain ⟨⟨digits, rest'⟩, hdigits, heq⟩ := Option.map_eq_some_iff.1 h
      obtain ⟨rfl, rfl⟩ := Prod.mk.inj heq
      obtain ⟨hd, heq⟩ := digits_of_decode hdigits
      exact ⟨dot :: digits, .digits hd, by rw [hc, heq]; rfl⟩
    · obtain ⟨rfl, rfl⟩ := Prod.mk.inj (Option.some.inj h)
      exact ⟨[], .none, rfl⟩

theorem exp_of_decode {exp : ℚ} {text rest : Bytes} (h : decodeExp text = some (exp, rest)) :
    ∃ x, Exp exp x ∧ text = x ++ rest := by
  cases text with
  | nil =>
    obtain ⟨rfl, rfl⟩ := Prod.mk.inj (Option.some.inj h)
    exact ⟨[], .none, rfl⟩
  | cons c text =>
    rw [decodeExp] at h
    split_ifs at h with hc hminus hplus
    · obtain ⟨⟨digits, rest'⟩, hdigits, heq⟩ := Option.map_eq_some_iff.1 h
      obtain ⟨rfl, rfl⟩ := Prod.mk.inj heq
      obtain ⟨hd, heq⟩ := digits_of_decode hdigits
      refine ⟨c :: minus :: digits, .negative hc hd, ?_⟩
      rw [List.eq_cons_of_mem_head? hminus, heq]
      rfl
    · obtain ⟨⟨digits, rest'⟩, hdigits, heq⟩ := Option.map_eq_some_iff.1 h
      obtain ⟨rfl, rfl⟩ := Prod.mk.inj heq
      obtain ⟨hd, heq⟩ := digits_of_decode hdigits
      refine ⟨c :: [plus] ++ digits, .digits hc (.inr rfl) hd, ?_⟩
      rw [List.eq_cons_of_mem_head? hplus, heq]
      rfl
    · obtain ⟨⟨digits, rest'⟩, hdigits, heq⟩ := Option.map_eq_some_iff.1 h
      obtain ⟨rfl, rfl⟩ := Prod.mk.inj heq
      obtain ⟨hd, heq⟩ := digits_of_decode hdigits
      exact ⟨c :: [] ++ digits, .digits hc (.inl rfl) hd, by rw [heq]; rfl⟩
    · obtain ⟨rfl, rfl⟩ := Prod.mk.inj (Option.some.inj h)
      exact ⟨[], .none, rfl⟩

theorem number_of_decode {q : ℚ} {text rest : Bytes} (h : decodeNumber text = some (q, rest)) :
    Reads (.value (.number q)) text rest := by
  obtain ⟨m, hm, htext⟩ := minus_of_decode text
  rcases hminus : decodeMinus text with ⟨sign, text₀⟩
  rw [hminus] at hm htext
  rw [decodeNumber, hminus] at h
  obtain ⟨⟨whole, text₁⟩, hwhole, h⟩ := Option.bind_eq_some_iff.1 h
  obtain ⟨⟨frac, text₂⟩, hfrac, h⟩ := Option.bind_eq_some_iff.1 h
  obtain ⟨⟨exp, text₃⟩, hexp, h⟩ := Option.bind_eq_some_iff.1 h
  obtain ⟨rfl, rfl⟩ := Prod.mk.inj (Option.some.inj h)
  obtain ⟨i, hi, htext₁⟩ := int_of_decode hwhole
  obtain ⟨f, hf, htext₂⟩ := frac_of_decode hfrac
  obtain ⟨x, hx, htext₃⟩ := exp_of_decode hexp
  rw [htext, htext₁, htext₂, htext₃, ← List.append_assoc, ← List.append_assoc, ← List.append_assoc]
  exact .number hm hi hf hx

theorem word_of_decode {word text rest : Bytes} {v w : Json}
    (h : decodeWord word v text = some (w, rest)) : w = v ∧ text = word ++ rest := by
  rw [decodeWord] at h
  split_ifs at h with hword
  obtain ⟨rfl, rfl⟩ := Prod.mk.inj (Option.some.inj h)
  exact ⟨rfl, (List.prefix_iff_eq_append.1 hword).symm⟩

/-- What the decoder reads with at most `fuel` nested calls is in the text. -/
structure DecodeSound (fuel : ℕ) : Prop where
  value : ∀ {v text rest}, decodeValue fuel text = some (v, rest) → Reads (.value v) text rest
  members : ∀ {members text rest},
    decodeMembers fuel text = some (members, rest) → Reads (.members members) text rest
  items : ∀ {items text rest},
    decodeItems fuel text = some (items, rest) → Reads (.items items) text rest

theorem DecodeSound.succ_value {fuel : ℕ} (ih : DecodeSound fuel) {v : Json} {text rest : Bytes}
    (h : decodeValue (fuel + 1) text = some (v, rest)) : Reads (.value v) text rest := by
  cases text with
  | nil => cases h
  | cons c text =>
    rw [decodeValue] at h
    split_ifs at h with hbrace hbracket hquote ht hf hn
    · rw [hbrace]
      split at h
      · rename_i rest' hclose
        obtain ⟨rfl, rfl⟩ := Prod.mk.inj (Option.some.inj h)
        exact .emptyObject (space_of_expect hclose)
      · obtain ⟨⟨members, rest'⟩, hmembers, heq⟩ := Option.map_eq_some_iff.1 h
        obtain ⟨rfl, rfl⟩ := Prod.mk.inj heq
        exact .object (space_skipWs text) (ih.members hmembers)
    · rw [hbracket]
      split at h
      · rename_i rest' hclose
        obtain ⟨rfl, rfl⟩ := Prod.mk.inj (Option.some.inj h)
        exact .emptyArray (space_of_expect hclose)
      · obtain ⟨⟨items, rest'⟩, hitems, heq⟩ := Option.map_eq_some_iff.1 h
        obtain ⟨rfl, rfl⟩ := Prod.mk.inj heq
        exact .array (space_skipWs text) (ih.items hitems)
    · obtain ⟨⟨s, rest'⟩, hs, heq⟩ := Option.map_eq_some_iff.1 h
      obtain ⟨rfl, rfl⟩ := Prod.mk.inj heq
      rw [hquote]
      exact .string (chars_of_decode hs)
    · obtain ⟨rfl, heq⟩ := word_of_decode h
      exact heq ▸ .true
    · obtain ⟨rfl, heq⟩ := word_of_decode h
      exact heq ▸ .false
    · obtain ⟨rfl, heq⟩ := word_of_decode h
      exact heq ▸ .null
    · obtain ⟨⟨q, rest'⟩, hq, heq⟩ := Option.map_eq_some_iff.1 h
      obtain ⟨rfl, rfl⟩ := Prod.mk.inj heq
      exact number_of_decode hq

theorem DecodeSound.succ_members {fuel : ℕ} (ih : DecodeSound fuel)
    {members : List (Bytes × Json)} {text rest : Bytes}
    (h : decodeMembers (fuel + 1) text = some (members, rest)) :
    Reads (.members members) text rest := by
  cases text with
  | nil => cases h
  | cons c text =>
    rw [decodeMembers] at h
    split_ifs at h with hquote
    obtain ⟨⟨key, text₁⟩, hkey, h⟩ := Option.bind_eq_some_iff.1 h
    obtain ⟨text₂, hcolon, h⟩ := Option.bind_eq_some_iff.1 h
    obtain ⟨⟨v, text₃⟩, hv, h⟩ := Option.bind_eq_some_iff.1 h
    rw [hquote]
    simp only at h
    split at h
    · rename_i rest' hclose
      obtain ⟨rfl, rfl⟩ := Prod.mk.inj (Option.some.inj h)
      exact .lastMember (chars_of_decode hkey) (space_of_expect hcolon) (space_skipWs text₂)
        (ih.value hv) (space_of_expect hclose)
    · obtain ⟨text₄, hcomma, h⟩ := Option.bind_eq_some_iff.1 h
      obtain ⟨⟨members', rest'⟩, hmembers, h⟩ := Option.bind_eq_some_iff.1 h
      obtain ⟨rfl, rfl⟩ := Prod.mk.inj (Option.some.inj h)
      exact .member (chars_of_decode hkey) (space_of_expect hcolon) (space_skipWs text₂)
        (ih.value hv) (space_of_expect hcomma) (space_skipWs text₄) (ih.members hmembers)

theorem DecodeSound.succ_items {fuel : ℕ} (ih : DecodeSound fuel) {items : List Json}
    {text rest : Bytes} (h : decodeItems (fuel + 1) text = some (items, rest)) :
    Reads (.items items) text rest := by
  rw [decodeItems] at h
  obtain ⟨⟨v, text₁⟩, hv, h⟩ := Option.bind_eq_some_iff.1 h
  simp only at h
  split at h
  · rename_i rest' hclose
    obtain ⟨rfl, rfl⟩ := Prod.mk.inj (Option.some.inj h)
    exact .lastItem (ih.value hv) (space_of_expect hclose)
  · obtain ⟨text₂, hcomma, h⟩ := Option.bind_eq_some_iff.1 h
    obtain ⟨⟨items', rest'⟩, hitems, h⟩ := Option.bind_eq_some_iff.1 h
    obtain ⟨rfl, rfl⟩ := Prod.mk.inj (Option.some.inj h)
    exact .item (ih.value hv) (space_of_expect hcomma) (space_skipWs text₂) (ih.items hitems)

theorem decodeSound (fuel : ℕ) : DecodeSound fuel := by
  induction fuel with
  | zero =>
    constructor
    · intro v text rest h
      cases h
    · intro members text rest h
      cases h
    · intro items text rest h
      cases h
  | succ fuel ih => exact ⟨ih.succ_value, ih.succ_members, ih.succ_items⟩

/-- **What the decoder accepts is a sentence**, and denotes what the decoder gives. -/
theorem sentence_of_decode {text : Bytes} {v : Json} (h : decode text = some v) :
    Sentence text v := by
  rw [decode] at h
  split at h
  · cases h
  · rename_i w rest hvalue
    split_ifs at h with hrest
    obtain rfl := Option.some.inj h
    exact ⟨_, _, space_skipWs text, (decodeSound _).value hvalue, hrest ▸ space_skipWs rest⟩

/-! ## Running the decoder -/

theorem skipWs_cons {c : UInt8} (hc : isWs c = false) (text : Bytes) :
    skipWs (c :: text) = c :: text :=
  List.dropWhile_cons_of_neg (by simp [hc])

theorem expect_cons {d : UInt8} (hd : isWs d = false) (c : UInt8) (text : Bytes) :
    expect c (d :: text) = if d = c then some text else none := by
  rw [expect, skipWs_cons hd]

theorem codeUnit_of_ne {c : UInt8} (hc : c ≠ 117) (text : Bytes) :
    codeUnit? (c :: text) = none := by
  rw [codeUnit?.eq_def]
  split
  · rename_i u a b c' d rest heq
    rw [if_neg]
    intro hu
    exact hc ((List.cons.inj heq).1.trans hu.1)
  · rfl

theorem decodeChars_plain {c : UInt8} (hc : isUnescaped c = true) (fuel : ℕ) (text : Bytes) :
    decodeChars (fuel + 1) (c :: text) =
      (decodeChars fuel text).map fun (s, rest) => (c :: s, rest) := by
  have hquote : c ≠ quote := by
    rintro rfl
    cases hc
  rw [decodeChars, if_neg hquote, if_pos hc]

theorem decodeChars_short {e c : UInt8} (he : e ≠ 117) (hc : shortEscapes.lookup e = some c)
    (fuel : ℕ) (text : Bytes) : decodeChars (fuel + 1) (backslash :: e :: text) =
      (decodeChars fuel text).map fun (s, rest) => (c :: s, rest) := by
  have hescape : decodeEscape (e :: text) = some ([c], text) := by
    rw [decodeEscape.eq_def, codeUnit_of_ne he]
    simp only
    rw [hc, Option.map_some]
  rw [decodeChars, if_neg (by decide), if_neg (by decide), if_neg (by decide), hescape]
  rfl

/-- What may stand behind an integer. -/
def EndsNumber (rest : Bytes) : Prop :=
  ∀ c ∈ rest.head?, isDigit c = false ∧ c ≠ dot ∧ c ≠ 69 ∧ c ≠ 101

theorem decodeDigits_append {digits rest : Bytes} (h : Digits digits) (hrest : EndsNumber rest) :
    decodeDigits (digits ++ rest) = some (digits, rest) := by
  have hstop : rest.takeWhile isDigit = [] := by
    cases rest with
    | nil => rfl
    | cons c rest =>
      exact List.takeWhile_cons_of_neg (by simp [(hrest c rfl).1])
  have htake : (digits ++ rest).takeWhile isDigit = digits := by
    rw [List.takeWhile_append_of_pos h.2, hstop, List.append_nil]
  have hdrop : (digits ++ rest).dropWhile isDigit = rest := by
    have heq := List.takeWhile_append_dropWhile (p := isDigit) (l := digits ++ rest)
    rw [htake] at heq
    exact List.append_cancel_left heq
  rw [decodeDigits, spanDigits]
  simp only [htake, hdrop]
  rw [if_neg h.1]

theorem decodeFrac_none {rest : Bytes} (hrest : EndsNumber rest) :
    decodeFrac rest = some (0, rest) := by
  cases rest with
  | nil => rfl
  | cons c rest => rw [decodeFrac, if_neg (hrest c rfl).2.1]

theorem decodeExp_none {rest : Bytes} (hrest : EndsNumber rest) :
    decodeExp rest = some (1, rest) := by
  cases rest with
  | nil => rfl
  | cons c rest =>
    rw [decodeExp, if_neg]
    intro hc
    exact hc.elim (hrest c rfl).2.2.1 (hrest c rfl).2.2.2

/-- An integer, read up to its end. -/
theorem decodeNumber_integer (negative : Bool) {digits rest : Bytes} (h : Digits digits)
    (hzero : digits.head? = some 48 → digits.length = 1) (hrest : EndsNumber rest) :
    decodeNumber ((if negative then minus :: digits else digits) ++ rest) =
      some ((if negative then -1 else 1) * (digitsValue 10 digits : ℚ), rest) := by
  have hminus : decodeMinus ((if negative then minus :: digits else digits) ++ rest) =
      (if negative then -1 else 1, digits ++ rest) := by
    cases negative with
    | true => rfl
    | false =>
      obtain ⟨hne, hdigits⟩ := h
      cases digits with
      | nil => exact absurd rfl hne
      | cons c digits =>
        have hc : c ≠ minus := by
          rintro rfl
          exact absurd (hdigits minus List.mem_cons_self) (by decide)
        exact if_neg hc
  have hint : decodeInt (digits ++ rest) = some ((digitsValue 10 digits : ℚ), rest) := by
    rw [decodeInt, decodeDigits_append h hrest]
    simp only
    rw [if_neg]
    intro hhead
    exact hhead.2 (hzero hhead.1)
  rw [decodeNumber, hminus]
  simp only [hint, decodeFrac_none hrest, decodeExp_none hrest, bind, Option.bind, pure, add_zero,
    mul_one]

/-- A number begins with a minus or a digit. -/
theorem decodeValue_number {c : UInt8} (hc : c = minus ∨ isDigit c = true) (fuel : ℕ)
    (text : Bytes) : decodeValue (fuel + 1) (c :: text) =
      (decodeNumber (c :: text)).map fun (q, rest) => (.number q, rest) := by
  have hne {d : UInt8} (hd : d ≠ minus ∧ isDigit d = false) : c ≠ d := by
    rintro rfl
    rcases hc with hc | hc
    · exact hd.1 hc
    · rw [hd.2] at hc
      cases hc
  rw [decodeValue, if_neg (hne (by decide)), if_neg (hne (by decide)), if_neg (hne (by decide)),
    if_neg (hne (by decide)), if_neg (hne (by decide)), if_neg (hne (by decide))]

theorem decodeWord_append (word : Bytes) (v : Json) (rest : Bytes) :
    decodeWord word v (word ++ rest) = some (v, rest) := by
  rw [decodeWord, if_pos (List.prefix_append _ _), List.drop_left]

end JsonText

end RbProtocol
