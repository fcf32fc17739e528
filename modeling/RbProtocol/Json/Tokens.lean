import RbProtocol.Json.Parse

/-!
# The tokens of a serialized value

On the text of a value the tokenizer appends the tokens `Value.toks`, in preorder, and counts the
value in its super token (`parseLoop_value`). Behind a scalar the super token stays; behind an
object or array it is the innermost one still open. The members of an object need a step more: each
key takes over as super token, until the comma or the closing brace gives the object back. The token
of a string covers the text that `write_string_escaped` writes, escapes included.
-/

namespace RbProtocol.Json

open Ascii Library Jsmn

/-! ## Plain values -/

/-- Text without NUL and without the characters `write_string_escaped` escapes. -/
def PlainText (text : Bytes) : Prop := ∀ c ∈ text, c ≠ nul ∧ escapes.lookup c = none

instance (text : Bytes) : Decidable (PlainText text) :=
  inferInstanceAs (Decidable (∀ c ∈ text, c ≠ nul ∧ escapes.lookup c = none))

mutual

/-- A value whose strings and keys are plain, whose numbers are integers of at most `2 ^ 24` and
whose objects are as `Object::set` builds them. -/
def Value.Plain : Value → Prop
  | .object members => Object.WellFormed members ∧ PlainMembers members
  | .array items => PlainItems items
  | .string value => PlainText value
  | .number value => ∃ n : ℤ, |n| ≤ 2 ^ 24 ∧ value = .finite n
  | .bool _ => True
  | .nil => True
termination_by structural v => v

/-- Members with plain names and values. -/
def PlainMembers : List (Member Value) → Prop
  | [] => True
  | member :: members => member.Plain ∧ PlainMembers members
termination_by structural members => members

/-- A member with a plain name and value. -/
def Member.Plain : Member Value → Prop
  | ⟨name, value⟩ => PlainText name ∧ value.Plain
termination_by structural member => member

/-- Plain items. -/
def PlainItems : List Value → Prop
  | [] => True
  | item :: items => item.Plain ∧ PlainItems items
termination_by structural items => items

end

/-- What `write_string_escaped` writes between the quotes. -/
def escapedText (str : Bytes) : Bytes := (cstr str).flatMap escapeChar

/-- An object or an array. -/
def Value.isContainer : Value → Bool
  | .object _ => true
  | .array _ => true
  | _ => false

/-! ## The tokens -/

section Toks

variable (outOfRange : BinaryFloat → ℤ)

mutual

/-- The tokens of a value whose text starts at `pos`. -/
def Value.toks : Value → ℕ → List Token
  | .object members, pos =>
    ⟨.object, pos, (pos + ((Value.object members).serialize outOfRange).length : ℕ),
      members.length⟩ :: membersToks members (pos + 1)
  | .array items, pos =>
    ⟨.array, pos, (pos + ((Value.array items).serialize outOfRange).length : ℕ), items.length⟩ ::
      itemsToks items (pos + 1)
  | .string value, pos =>
    [⟨.string, (pos + 1 : ℕ), (pos + 1 + (escapedText value).length : ℕ), 0⟩]
  | .number value, pos =>
    [⟨.primitive, pos, (pos + (serializeNumber outOfRange value).length : ℕ), 0⟩]
  | .bool value, pos => [⟨.primitive, pos, (pos + if value then 4 else 5 : ℕ), 0⟩]
  | .nil, pos => [⟨.primitive, pos, (pos + 4 : ℕ), 0⟩]
termination_by structural v => v

/-- The tokens of members. -/
def membersToks : List (Member Value) → ℕ → List Token
  | [], _ => []
  | member :: members, pos =>
    member.toks pos ++ membersToks members (pos + (member.serialize outOfRange).length + 1)
termination_by structural members => members

/-- The tokens of a member: the key, which has the value as its only child, and the value. -/
def Member.toks : Member Value → ℕ → List Token
  | ⟨name, value⟩, pos =>
    ⟨.string, (pos + 1 : ℕ), (pos + 1 + (escapedText name).length : ℕ), 1⟩ ::
      value.toks (pos + (escapedText name).length + 3)
termination_by structural member => member

/-- The tokens of items. -/
def itemsToks : List Value → ℕ → List Token
  | [], _ => []
  | item :: items, pos =>
    item.toks pos ++ itemsToks items (pos + (item.serialize outOfRange).length + 1)
termination_by structural items => items

end

/-- A token with a known end is not open. -/
theorem isOpen_of_natCast {type : TokType} {start : ℤ} {stop size : ℕ} :
    Token.isOpen ⟨type, start, stop, size⟩ = false := by
  have hstop : (stop : ℤ) ≠ -1 := by omega
  simp [Token.isOpen, hstop]

theorem isOpen_of_mem_singleton {type : TokType} {start : ℤ} {stop size : ℕ} :
    ∀ t ∈ [Token.mk type start stop size], t.isOpen = false := by
  rintro t (_ | ⟨_, ⟨⟩⟩)
  exact isOpen_of_natCast

mutual

/-- All tokens of a value have their ends. -/
theorem toks_closed (v : Value) (pos : ℕ) : ∀ t ∈ v.toks outOfRange pos, t.isOpen = false := by
  cases v with
  | object members =>
    rintro t (_ | ⟨_, ht⟩)
    · exact isOpen_of_natCast
    · exact membersToks_closed members _ t ht
  | array items =>
    rintro t (_ | ⟨_, ht⟩)
    · exact isOpen_of_natCast
    · exact itemsToks_closed items _ t ht
  | string | number | bool | nil => exact isOpen_of_mem_singleton
termination_by structural v

theorem membersToks_closed (members : List (Member Value)) (pos : ℕ) :
    ∀ t ∈ membersToks outOfRange members pos, t.isOpen = false := by
  match members with
  | [] => simp [membersToks]
  | member :: members =>
    intro t ht
    rw [membersToks, List.mem_append] at ht
    rcases ht with ht | ht
    · exact memberToks_closed member _ t ht
    · exact membersToks_closed members _ t ht
termination_by structural members

theorem memberToks_closed (member : Member Value) (pos : ℕ) :
    ∀ t ∈ member.toks outOfRange pos, t.isOpen = false := by
  match member with
  | ⟨name, value⟩ =>
    rintro t (_ | ⟨_, ht⟩)
    · exact isOpen_of_natCast
    · exact toks_closed value _ t ht
termination_by structural member

theorem itemsToks_closed (items : List Value) (pos : ℕ) :
    ∀ t ∈ itemsToks outOfRange items pos, t.isOpen = false := by
  match items with
  | [] => simp [itemsToks]
  | item :: items =>
    intro t ht
    rw [itemsToks, List.mem_append] at ht
    rcases ht with ht | ht
    · exact toks_closed item _ t ht
    · exact itemsToks_closed items _ t ht
termination_by structural items

end

end Toks

/-! ## Scanning a text -/

theorem PlainText.tail {c : UInt8} {text : Bytes} (h : PlainText (c :: text)) : PlainText text :=
  fun d hd => h d (List.mem_cons_of_mem _ hd)

theorem writeStringEscaped_eq (str : Bytes) :
    writeStringEscaped str = quote :: escapedText str ++ [quote] := rfl

theorem length_writeStringEscaped (str : Bytes) :
    (writeStringEscaped str).length = (escapedText str).length + 2 := by
  simp [writeStringEscaped_eq]

/-- A plain text is written as it is. -/
theorem escapedText_plain {text : Bytes} (h : PlainText text) : escapedText text = text := by
  have hcstr : cstr text = text := cstr_eq_self fun hmem => (h _ hmem).1 rfl
  rw [escapedText, hcstr]
  clear hcstr
  induction text with
  | nil => rfl
  | cons c text ih =>
    rw [List.flatMap_cons, escapeChar, (h c (List.mem_cons_self ..)).2, ih h.tail]
    rfl

theorem mem_escapes {c e : UInt8} (h : escapes.lookup c = some e) : (c, e) ∈ escapes := by
  obtain ⟨l₁, l₂, heq, -⟩ := List.lookup_eq_some_iff.1 h
  rw [heq]
  simp

/-- Behind a backslash, the scan passes every character that `write_string_escaped` puts there. -/
theorem next_escape {c e : UInt8} (h : escapes.lookup c = some e) :
    Scan.escape.next e = .ok (some .plain) := by
  have hall : ∀ p ∈ escapes, p.2 ∈ [quote, slash, backslash, 98, 102, 114, 110, 116] := by
    simp [escapes]
  rw [Scan.next, if_pos (hall _ (mem_escapes h))]

/-- The scan passes a character as it is written. -/
theorem stringLength_escapeChar {c : UInt8} (hc : c ≠ nul) (rest : Bytes) :
    stringLength .plain (escapeChar c ++ rest) =
      (stringLength .plain rest).map (· + (escapeChar c).length) := by
  rw [escapeChar]
  cases hlookup : escapes.lookup c with
  | none =>
    have hquote : c ≠ quote := by
      rintro rfl
      cases hlookup
    have hback : c ≠ backslash := by
      rintro rfl
      cases hlookup
    have hnext : Scan.plain.next c = .ok (some .plain) := by
      rw [Scan.next, if_neg hc, if_neg hquote, if_neg hback]
    rw [List.singleton_append, stringLength, hnext]
    rfl
  | some e =>
    have hnext : Scan.plain.next backslash = .ok (some .escape) := rfl
    rw [List.cons_append, List.singleton_append, stringLength, hnext]
    simp only
    rw [stringLength, next_escape hlookup]
    simp only
    cases stringLength .plain rest <;> rfl

/-- **The scan of a string ends at its closing quote.** -/
theorem stringLength_escapedText (str rest : Bytes) :
    stringLength .plain (escapedText str ++ quote :: rest) = .ok (escapedText str).length := by
  have hnul : ∀ c ∈ cstr str, c ≠ nul := by
    intro c hc
    have := List.mem_takeWhile_imp hc
    simpa using this
  rw [escapedText]
  generalize cstr str = text at hnul
  induction text with
  | nil => rfl
  | cons c text ih =>
    obtain ⟨hc, hrest⟩ := List.forall_mem_cons.1 hnul
    rw [List.flatMap_cons, List.append_assoc, stringLength_escapeChar hc, ih hrest, Except.map,
      List.length_append, Nat.add_comm]

/-- The characters of the primitives the serializer writes. -/
def PrimitiveText (text : Bytes) : Prop :=
  ∀ c ∈ text, c = minus ∨ c = dot ∨ isDigit c = true ∨ 97 ≤ c ∧ c ≤ 122

instance (text : Bytes) : Decidable (PrimitiveText text) :=
  inferInstanceAs (Decidable (∀ c ∈ text, c = minus ∨ c = dot ∨ isDigit c = true ∨
    97 ≤ c ∧ c ≤ 122))

/-- Text behind which a primitive ends. -/
def EndsHere (rest : Bytes) : Prop := ∀ c ∈ rest.head?, endsPrimitive c = true

theorem PrimitiveText.tail {c : UInt8} {text : Bytes} (h : PrimitiveText (c :: text)) :
    PrimitiveText text := fun d hd => h d (List.mem_cons_of_mem _ hd)

/-- The characters of a primitive, as numbers. -/
theorem PrimitiveText.head {c : UInt8} {text : Bytes} (h : PrimitiveText (c :: text)) :
    c.toNat = 45 ∨ c.toNat = 46 ∨ 48 ≤ c.toNat ∧ c.toNat ≤ 57 ∨
      97 ≤ c.toNat ∧ c.toNat ≤ 122 := by
  rcases h c (List.mem_cons_self ..) with rfl | rfl | hdigit | ⟨hge, hle⟩
  · exact .inl rfl
  · exact .inr (.inl rfl)
  · exact .inr (.inr (.inl (isDigit_iff.1 hdigit)))
  · exact .inr (.inr (.inr ⟨UInt8.le_iff_toNat_le.1 hge, UInt8.le_iff_toNat_le.1 hle⟩))

theorem ne_of_toNat_ne {c d : UInt8} (h : c.toNat ≠ d.toNat) : c ≠ d := by
  rintro rfl
  exact h rfl

/-- None of the characters that mean something to the tokenizer. -/
theorem PrimitiveText.ne {c d : UInt8} {text : Bytes} (h : PrimitiveText (c :: text))
    (hd : d.toNat < 45 ∨ 57 < d.toNat ∧ d.toNat < 97 ∨ 122 < d.toNat) : c ≠ d := by
  refine ne_of_toNat_ne ?_
  have := h.head
  omega

theorem primitiveLength_plain {text rest : Bytes} (h : PrimitiveText text) (hrest : EndsHere rest) :
    primitiveLength (text ++ rest) = .ok text.length := by
  induction text with
  | nil =>
    cases rest with
    | nil => rfl
    | cons c rest => simp [primitiveLength, hrest c rfl]
  | cons c text ih =>
    have hends : endsPrimitive c = false := by
      rw [endsPrimitive, decide_eq_false_iff_not]
      simp only [List.mem_cons, List.not_mem_nil, or_false, not_or]
      refine ⟨?_, ?_, ?_, ?_, ?_, ?_, ?_, ?_⟩
      all_goals exact h.ne (by decide)
    have hnul : c ≠ nul := h.ne (by decide)
    have hrange : ¬c < 32 ∧ ¬127 ≤ c := by
      have := h.head
      rw [UInt8.lt_iff_toNat_lt, UInt8.le_iff_toNat_le]
      simp only [UInt8.reduceToNat]
      omega
    rw [List.cons_append, primitiveLength, if_neg (by simp [hnul, hends]),
      if_neg (by simp [hrange.1, hrange.2]), ih h.tail]
    rfl

/-! ## Steps of the tokenizer -/

variable {outOfRange : BinaryFloat → ℤ} {numTokens : ℕ} {rest : Bytes}

theorem parseLoop_cons {c : UInt8} {p q : Parser} {n : ℕ} (hc : c ≠ nul)
    (h : step numTokens c rest p = .ok (q, n)) :
    parseLoop numTokens (c :: rest) p =
      parseLoop numTokens (rest.drop n) { q with pos := p.pos + n + 1 } := by
  rw [parseLoop, if_neg hc, h]

theorem allocToken_ok {tokens : List Token} (token : Token) (h : tokens.length < numTokens) :
    allocToken numTokens tokens token = .ok (tokens ++ [token]) := by
  rw [allocToken, if_neg (by omega)]

theorem length_bumpSuper (toksuper : Option ℕ) (tokens : List Token) :
    (bumpSuper toksuper tokens).length = tokens.length := by
  cases toksuper <;> simp [bumpSuper]

theorem bumpSuper_append {toksuper : Option ℕ} {tokens : List Token} (new : List Token)
    (h : ∀ i ∈ toksuper, i < tokens.length) :
    bumpSuper toksuper (tokens ++ new) = bumpSuper toksuper tokens ++ new := by
  cases toksuper with
  | none => rfl
  | some i => exact modify_append_of_lt new _ (h i rfl)

/-- Counting a child closes no token. -/
theorem lastIdx?_bumpSuper (toksuper : Option ℕ) (tokens : List Token) :
    lastIdx? Token.isOpen (bumpSuper toksuper tokens) = lastIdx? Token.isOpen tokens := by
  cases toksuper with
  | none => rfl
  | some i =>
    rw [bumpSuper]
    induction tokens generalizing i with
    | nil => simp
    | cons token tokens ih =>
      cases i with
      | zero => simp [lastIdx?, Token.isOpen]
      | succ i => simp [lastIdx?, ih]

/-- The parser behind a scalar of `n` bytes. -/
def Jsmn.Parser.add (p : Parser) (n : ℕ) (token : Token) : Parser :=
  { p with pos := p.pos + n, tokens := bumpSuper p.toksuper (p.tokens ++ [token]) }

theorem addScalar_ok (p : Parser) (token : Token) (h : p.tokens.length < numTokens) :
    addScalar numTokens token p = .ok (p.add 0 token) := by
  rw [addScalar, allocToken_ok _ h]
  rfl

/-- A string adds its token. -/
theorem parseLoop_string (str rest : Bytes) (p : Parser) (hroom : p.tokens.length < numTokens) :
    parseLoop numTokens (writeStringEscaped str ++ rest) p =
      parseLoop numTokens rest (p.add ((escapedText str).length + 2)
        ⟨.string, (p.pos + 1 : ℕ), (p.pos + 1 + (escapedText str).length : ℕ), 0⟩) := by
  have hstep : step numTokens quote (escapedText str ++ quote :: rest) p = .ok (
      p.add 0 ⟨.string, (p.pos + 1 : ℕ), (p.pos + 1 + (escapedText str).length : ℕ), 0⟩,
        (escapedText str).length + 1) := by
    have hquote : step numTokens quote (escapedText str ++ quote :: rest) p = (do
        let len ← stringLength .plain (escapedText str ++ quote :: rest)
        let p ← addScalar numTokens ⟨.string, p.pos + 1, p.pos + 1 + len, 0⟩ p
        return (p, len + 1)) := rfl
    rw [hquote, stringLength_escapedText]
    simp [addScalar_ok p _ hroom, bind, Except.bind, pure, Except.pure]
  rw [writeStringEscaped_eq, List.append_assoc]
  change parseLoop numTokens (quote :: (escapedText str ++ quote :: rest)) p = _
  rw [parseLoop_cons (by decide) hstep, List.drop_length_add_append]
  rfl

/-- A primitive adds its token. -/
theorem parseLoop_primitive {text : Bytes} (h : PrimitiveText text) (hne : text ≠ [])
    (hrest : EndsHere rest) (p : Parser) (hroom : p.tokens.length < numTokens) :
    parseLoop numTokens (text ++ rest) p =
      parseLoop numTokens rest
        (p.add text.length ⟨.primitive, p.pos, (p.pos + text.length : ℕ), 0⟩) := by
  obtain _ | ⟨c, text⟩ := text
  · exact absurd rfl hne
  have hlen := primitiveLength_plain h hrest
  have hstep : step numTokens c (text ++ rest) p = .ok (
      p.add 0 ⟨.primitive, p.pos, (p.pos + (c :: text).length : ℕ), 0⟩, text.length) := by
    rw [step, if_neg (h.ne (by decide)), if_neg (h.ne (by decide)), if_neg (h.ne (by decide)),
      if_neg (h.ne (by decide)), if_neg (h.ne (by decide)),
      if_neg (by simp [h.ne (d := tab) (by decide), h.ne (d := carriageReturn) (by decide),
        h.ne (d := newline) (by decide), h.ne (d := space) (by decide)]), if_neg (h.ne (by decide)),
      if_neg (h.ne (by decide)), ← List.cons_append, hlen]
    simp [addScalar_ok p _ hroom, bind, Except.bind, pure, Except.pure]
  rw [List.cons_append, parseLoop_cons (h.ne (by decide)) hstep, List.drop_left]
  rfl

/-- An opening bracket adds an open token, which becomes the super token. -/
theorem parseLoop_open {c : UInt8} {type : TokType}
    (hc : c = openBrace ∧ type = .object ∨ c = openBracket ∧ type = .array) (p : Parser)
    (hsuper : ∀ i ∈ p.toksuper, i < p.tokens.length) (hroom : p.tokens.length < numTokens) :
    parseLoop numTokens (c :: rest) p =
      parseLoop numTokens rest
        ⟨p.pos + 1, bumpSuper p.toksuper p.tokens ++ [⟨type, p.pos, -1, 0⟩],
          some (bumpSuper p.toksuper p.tokens).length⟩ := by
  have hopen : openContainer numTokens type p = .ok (⟨p.pos, bumpSuper p.toksuper p.tokens ++
      [⟨type, p.pos, -1, 0⟩], some (bumpSuper p.toksuper p.tokens).length⟩, 0) := by
    rw [openContainer, allocToken_ok _ hroom, Except.map, bumpSuper_append _ hsuper,
      length_bumpSuper]
  rcases hc with ⟨rfl, rfl⟩ | ⟨rfl, rfl⟩
  · have hstep : step numTokens openBrace rest p = _ := hopen
    exact parseLoop_cons (by decide) hstep
  · have hstep : step numTokens openBracket rest p = _ := hopen
    exact parseLoop_cons (by decide) hstep

/-- Tokens with ends, behind an open token. -/
theorem isOpen_open {type : TokType} {start size : ℕ} :
    Token.isOpen ⟨type, start, -1, size⟩ = true := by
  have hstart : (start : ℤ) ≠ -1 := by omega
  simp [Token.isOpen, hstart]

variable {B C : List Token} {toksuper : Option ℕ} {pos start size : ℕ}

/-- A closing bracket closes the innermost open token, and the next one becomes super token. -/
theorem parseLoop_close {c : UInt8} {type : TokType}
    (hc : c = closeBrace ∧ type = .object ∨ c = closeBracket ∧ type = .array)
    (hC : ∀ t ∈ C, t.isOpen = false) :
    parseLoop numTokens (c :: rest) ⟨pos, B ++ ⟨type, start, -1, size⟩ :: C, toksuper⟩ =
      parseLoop numTokens rest
        ⟨pos + 1, B ++ ⟨type, start, (pos + 1 : ℕ), size⟩ :: C, lastIdx? Token.isOpen B⟩ := by
  have hclose : closeContainer type ⟨pos, B ++ ⟨type, start, -1, size⟩ :: C, toksuper⟩ =
      .ok (⟨pos, B ++ ⟨type, start, (pos + 1 : ℕ), size⟩ :: C, lastIdx? Token.isOpen B⟩, 0) := by
    have htake : (B ++ ⟨type, start, (pos : ℤ) + 1, size⟩ :: C).take (B.length + 1) =
        B ++ [⟨type, start, (pos + 1 : ℕ), size⟩] := by
      rw [List.take_length_add_append]
      rfl
    have hlast : lastIdx? Token.isOpen (B ++ [⟨type, start, (pos + 1 : ℕ), size⟩]) =
        lastIdx? Token.isOpen B := lastIdx?_append_left isOpen_of_mem_singleton
    rw [closeContainer, lastIdx?_append_cons isOpen_open hC]
    simp only [List.getElem?_append_right le_rfl, Nat.sub_self, List.getElem?_cons_zero,
      Option.map_some, ne_eq, not_true, if_false, modify_length_append, htake, hlast]
    rfl
  rcases hc with ⟨rfl, rfl⟩ | ⟨rfl, rfl⟩
  · have hstep : step numTokens closeBrace rest _ = _ := hclose
    exact parseLoop_cons (by decide) hstep
  · have hstep : step numTokens closeBracket rest _ = _ := hclose
    exact parseLoop_cons (by decide) hstep

/-- A colon makes the last token, a key, the super token. -/
theorem parseLoop_colon (rest : Bytes) (pos : ℕ) (tokens : List Token) (key : Token) :
    parseLoop numTokens (colon :: rest) ⟨pos, tokens ++ [key], toksuper⟩ =
      parseLoop numTokens rest ⟨pos + 1, tokens ++ [key], some tokens.length⟩ := by
  have hcolon : colonStep ⟨pos, tokens ++ [key], toksuper⟩ =
      ⟨pos, tokens ++ [key], some tokens.length⟩ := by simp [colonStep]
  have hstep : step numTokens colon rest ⟨pos, tokens ++ [key], toksuper⟩ = .ok (_, 0) :=
    congrArg (fun p => Except.ok (p, 0)) hcolon
  exact parseLoop_cons (by decide) hstep

/-- The super token is the innermost open container, or a key. -/
def SuperIn (B : List Token) (tokens : List Token) (toksuper : Option ℕ) : Prop :=
  toksuper = some B.length ∨ ∃ i token, toksuper = some i ∧ tokens[i]? = some token ∧
    token.isContainer = false

/-- A comma makes the innermost open container the super token. -/
theorem parseLoop_comma {type : TokType} (htype : type = .object ∨ type = .array)
    (hC : ∀ t ∈ C, t.isOpen = false)
    (hsuper : SuperIn B (B ++ ⟨type, start, -1, size⟩ :: C) toksuper) :
    parseLoop numTokens (comma :: rest) ⟨pos, B ++ ⟨type, start, -1, size⟩ :: C, toksuper⟩ =
      parseLoop numTokens rest
        ⟨pos + 1, B ++ ⟨type, start, -1, size⟩ :: C, some B.length⟩ := by
  have hcontainer : Token.isContainer ⟨type, start, -1, size⟩ = true := by
    rcases htype with rfl | rfl <;> rfl
  have hcomma : commaStep ⟨pos, B ++ ⟨type, start, -1, size⟩ :: C, toksuper⟩ =
      ⟨pos, B ++ ⟨type, start, -1, size⟩ :: C, some B.length⟩ := by
    rw [commaStep]
    rcases hsuper with rfl | ⟨i, token, rfl, htoken, hkey⟩
    · simp [hcontainer]
    · have hlast : lastIdx? (fun token => token.isContainer && token.isOpen)
          (B ++ ⟨type, start, -1, size⟩ :: C) = some B.length :=
        lastIdx?_append_cons (by rw [hcontainer, isOpen_open]; rfl)
          (fun t ht => by rw [hC t ht, Bool.and_false])
      simp [htoken, hkey, hlast]
  have hstep : step numTokens comma rest ⟨pos, B ++ ⟨type, start, -1, size⟩ :: C, toksuper⟩ =
      .ok (_, 0) := congrArg (fun p => Except.ok (p, 0)) hcomma
  exact parseLoop_cons (by decide) hstep

/-! ## The text of a value -/

theorem serializeNumber_plain {n : ℤ} (hn : |n| ≤ 2 ^ 24) :
    serializeNumber outOfRange (.finite n) = formatLongLong n := by
  have hn' := abs_le.1 hn
  rw [serializeNumber, truncate_intCast, sub_self, abs_zero, if_pos (by norm_num [fracLimit]),
    toLongLong, BinaryFloat.toInt?_intCast (by omega) (by omega), Option.getD_some]

theorem primitiveText_printfSigned {buf : Bytes} (h : PrimitiveText buf) (hne : buf ≠ [])
    (negative : Bool) : PrimitiveText (printfSigned buf negative) ∧
    printfSigned buf negative ≠ [] := by
  rw [printfSigned]
  split_ifs
  · refine ⟨fun c hc => ?_, by simp⟩
    rcases List.mem_append.1 (List.mem_reverse.1 hc) with hc | hc
    · exact h c hc
    · exact .inl (List.mem_singleton.1 hc)
  · exact ⟨fun c hc => h c (List.mem_reverse.1 hc), by simpa using hne⟩

theorem primitiveText_printfDigits (room value : ℕ) : PrimitiveText (printfDigits room value) :=
  fun _ hc => .inr (.inr (.inl (printfDigits_isDigit hc)))

theorem primitiveText_formatLongLong (n : ℤ) :
    PrimitiveText (formatLongLong n) ∧ formatLongLong n ≠ [] :=
  primitiveText_printfSigned (primitiveText_printfDigits _ _) (printfDigits_ne_nil (by decide)) _

theorem PrimitiveText.append {a b : Bytes} (ha : PrimitiveText a) (hb : PrimitiveText b) :
    PrimitiveText (a ++ b) := by
  intro c hc
  rcases List.mem_append.1 hc with hc | hc
  · exact ha c hc
  · exact hb c hc

theorem primitiveText_replicate (n : ℕ) : PrimitiveText (List.replicate n 48) := by
  intro c hc
  rw [List.eq_of_mem_replicate hc]
  exact .inr (.inr (.inl rfl))

/-- The digits of the fraction come first, so that the buffer is not empty. -/
theorem primitiveText_ftoa (q : ℚ) : PrimitiveText (ftoa q) ∧ ftoa q ≠ [] := by
  unfold ftoa
  extract_lets negative value whole tmp frac diff
  split
  rename_i frac' whole' _
  extract_lets digits count buf buf'
  have hbuf : PrimitiveText buf := (primitiveText_printfDigits _ _).append
    (primitiveText_replicate _)
  have hbuf' : PrimitiveText buf' := by
    simp only [buf']
    split_ifs
    · exact hbuf.append (by decide +kernel)
    · exact hbuf
  have hne : buf' ≠ [] := by
    simp only [buf', buf, digits]
    split_ifs <;> simp [printfDigits_ne_nil (show 0 < printfBufferSize by decide)]
  exact primitiveText_printfSigned (hbuf'.append (primitiveText_printfDigits _ _)) (by simp [hne]) _

/-- Every number is written as a primitive. -/
theorem primitiveText_serializeNumber (value : BinaryFloat) :
    PrimitiveText (serializeNumber outOfRange value) ∧ serializeNumber outOfRange value ≠ [] := by
  cases value with
  | finite q =>
    rw [serializeNumber]
    split_ifs
    · exact primitiveText_formatLongLong _
    · exact primitiveText_ftoa q
  | infinite negative => exact primitiveText_formatLongLong _
  | nan =>
    rw [serializeNumber]
    exact ⟨by decide +kernel, by decide⟩

/-- The parser behind the text of a value. -/
def Jsmn.Parser.after (outOfRange : BinaryFloat → ℤ) (p : Parser) (v : Value) : Parser :=
  { pos := p.pos + (v.serialize outOfRange).length
    tokens := bumpSuper p.toksuper p.tokens ++ v.toks outOfRange p.pos
    toksuper := if v.isContainer then lastIdx? Token.isOpen p.tokens else p.toksuper }

theorem add_eq {p : Parser} (hsuper : ∀ i ∈ p.toksuper, i < p.tokens.length) (n : ℕ)
    (token : Token) : p.add n token = ⟨p.pos + n, bumpSuper p.toksuper p.tokens ++ [token],
      p.toksuper⟩ := by
  rw [Parser.add, bumpSuper_append _ hsuper]

/-- A primitive value adds its token. -/
theorem parseLoop_scalar {v : Value} (text : Bytes) (htext : v.serialize outOfRange = text)
    (hprim : PrimitiveText text) (hne : text ≠ []) (hrest : EndsHere rest)
    (hv : v.isContainer = false) (p : Parser) (hsuper : ∀ i ∈ p.toksuper, i < p.tokens.length)
    (htoks : v.toks outOfRange p.pos = [⟨.primitive, p.pos, (p.pos + text.length : ℕ), 0⟩])
    (hroom : p.tokens.length < numTokens) :
    parseLoop numTokens (v.serialize outOfRange ++ rest) p =
      parseLoop numTokens rest (p.after outOfRange v) := by
  rw [Parser.after, htoks, htext, parseLoop_primitive hprim hne hrest p hroom, add_eq hsuper, hv]
  rfl

mutual

/-- **The tokenizer on the text of a value**: its tokens are appended, and its parent counts
it. -/
theorem parseLoop_value (v : Value) {rest : Bytes} (hrest : EndsHere rest)
    (p : Parser) (hsuper : ∀ i ∈ p.toksuper, i < p.tokens.length)
    (hroom : p.tokens.length + (v.toks outOfRange p.pos).length ≤ numTokens) :
    parseLoop numTokens (v.serialize outOfRange ++ rest) p =
      parseLoop numTokens rest (p.after outOfRange v) := by
  cases v with
  | object members =>
    rw [Value.toks, List.length_cons] at hroom
    have hmembers := parseLoop_members members rest (bumpSuper p.toksuper p.tokens) []
      (p.pos + 1) p.pos 0 (by simp)
      (by rw [length_bumpSuper]; simp only [List.length_nil]; omega)
    have htext : (Value.object members).serialize outOfRange ++ rest =
        openBrace :: (serializeMembers outOfRange members ++ closeBrace :: rest) := by
      simp [Value.serialize]
    have hlen : ((Value.object members).serialize outOfRange).length =
        (serializeMembers outOfRange members).length + 2 := by
      simp [Value.serialize]
    rw [show p.pos + 1 + (serializeMembers outOfRange members).length + 1 =
      p.pos + ((Value.object members).serialize outOfRange).length by omega] at hmembers
    rw [Parser.after, Value.toks, htext, parseLoop_open (.inl ⟨rfl, rfl⟩) p hsuper (by omega),
      hmembers, lastIdx?_bumpSuper, List.nil_append, Nat.zero_add]
    rfl
  | array items =>
    rw [Value.toks, List.length_cons] at hroom
    have hitems := parseLoop_items items rest (bumpSuper p.toksuper p.tokens) []
      (p.pos + 1) p.pos 0 (by simp)
      (by rw [length_bumpSuper]; simp only [List.length_nil]; omega)
    have htext : (Value.array items).serialize outOfRange ++ rest =
        openBracket :: (serializeItems outOfRange items ++ closeBracket :: rest) := by
      simp [Value.serialize]
    have hlen : ((Value.array items).serialize outOfRange).length =
        (serializeItems outOfRange items).length + 2 := by
      simp [Value.serialize]
    rw [show p.pos + 1 + (serializeItems outOfRange items).length + 1 =
      p.pos + ((Value.array items).serialize outOfRange).length by omega] at hitems
    rw [Parser.after, Value.toks, htext, parseLoop_open (.inr ⟨rfl, rfl⟩) p hsuper (by omega),
      hitems, lastIdx?_bumpSuper, List.nil_append, Nat.zero_add]
    rfl
  | string value =>
    have htext : (Value.string value).serialize outOfRange = writeStringEscaped value := rfl
    rw [Parser.after, htext, parseLoop_string value _ p (by simpa [Value.toks] using hroom),
      add_eq hsuper, length_writeStringEscaped]
    rfl
  | number value =>
    obtain ⟨hprim, hne⟩ := @primitiveText_serializeNumber outOfRange value
    exact parseLoop_scalar (serializeNumber outOfRange value) rfl hprim hne hrest rfl p hsuper rfl
      (by simpa [Value.toks] using hroom)
  | bool value =>
    cases value
    · exact parseLoop_scalar [102, 97, 108, 115, 101] rfl (by decide +kernel) (by decide)
        hrest rfl p hsuper rfl (by simpa [Value.toks] using hroom)
    · exact parseLoop_scalar [116, 114, 117, 101] rfl (by decide +kernel) (by decide)
        hrest rfl p hsuper rfl (by simpa [Value.toks] using hroom)
  | nil =>
    exact parseLoop_scalar [110, 117, 108, 108] rfl (by decide +kernel) (by decide)
      hrest rfl p hsuper rfl (by simpa [Value.toks] using hroom)
termination_by structural v

/-- The members of an object and its closing brace. -/
theorem parseLoop_members (members : List (Member Value)) (rest : Bytes) (B C : List Token)
    (pos start size : ℕ) (hC : ∀ t ∈ C, t.isOpen = false)
    (hroom : B.length + 1 + C.length + (membersToks outOfRange members pos).length ≤ numTokens) :
    parseLoop numTokens (serializeMembers outOfRange members ++ closeBrace :: rest)
        ⟨pos, B ++ ⟨.object, start, -1, size⟩ :: C, some B.length⟩ =
      parseLoop numTokens rest
        ⟨pos + (serializeMembers outOfRange members).length + 1,
          B ++ ⟨.object, start, (pos + (serializeMembers outOfRange members).length + 1 : ℕ),
            size + members.length⟩ :: (C ++ membersToks outOfRange members pos),
          lastIdx? Token.isOpen B⟩ := by
  match members with
  | [] =>
    simp only [serializeMembers, membersToks, List.nil_append, List.append_nil, List.length_nil,
      Nat.add_zero]
    exact parseLoop_close (.inl ⟨rfl, rfl⟩) hC
  | member :: members =>
    rw [membersToks, List.length_append] at hroom
    have hclosed : ∀ t ∈ C ++ member.toks outOfRange pos, t.isOpen = false := fun t ht => by
      rcases List.mem_append.1 ht with ht | ht
      · exact hC t ht
      · exact memberToks_closed outOfRange member pos t ht
    rw [serializeMembers, membersToks, List.append_assoc]
    cases members with
    | nil =>
      obtain ⟨toksuper, -, hmember⟩ := parseLoop_member member
        (closeBrace :: rest) (by rintro c ⟨⟩; rfl) B C pos start size hC (by omega)
      simp only [List.isEmpty_nil, if_true, List.nil_append, List.append_nil, membersToks,
        List.length_singleton]
      rw [hmember, parseLoop_close (.inl ⟨rfl, rfl⟩) hclosed]
    | cons next members =>
      obtain ⟨toksuper, hsuper, hmember⟩ := parseLoop_member member
        (comma :: (serializeMembers outOfRange (next :: members) ++ closeBrace :: rest))
        (by rintro c ⟨⟩; rfl) B C pos start size hC (by omega)
      have hrest := parseLoop_members (next :: members) rest B
        (C ++ member.toks outOfRange pos) (pos + (member.serialize outOfRange).length + 1) start
        (size + 1) hclosed (by rw [List.length_append]; omega)
      simp only [List.isEmpty_cons, Bool.false_eq_true, if_false, List.cons_append]
      rw [hmember, parseLoop_comma (.inl rfl) hclosed hsuper, hrest]
      rw [List.length_append, List.length_cons (a := comma), List.append_assoc,
        show ∀ a b : ℕ, pos + (a + (b + 1)) + 1 = pos + a + 1 + b + 1 by omega,
        show size + (member :: next :: members).length = size + 1 + (next :: members).length by
          simp only [List.length_cons]; omega]
termination_by structural members

/-- One member: afterwards the key, or the object again, is the super token. -/
theorem parseLoop_member (member : Member Value) (rest : Bytes)
    (hrest : EndsHere rest) (B C : List Token) (pos start size : ℕ)
    (hC : ∀ t ∈ C, t.isOpen = false)
    (hroom : B.length + 1 + C.length + (member.toks outOfRange pos).length ≤ numTokens) :
    ∃ toksuper,
      SuperIn B (B ++ ⟨.object, start, -1, size + 1⟩ :: (C ++ member.toks outOfRange pos))
        toksuper ∧
      parseLoop numTokens (member.serialize outOfRange ++ rest)
          ⟨pos, B ++ ⟨.object, start, -1, size⟩ :: C, some B.length⟩ =
        parseLoop numTokens rest
          ⟨pos + (member.serialize outOfRange).length,
            B ++ ⟨.object, start, -1, size + 1⟩ :: (C ++ member.toks outOfRange pos),
              toksuper⟩ := by
  match member with
  | ⟨name, value⟩ =>
    rw [Member.toks, List.length_cons] at hroom
    -- the key is counted by the object, and the colon makes it the super token
    have hfirst : (B ++ Token.mk .object start (-1) size :: C).length < numTokens := by
      simp only [List.length_append, List.length_cons]
      omega
    have hkey := parseLoop_string name (colon :: (value.serialize outOfRange ++ rest))
      ⟨pos, B ++ ⟨.object, start, -1, size⟩ :: C, some B.length⟩ hfirst
    rw [add_eq (by rintro i ⟨⟩; simp)] at hkey
    simp only [bumpSuper, modify_length_append] at hkey
    generalize hT : B ++ ⟨.object, start, -1, size + 1⟩ :: C = T at hkey
    have hTlen : T.length = B.length + 1 + C.length := by
      rw [← hT, List.length_append, List.length_cons]
      omega
    -- the value is counted by the key
    have hvalue := parseLoop_value value hrest
      ⟨pos + (escapedText name).length + 3,
        T ++ [⟨.string, (pos + 1 : ℕ), (pos + 1 + (escapedText name).length : ℕ), 0⟩],
          some T.length⟩
      (by rintro i ⟨⟩; simp)
      (by simp only [List.length_append, List.length_singleton]; rw [hTlen]; omega)
    have hlen : (Member.serialize outOfRange ⟨name, value⟩).length =
        (escapedText name).length + 3 + (value.serialize outOfRange).length := by
      rw [Member.serialize, List.length_append, length_writeStringEscaped, List.length_cons]
      omega
    refine ⟨if value.isContainer then some B.length else some T.length, ?_, ?_⟩
    · split_ifs
      · exact .inl rfl
      · exact .inr ⟨T.length, ⟨.string, (pos + 1 : ℕ), (pos + 1 + (escapedText name).length : ℕ),
          1⟩, rfl,
          by simp [← hT, Member.toks], rfl⟩
    · have hlast : lastIdx? Token.isOpen
          (T ++ [⟨.string, (pos + 1 : ℕ), (pos + 1 + (escapedText name).length : ℕ), 0⟩]) =
            some B.length := by
        rw [lastIdx?_append_left isOpen_of_mem_singleton, ← hT]
        exact lastIdx?_append_cons isOpen_open hC
      rw [hlen, Member.serialize, List.append_assoc, List.cons_append, hkey, parseLoop_colon,
        show pos + ((escapedText name).length + 2) + 1 =
          pos + (escapedText name).length + 3 by omega, hvalue, Parser.after]
      simp only [hlast, bumpSuper, modify_length_append]
      rw [← hT, Member.toks]
      simp [Nat.add_assoc]
termination_by structural member

/-- The items of an array and its closing bracket. -/
theorem parseLoop_items (items : List Value) (rest : Bytes) (B C : List Token) (pos start size : ℕ)
    (hC : ∀ t ∈ C, t.isOpen = false)
    (hroom : B.length + 1 + C.length + (itemsToks outOfRange items pos).length ≤ numTokens) :
    parseLoop numTokens (serializeItems outOfRange items ++ closeBracket :: rest)
        ⟨pos, B ++ ⟨.array, start, -1, size⟩ :: C, some B.length⟩ =
      parseLoop numTokens rest
        ⟨pos + (serializeItems outOfRange items).length + 1,
          B ++ ⟨.array, start, (pos + (serializeItems outOfRange items).length + 1 : ℕ),
            size + items.length⟩ :: (C ++ itemsToks outOfRange items pos),
          lastIdx? Token.isOpen B⟩ := by
  match items with
  | [] =>
    simp only [serializeItems, itemsToks, List.nil_append, List.append_nil, List.length_nil,
      Nat.add_zero]
    exact parseLoop_close (.inr ⟨rfl, rfl⟩) hC
  | item :: items =>
    rw [itemsToks, List.length_append] at hroom
    have hclosed : ∀ t ∈ C ++ item.toks outOfRange pos, t.isOpen = false := fun t ht => by
      rcases List.mem_append.1 ht with ht | ht
      · exact hC t ht
      · exact toks_closed outOfRange item pos t ht
    -- behind an item the array is the super token
    have hitem : ∀ rest, EndsHere rest → parseLoop numTokens (item.serialize outOfRange ++ rest)
        ⟨pos, B ++ ⟨.array, start, -1, size⟩ :: C, some B.length⟩ = parseLoop numTokens rest
          ⟨pos + (item.serialize outOfRange).length,
            B ++ ⟨.array, start, -1, size + 1⟩ :: (C ++ item.toks outOfRange pos),
            some B.length⟩ := fun rest hrest => by
      rw [parseLoop_value item hrest _ (by rintro i ⟨⟩; simp)
        (by simp only [List.length_append, List.length_cons]; omega), Parser.after,
        lastIdx?_append_cons isOpen_open hC, ite_self]
      simp only [bumpSuper, modify_length_append, List.append_assoc, List.cons_append]
    rw [serializeItems, itemsToks, List.append_assoc]
    cases items with
    | nil =>
      simp only [List.isEmpty_nil, if_true, List.nil_append, List.append_nil, itemsToks,
        List.length_singleton]
      rw [hitem _ (by rintro c ⟨⟩; rfl), parseLoop_close (.inr ⟨rfl, rfl⟩) hclosed]
    | cons next items =>
      have hrest := parseLoop_items (next :: items) rest B
        (C ++ item.toks outOfRange pos) (pos + (item.serialize outOfRange).length + 1) start
        (size + 1) hclosed (by rw [List.length_append]; omega)
      simp only [List.isEmpty_cons, Bool.false_eq_true, if_false, List.cons_append]
      rw [hitem _ (by rintro c ⟨⟩; rfl), parseLoop_comma (.inr rfl) hclosed (.inl rfl), hrest]
      rw [List.length_append, List.length_cons (a := comma), List.append_assoc,
        show ∀ a b : ℕ, pos + (a + (b + 1)) + 1 = pos + a + 1 + b + 1 by omega,
        show size + (item :: next :: items).length = size + 1 + (next :: items).length by
          simp only [List.length_cons]; omega]
termination_by structural items

end

end RbProtocol.Json
