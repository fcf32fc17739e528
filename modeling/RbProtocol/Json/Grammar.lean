import RbProtocol.Foundations.Numerals
import RbProtocol.Json.Children

/-!
# Every JSON text is parsed

`rbjson::parse` on the texts of other programs: any text of the JSON grammar, with white space
between its parts and any escapes in its strings, however it is nested.

* `Tokenized`: what the tokenizer does on a phrase of the grammar, and `Walked`: what the walk over
  these tokens builds. Both are proved of all phrases along the derivation (`exists_tokens`).
* `StandsFor`: what is read for a phrase of a text. Strings are read as they are written, numbers
  are the `float` of the nearest `double`, and the last one of two members with the same key is
  kept.
* `parse_sentence`: a text of an object is parsed to what stands for it if it needs at most 64
  tokens, and refused otherwise.
* `parse_unescaped`: without escapes, what is read is a function of what the text denotes.
-/

namespace RbProtocol.Json

open Ascii Library Jsmn JsonText

/-! ## Tokens of a text -/

mutual

/-- The tokens that a value needs: one for each value and one for each key. -/
def tokenCountOf : RbProtocol.Json → ℕ
  | .object members => membersCountOf members + 1
  | .array items => itemsCountOf items + 1
  | .string _ => 1
  | .number _ => 1
  | .bool _ => 1
  | .null => 1
termination_by structural v => v

/-- The tokens of members. -/
def membersCountOf : List (Bytes × RbProtocol.Json) → ℕ
  | [] => 0
  | member :: members => memberCountOf member + membersCountOf members
termination_by structural members => members

/-- The tokens of a member. -/
def memberCountOf : Bytes × RbProtocol.Json → ℕ
  | ⟨_, v⟩ => tokenCountOf v + 1
termination_by structural member => member

/-- The tokens of items. -/
def itemsCountOf : List RbProtocol.Json → ℕ
  | [] => 0
  | item :: items => tokenCountOf item + itemsCountOf items
termination_by structural items => items

end

/-- The tokens of a phrase. -/
def phraseCount : Phrase → ℕ
  | .value v => tokenCountOf v
  | .members members => membersCountOf members
  | .items items => itemsCountOf items

/-! ## What is read -/

/-- What the walk builds for a phrase. -/
inductive Parsed
  | value (v : Value)
  | members (entries : List (Bytes × Value))
  | items (items : List Value)

/-- **What is read stands for a phrase of a text**, in the words of the text: a string is what is
written between its quotation marks, and a number is what `strtod` makes of the first 31 characters
of its literal. For a literal of at most 31 characters that is the `float` nearest to the nearest
`double`. -/
inductive StandsFor : Parsed → Phrase → Bytes → Bytes → Prop
  | true {rest} : StandsFor (.value (.bool true)) (.value (.bool true))
      (116 :: 114 :: 117 :: 101 :: rest) rest
  | false {rest} : StandsFor (.value (.bool false)) (.value (.bool false))
      (102 :: 97 :: 108 :: 115 :: 101 :: rest) rest
  | null {rest} : StandsFor (.value .nil) (.value .null) (110 :: 117 :: 108 :: 108 :: rest) rest
  | number {literal q b rest} : Reads (.value (.number q)) literal [] →
      (strtod (literal.take 31)).map mkNumber = some (.number b) →
      (literal.length < 32 → Value.number b = mkNumber (.round binary64 q)) →
      StandsFor (.value (.number b)) (.value (.number q)) (literal ++ rest) rest
  | string {raw s rest} : Chars s (raw ++ quote :: rest) rest →
      StandsFor (.value (.string raw)) (.value (.string s)) (quote :: (raw ++ quote :: rest)) rest
  | array {items vs text text' rest} : Space text text' →
      StandsFor (.items items) (.items vs) text' rest →
      StandsFor (.value (.array items)) (.value (.array vs)) (openBracket :: text) rest
  | object {entries members text text' rest} : Space text text' →
      StandsFor (.members entries) (.members members) text' rest →
      StandsFor (.value (.object (membersOf entries))) (.value (.object members))
        (openBrace :: text) rest
  | noItems {text rest} : Space text (closeBracket :: rest) →
      StandsFor (.items []) (.items []) text rest
  | lastItem {item v text text' rest} : StandsFor (.value item) (.value v) text text' →
      Space text' (closeBracket :: rest) → StandsFor (.items [item]) (.items [v]) text rest
  | item {item v items vs text text' behind next rest} :
      StandsFor (.value item) (.value v) text text' → Space text' (comma :: behind) →
      Space behind next → StandsFor (.items items) (.items vs) next rest →
      StandsFor (.items (item :: items)) (.items (v :: vs)) text rest
  | noMembers {text rest} : Space text (closeBrace :: rest) →
      StandsFor (.members []) (.members []) text rest
  | lastMember {raw key val v afterKey value front text' rest} :
      Chars key (raw ++ quote :: afterKey) afterKey → Space afterKey (colon :: value) →
      Space value front → StandsFor (.value val) (.value v) front text' →
      Space text' (closeBrace :: rest) →
      StandsFor (.members [(raw, val)]) (.members [(key, v)])
        (quote :: (raw ++ quote :: afterKey)) rest
  | member {raw key val v entries members afterKey value front text' behind next rest} :
      Chars key (raw ++ quote :: afterKey) afterKey → Space afterKey (colon :: value) →
      Space value front → StandsFor (.value val) (.value v) front text' →
      Space text' (comma :: behind) → Space behind next →
      StandsFor (.members entries) (.members members) next rest →
      StandsFor (.members ((raw, val) :: entries)) (.members ((key, v) :: members))
        (quote :: (raw ++ quote :: afterKey)) rest

/-- What is read for a text stands for the value that the text denotes. -/
def ReadAs (text : Bytes) (val : Value) (v : RbProtocol.Json) : Prop :=
  ∃ front behind, Space text front ∧ StandsFor (.value val) (.value v) front behind ∧
    Space behind []

mutual

/-- The value that is read for what a text without escapes denotes. -/
def valueOf : RbProtocol.Json → Value
  | .object members => .object (membersOf (entriesOf members))
  | .array items => .array (itemsOf items)
  | .string s => .string s
  | .number q => mkNumber (.round binary64 q)
  | .bool b => .bool b
  | .null => .nil
termination_by structural v => v

/-- The entries that are read for members. -/
def entriesOf : List (Bytes × RbProtocol.Json) → List (Bytes × Value)
  | [] => []
  | member :: members => entryOf member :: entriesOf members
termination_by structural members => members

/-- The entry that is read for a member. -/
def entryOf : Bytes × RbProtocol.Json → Bytes × Value
  | ⟨key, v⟩ => (key, valueOf v)
termination_by structural member => member

/-- The items that are read for items. -/
def itemsOf : List RbProtocol.Json → List Value
  | [] => []
  | item :: items => valueOf item :: itemsOf items
termination_by structural items => items

end

/-- What is read for a phrase without escapes. -/
def Parsed.ofPhrase : Phrase → Parsed
  | .value v => .value (valueOf v)
  | .members ms => .members (entriesOf ms)
  | .items vs => .items (itemsOf vs)

/-- A text without escapes, with empty strings in place of its strings. -/
def emptyStrings (inString : Bool) : Bytes → Bytes
  | [] => []
  | c :: text =>
    if c = quote then quote :: emptyStrings (!inString) text
    else if inString then emptyStrings true text
    else c :: emptyStrings false text

/-- A text without escapes, whose number literals are all short enough for the buffer of
`parse_value`. -/
structure Unescaped (text : Bytes) : Prop where
  noBackslash : backslash ∉ text
  short : ∀ run, run <:+: emptyStrings false text → (∀ c ∈ run, IsNumeral c) → run.length < 32

theorem emptyStrings_cons {c : UInt8} (hc : c ≠ quote) (text : Bytes) :
    emptyStrings false (c :: text) = c :: emptyStrings false text := by
  rw [emptyStrings, if_neg hc]
  rfl

theorem emptyStrings_append {front : Bytes} (h : quote ∉ front) (rest : Bytes) :
    emptyStrings false (front ++ rest) = front ++ emptyStrings false rest := by
  induction front with
  | nil => rfl
  | cons c front ih =>
    rw [List.mem_cons, not_or] at h
    rw [List.cons_append, emptyStrings_cons (Ne.symm h.1), ih h.2, List.cons_append]

theorem emptyStrings_chars {s text rest : Bytes} (h : Chars s text rest)
    (hplain : backslash ∉ text) :
    emptyStrings true text = quote :: emptyStrings false rest := by
  induction h with
  | close => rfl
  | plain hc _ ih =>
    rw [isUnescaped, Bool.and_eq_true, Bool.and_eq_true, decide_eq_true_eq, decide_eq_true_eq] at hc
    rw [emptyStrings, if_neg hc.1.2]
    exact ih fun hmem => hplain (List.mem_cons_of_mem _ hmem)
  | short => exact absurd List.mem_cons_self hplain
  | unicode => exact absurd List.mem_cons_self hplain

theorem length_emptyStrings_le (inString : Bool) (text : Bytes) :
    (emptyStrings inString text).length ≤ text.length := by
  induction text generalizing inString with
  | nil => exact le_rfl
  | cons c text ih =>
    rw [emptyStrings]
    split_ifs
    · exact Nat.succ_le_succ (ih _)
    · exact (ih _).trans (Nat.le_succ _)
    · exact Nat.succ_le_succ (ih _)

/-- A part of a text behind some of its phrases. -/
structure Behind (text part : Bytes) : Prop where
  suffix : part <:+ text
  outside : emptyStrings false part <:+ emptyStrings false text

namespace Behind

variable {text part rest : Bytes}

theorem trans (h : Behind text part) (h' : Behind part rest) : Behind text rest :=
  ⟨h'.suffix.trans h.suffix, h'.outside.trans h.outside⟩

theorem append {front : Bytes} (h : quote ∉ front) (rest : Bytes) : Behind (front ++ rest) rest :=
  ⟨List.suffix_append _ _, emptyStrings_append h rest ▸ List.suffix_append _ _⟩

theorem cons {c : UInt8} (hc : c ≠ quote) (text : Bytes) : Behind (c :: text) text :=
  have hquote : quote ∉ [c] := fun hmem => hc (List.mem_singleton.1 hmem).symm
  append hquote text

theorem space (h : Space text rest) : Behind text rest := by
  induction h with
  | nil => exact ⟨List.suffix_rfl, List.suffix_rfl⟩
  | cons hc _ ih =>
    refine (cons ?_ _).trans ih
    rintro rfl
    exact absurd hc (by decide)

/-- Behind white space and a mark. -/
theorem mark {c : UInt8} (hc : c ≠ quote) (h : Space text (c :: rest)) : Behind text rest :=
  (space h).trans (cons hc rest)

/-- Behind a comma. -/
theorem comma {behind next : Bytes} (h : Space text (comma :: behind)) (h' : Space behind next) :
    Behind text next := (mark (by decide) h).trans (space h')

theorem string {s : Bytes} (h : Chars s text rest) (hplain : backslash ∉ text) :
    Behind (quote :: text) rest where
  suffix := by
    obtain ⟨raw, rfl⟩ : ∃ raw, text = raw ++ quote :: rest := by
      induction h with
      | close => exact ⟨[], rfl⟩
      | plain _ _ ih =>
        obtain ⟨raw, hraw⟩ := ih fun hmem => hplain (List.mem_cons_of_mem _ hmem)
        exact ⟨_ :: raw, congrArg (_ :: ·) hraw⟩
      | short => exact absurd List.mem_cons_self hplain
      | unicode => exact absurd List.mem_cons_self hplain
    exact ((List.suffix_cons _ _).trans (List.suffix_append _ _)).trans (List.suffix_cons _ _)
  outside := by
    have houtside : emptyStrings false (quote :: text) = quote :: emptyStrings true text := rfl
    rw [houtside, emptyStrings_chars h hplain]
    exact (List.suffix_cons _ _).trans (List.suffix_cons _ _)

theorem noBackslash (h : Behind text part) (hplain : backslash ∉ text) : backslash ∉ part :=
  fun hmem => hplain (h.suffix.subset hmem)

end Behind

theorem Unescaped.behind {text part : Bytes} (h : Unescaped text) (hpart : Behind text part) :
    Unescaped part where
  noBackslash := hpart.noBackslash h.noBackslash
  short run hrun := h.short run (hrun.trans hpart.outside.isInfix)

/-- A string without escapes is what it denotes. -/
theorem chars_unescaped {s text rest : Bytes} (h : Chars s text rest) (hplain : backslash ∉ text) :
    text = s ++ quote :: rest := by
  induction h with
  | close => rfl
  | plain _ _ ih =>
    exact congrArg (_ :: ·) (ih fun hmem => hplain (List.mem_cons_of_mem _ hmem))
  | short => exact absurd List.mem_cons_self hplain
  | unicode => exact absurd List.mem_cons_self hplain

/-! ## Scanning -/

variable {numTokens : ℕ}

/-- The scan passes a character. -/
theorem stringLength_next {c : UInt8} {scan scan' : Scan} (h : scan.next c = .ok (some scan'))
    (rest : Bytes) : stringLength scan (c :: rest) = (stringLength scan' rest).map (· + 1) := by
  rw [stringLength, h]

theorem ne_nul_of_isUnescaped {c : UInt8} (hc : isUnescaped c = true) : c ≠ nul := by
  rintro rfl
  exact absurd hc (by decide)

theorem next_unescaped {c : UInt8} (hc : isUnescaped c = true) :
    Scan.plain.next c = .ok (some .plain) := by
  have hnul := ne_nul_of_isUnescaped hc
  rw [isUnescaped, Bool.and_eq_true, Bool.and_eq_true, decide_eq_true_eq, decide_eq_true_eq,
    decide_eq_true_eq] at hc
  rw [Scan.next, if_neg hnul, if_neg hc.1.2, if_neg hc.2]

theorem next_shortEscape {e c : UInt8} (h : (e, c) ∈ shortEscapes) :
    Scan.escape.next e = .ok (some .plain) := by
  have hall : ∀ p ∈ shortEscapes, Scan.escape.next p.1 = .ok (some .plain) := by
    simp only [shortEscapes, List.forall_mem_cons]
    exact ⟨rfl, rfl, rfl, rfl, rfl, rfl, rfl, rfl, fun _ hp => (List.not_mem_nil hp).elim⟩
  exact hall _ h

theorem next_hex {c : UInt8} (hc : isHexDigit c = true) :
    (Scan.hex 0).next c = .ok (some .plain) ∧
      ∀ more, (Scan.hex (more + 1)).next c = .ok (some (.hex more)) := by
  have hnul : c ≠ nul := by
    rintro rfl
    exact absurd hc (by decide)
  refine ⟨?_, fun more => ?_⟩
  · rw [Scan.next, if_neg hnul, if_pos hc, if_pos rfl]
  · rw [Scan.next, if_neg hnul, if_pos hc, if_neg (Nat.succ_ne_zero more), Nat.add_one_sub_one]

theorem next_backslash : Scan.plain.next backslash = .ok (some .escape) := rfl

/-- A `\u` escape, behind the backslash. -/
theorem codeUnit?_eq {text rest : Bytes} {unit : ℕ} (h : codeUnit? text = some (unit, rest)) :
    ∃ a b c d, text = 117 :: a :: b :: c :: d :: rest ∧ isHexDigit a = true ∧
      isHexDigit b = true ∧ isHexDigit c = true ∧ isHexDigit d = true := by
  rw [codeUnit?.eq_def] at h
  split at h
  · rename_i u a b c d rest'
    split_ifs at h with hunit
    obtain ⟨rfl, rfl⟩ := Prod.mk.inj (Option.some.inj h)
    obtain ⟨rfl, hdigits⟩ := hunit
    simp only [List.all_cons, List.all_nil, Bool.and_true, Bool.and_eq_true] at hdigits
    exact ⟨a, b, c, d, rfl, hdigits⟩
  · cases h

/-- The scan passes a `\u` escape. -/
theorem stringLength_codeUnit {text rest : Bytes} {unit : ℕ}
    (h : codeUnit? text = some (unit, rest)) :
    ∃ front, backslash :: text = front ++ rest ∧ stringLength .plain (backslash :: text) =
      (stringLength .plain rest).map (· + front.length) := by
  obtain ⟨a, b, c, d, rfl, ha, hb, hc, hd⟩ := codeUnit?_eq h
  refine ⟨[backslash, 117, a, b, c, d], rfl, ?_⟩
  have hu : Scan.escape.next 117 = .ok (some (.hex 3)) := rfl
  rw [stringLength_next next_backslash, stringLength_next hu, stringLength_next ((next_hex ha).2 2),
    stringLength_next ((next_hex hb).2 1), stringLength_next ((next_hex hc).2 0),
    stringLength_next (next_hex hd).1]
  cases stringLength .plain rest <;> rfl

/-- The scan passes the escape of a code point, which is one or two of code units. -/
theorem stringLength_codePoint {text text' rest : Bytes} {unit point : ℕ}
    (hunit : codeUnit? text = some (unit, text')) (hpoint : codePoint unit text' = (point, rest)) :
    ∃ front, backslash :: text = front ++ rest ∧ stringLength .plain (backslash :: text) =
      (stringLength .plain rest).map (· + front.length) := by
  obtain ⟨front, hfront, hscan⟩ := stringLength_codeUnit hunit
  have hone : rest = text' ∨ ∃ tail low, text' = backslash :: tail ∧
      codeUnit? tail = some (low, rest) := by
    rw [codePoint] at hpoint
    split_ifs at hpoint
    · split at hpoint
      · rename_i low rest' hhead hlow
        split_ifs at hpoint
        · obtain ⟨-, rfl⟩ := Prod.mk.inj hpoint
          exact .inr ⟨text'.tail, low, List.eq_cons_of_mem_head? hhead, hlow⟩
        · exact .inl (Prod.mk.inj hpoint).2.symm
      · exact .inl (Prod.mk.inj hpoint).2.symm
    · exact .inl (Prod.mk.inj hpoint).2.symm
    · exact .inl (Prod.mk.inj hpoint).2.symm
  rcases hone with rfl | ⟨tail, low, rfl, hlow⟩
  · exact ⟨front, hfront, hscan⟩
  · obtain ⟨second, hsecond, hscan'⟩ := stringLength_codeUnit hlow
    refine ⟨front ++ second, by rw [hfront, hsecond, List.append_assoc], ?_⟩
    rw [hscan, hscan', List.length_append]
    cases stringLength .plain rest with
    | error => rfl
    | ok n =>
      simp only [Except.map]
      rw [Nat.add_assoc, Nat.add_comm second.length]

/-- **The scan of a string ends at its closing quotation mark.** -/
theorem stringLength_chars {s text rest : Bytes} (h : Chars s text rest) :
    ∃ raw, text = raw ++ quote :: rest ∧ stringLength .plain text = .ok raw.length := by
  -- what the scan passes in front of a string
  have hfront {text rest' rest : Bytes} (front : Bytes) (heq : text = front ++ rest')
      (hscan : stringLength .plain text = (stringLength .plain rest').map (· + front.length))
      (ih : ∃ raw, rest' = raw ++ quote :: rest ∧ stringLength .plain rest' = .ok raw.length) :
      ∃ raw, text = raw ++ quote :: rest ∧ stringLength .plain text = .ok raw.length := by
    obtain ⟨raw, rfl, hlen⟩ := ih
    refine ⟨front ++ raw, by rw [heq, List.append_assoc], ?_⟩
    rw [hscan, hlen, Except.map, List.length_append, Nat.add_comm]
  induction h with
  | close => exact ⟨[], rfl, rfl⟩
  | plain hc _ ih => exact hfront [_] rfl (stringLength_next (next_unescaped hc) _) ih
  | @short e c s text rest he _ ih =>
    refine hfront [backslash, e] rfl ?_ ih
    rw [stringLength_next next_backslash, stringLength_next (next_shortEscape he)]
    cases stringLength .plain text <;> rfl
  | unicode hunit hpoint _ ih =>
    obtain ⟨front, heq, hscan⟩ := stringLength_codePoint hunit hpoint
    exact hfront front heq hscan ih

/-- The characters of the words and the numbers of JSON. -/
def LiteralText (text : Bytes) : Prop := ∀ c ∈ text, IsNumeral c ∨ 97 ≤ c ∧ c ≤ 122

/-- The characters of a literal, as numbers. -/
theorem LiteralText.toNat {text : Bytes} (h : LiteralText text) {c : UInt8} (hc : c ∈ text) :
    c.toNat = 43 ∨ c.toNat = 45 ∨ c.toNat = 46 ∨ 48 ≤ c.toNat ∧ c.toNat ≤ 57 ∨ c.toNat = 69 ∨
      97 ≤ c.toNat ∧ c.toNat ≤ 122 := by
  rcases h c hc with (hdigit | rfl | rfl | rfl | rfl | rfl) | ⟨hge, hle⟩
  · have hbounds := isDigit_iff.1 hdigit
    omega
  · exact .inr (.inl rfl)
  · exact .inl rfl
  · exact .inr (.inr (.inl rfl))
  · exact .inr (.inr (.inr (.inr (.inl rfl))))
  · exact .inr (.inr (.inr (.inr (.inr (by decide)))))
  · have hrange := And.intro (UInt8.le_iff_toNat_le.1 hge) (UInt8.le_iff_toNat_le.1 hle)
    exact .inr (.inr (.inr (.inr (.inr hrange))))

/-- None of the characters that mean something to the tokenizer. -/
theorem LiteralText.ne {text : Bytes} (h : LiteralText text) {c d : UInt8} (hc : c ∈ text)
    (hd : d.toNat < 43 ∨ d.toNat = 44 ∨ 57 < d.toNat ∧ d.toNat < 69 ∨ 69 < d.toNat ∧ d.toNat < 97 ∨
      122 < d.toNat) : c ≠ d := by
  refine ne_of_toNat_ne ?_
  have := h.toNat hc
  omega

/-- A literal is scanned up to its end. -/
theorem primitiveLength_literal {text rest : Bytes} (h : LiteralText text) (hrest : EndsHere rest) :
    primitiveLength (text ++ rest) = .ok text.length := by
  induction text with
  | nil =>
    cases rest with
    | nil => rfl
    | cons c rest => simp [primitiveLength, hrest c rfl]
  | cons c text ih =>
    have hne {d : UInt8} := h.ne (d := d) List.mem_cons_self
    have hends : endsPrimitive c = false := by
      rw [endsPrimitive, decide_eq_false_iff_not]
      simp only [List.mem_cons, List.not_mem_nil, or_false, not_or]
      refine ⟨?_, ?_, ?_, ?_, ?_, ?_, ?_, ?_⟩
      all_goals exact hne (by decide)
    have hrange : ¬c < 32 ∧ ¬127 ≤ c := by
      have := h.toNat (List.mem_cons_self (a := c))
      rw [UInt8.lt_iff_toNat_lt, UInt8.le_iff_toNat_le]
      simp only [UInt8.reduceToNat]
      omega
    have hnul : c ≠ nul := hne (by decide)
    rw [List.cons_append, primitiveLength, if_neg (by simp [hnul, hends]),
      if_neg (by simp [hrange.1, hrange.2]), ih fun d hd => h d (List.mem_cons_of_mem _ hd)]
    rfl

/-! ## The tokenizer on parts of a text -/

variable {buf : Bytes}

/-- The position in the buffer at which a text begins that goes to its end. -/
def offset (buf text : Bytes) : ℕ := buf.length - text.length

theorem offset_append {front text : Bytes} (h : front ++ text <:+ buf) :
    offset buf (front ++ text) + front.length = offset buf text := by
  have hlen := h.length_le
  rw [List.length_append] at hlen
  rw [offset, offset, List.length_append]
  omega

theorem offset_cons {c : UInt8} {text : Bytes} (h : c :: text <:+ buf) :
    offset buf (c :: text) + 1 = offset buf text :=
  offset_append (show [c] ++ text <:+ buf from h)

/-- The text between two positions. -/
theorem tokenText_offset {front text : Bytes} (h : front ++ text <:+ buf) (hne : front ++ text ≠ [])
    (type : TokType) (size : ℕ) :
    tokenText buf ⟨type, offset buf (front ++ text), offset buf text, size⟩ = .ok front := by
  obtain ⟨before, rfl⟩ := h
  have hdrop : (before ++ (front ++ text)).drop
      (offset (before ++ (front ++ text)) (front ++ text)) = front ++ text := by
    rw [offset, List.length_append, Nat.add_sub_cancel, List.drop_left]
  exact tokenText_of_drop hdrop (offset_append (List.suffix_append _ _)).symm hne

theorem suffix_of_space {text rest : Bytes} (h : Space text rest) : rest <:+ text := by
  induction h with
  | nil => exact List.suffix_rfl
  | cons _ _ ih => exact ih.trans (List.suffix_cons _ _)

/-- What is behind a character that white space may stand in front of. -/
theorem suffix_behind {c : UInt8} {text rest : Bytes} (h : Space text (c :: rest)) :
    rest <:+ text :=
  (List.suffix_cons _ _).trans (suffix_of_space h)

/-- The next child is behind a comma. -/
theorem suffix_of_comma {text behind next : Bytes} (h : Space text (comma :: behind))
    (h' : Space behind next) : next <:+ text :=
  (suffix_of_space h').trans (suffix_behind h)

theorem eq_of_isWs {c : UInt8} (hc : isWs c = true) :
    c = space ∨ c = tab ∨ c = newline ∨ c = carriageReturn := by
  simpa only [isWs, Bool.or_eq_true, decide_eq_true_eq, or_assoc] using hc

/-- White space changes nothing but the position. -/
theorem parseLoop_space {text rest : Bytes} (h : Space text rest) (hbuf : text <:+ buf)
    (tokens : List Token) (toksuper : Option ℕ) :
    parseLoop numTokens text ⟨offset buf text, tokens, toksuper⟩ =
      parseLoop numTokens rest ⟨offset buf rest, tokens, toksuper⟩ := by
  induction h with
  | nil => rfl
  | @cons c text rest hc _ ih =>
    have hstep (p : Parser) : step numTokens c text p = .ok (p, 0) := by
      rcases eq_of_isWs hc with rfl | rfl | rfl | rfl <;> rfl
    have hnul : c ≠ nul := by
      rintro rfl
      exact absurd hc (by decide)
    rw [parseLoop_cons hnul (hstep _), List.drop_zero, Nat.add_zero, offset_cons hbuf]
    exact ih ((List.suffix_cons _ _).trans hbuf)

/-- A string adds its token. -/
theorem parseLoop_chars {s text rest : Bytes} (h : Chars s text rest) (hbuf : quote :: text <:+ buf)
    {tokens : List Token} {toksuper : Option ℕ} (hsuper : ∀ i ∈ toksuper, i < tokens.length)
    (hroom : tokens.length < numTokens) :
    parseLoop numTokens (quote :: text) ⟨offset buf (quote :: text), tokens, toksuper⟩ =
      parseLoop numTokens rest ⟨offset buf rest, bumpSuper toksuper tokens ++
        [⟨.string, offset buf text, offset buf (quote :: rest), 0⟩], toksuper⟩ := by
  obtain ⟨raw, rfl, hlen⟩ := stringLength_chars h
  have htext : raw ++ quote :: rest <:+ buf := (List.suffix_cons _ _).trans hbuf
  have hstart := offset_cons hbuf
  have hstop := offset_append htext
  have hend := offset_cons ((List.suffix_append raw _).trans htext)
  let p : Parser := ⟨offset buf (quote :: (raw ++ quote :: rest)), tokens, toksuper⟩
  let token : Token := ⟨.string, offset buf (raw ++ quote :: rest), offset buf (quote :: rest), 0⟩
  have hstep : step numTokens quote (raw ++ quote :: rest) p =
      .ok (p.add 0 token, raw.length + 1) := by
    have hquote : step numTokens quote (raw ++ quote :: rest) p = (do
        let len ← stringLength .plain (raw ++ quote :: rest)
        let p ← addScalar numTokens ⟨.string, p.pos + 1, p.pos + 1 + len, 0⟩ p
        return (p, len + 1)) := rfl
    have htoken : (⟨.string, p.pos + 1, p.pos + 1 + raw.length, 0⟩ : Token) = token := by
      simp only [token, p, Token.mk.injEq, true_and, and_true]
      omega
    rw [hquote, hlen]
    simp only [bind, Except.bind, pure, Except.pure, htoken, addScalar_ok p token hroom]
  have hnul : quote ≠ nul := by decide
  have hdrop : (raw ++ quote :: rest).drop (raw.length + 1) = rest := by
    rw [List.drop_length_add_append]
    rfl
  have hpos : p.pos + (raw.length + 1) + 1 = offset buf rest := by
    simp only [p]
    omega
  rw [parseLoop_cons hnul hstep, add_eq hsuper, hdrop, hpos]

/-- A literal adds its token. -/
theorem parseLoop_literal {text rest : Bytes} (h : LiteralText text) (hne : text ≠ [])
    (hrest : EndsHere rest) (hbuf : text ++ rest <:+ buf) {tokens : List Token}
    {toksuper : Option ℕ} (hsuper : ∀ i ∈ toksuper, i < tokens.length)
    (hroom : tokens.length < numTokens) :
    parseLoop numTokens (text ++ rest) ⟨offset buf (text ++ rest), tokens, toksuper⟩ =
      parseLoop numTokens rest ⟨offset buf rest, bumpSuper toksuper tokens ++
        [⟨.primitive, offset buf (text ++ rest), offset buf rest, 0⟩], toksuper⟩ := by
  have hstop := offset_append hbuf
  let p : Parser := ⟨offset buf (text ++ rest), tokens, toksuper⟩
  let token : Token := ⟨.primitive, offset buf (text ++ rest), offset buf rest, 0⟩
  have htoken : (⟨.primitive, p.pos, p.pos + text.length, 0⟩ : Token) = token := by
    simp only [token, p, Token.mk.injEq, true_and, and_true]
    omega
  have hlen := primitiveLength_literal h hrest
  obtain ⟨c, tail, rfl⟩ := List.exists_cons_of_ne_nil hne
  have hchar {d : UInt8} := h.ne (d := d) List.mem_cons_self
  have hstep : step numTokens c (tail ++ rest) p = .ok (p.add 0 token, tail.length) := by
    rw [step, if_neg (hchar (by decide)), if_neg (hchar (by decide)), if_neg (hchar (by decide)),
      if_neg (hchar (by decide)), if_neg (hchar (by decide)),
      if_neg (by simp [hchar (d := tab) (by decide), hchar (d := carriageReturn) (by decide),
        hchar (d := newline) (by decide), hchar (d := space) (by decide)]),
      if_neg (hchar (by decide)), if_neg (hchar (by decide)), ← List.cons_append, hlen]
    simp only [bind, Except.bind, pure, Except.pure, htoken, addScalar_ok p token hroom]
    rfl
  have hpos : p.pos + tail.length + 1 = offset buf rest := by
    rw [← hstop, List.length_cons, Nat.add_assoc]
  have hcons := parseLoop_cons (hchar (by decide)) hstep
  rw [add_eq hsuper, List.drop_left, hpos] at hcons
  exact hcons

/-! ## Numbers -/

/-- The text of a number. -/
theorem literalText_number {sign whole frac exp : ℚ} {m i f x : Bytes} (hm : Minus sign m)
    (hi : IntPart whole i) (hf : Frac frac f) (hx : Exp exp x) :
    LiteralText (m ++ i ++ f ++ x) :=
  fun c hc => .inl (isNumeral_number hm hi hf hx c hc)

/-- A number is parsed: up to 31 characters as a whole, and a longer one cut off. -/
theorem parsePrimitive_number {sign whole frac exp : ℚ} {m i f x : Bytes} (hm : Minus sign m)
    (hi : IntPart whole i) (hf : Frac frac f) (hx : Exp exp x) :
    ∃ b, parsePrimitive (m ++ i ++ f ++ x) = some (.number b) ∧
      (strtod ((m ++ i ++ f ++ x).take 31)).map mkNumber = some (.number b) ∧
      ((m ++ i ++ f ++ x).length < 32 →
        Value.number b = mkNumber (.round binary64 (sign * (whole + frac) * exp))) := by
  have hread := strtod_number hm hi hf hx
  have htext := literalText_number hm hi hf hx
  obtain ⟨d, rest, hcons, hd⟩ := hi.cons
  -- the first 31 characters begin with a number
  have hcut : ∃ y, strtod ((m ++ i ++ f ++ x).take 31) = some y := by
    have hlong : m ++ i ++ f ++ x = m ++ d :: (rest ++ f ++ x) := by
      rw [hcons]
      simp
    have htake : (m ++ d :: (rest ++ f ++ x)).take 31 =
        m ++ d :: (rest ++ f ++ x).take (30 - m.length) := by
      cases hm <;> rfl
    rw [hlong, htake]
    exact exists_strtod hm hd _
  have hsnprintf : snprintfPrefix 32 (m ++ i ++ f ++ x).length (m ++ i ++ f ++ x) =
      (m ++ i ++ f ++ x).take 31 := by
    have hnul : nul ∉ m ++ i ++ f ++ x := fun hmem => htext.ne hmem (by decide) rfl
    rw [snprintfPrefix, List.take_length, cstr_eq_self hnul]
  have hparse : parsePrimitive (m ++ i ++ f ++ x) =
      (strtod ((m ++ i ++ f ++ x).take 31)).map mkNumber := by
    obtain ⟨c, tail, hne, hc⟩ : ∃ c tail, m ++ i ++ f ++ x = c :: tail ∧
        (c = minus ∨ isDigit c = true) := by
      rw [hcons]
      cases hm with
      | none => exact ⟨d, _, rfl, .inr hd⟩
      | minus => exact ⟨minus, _, rfl, .inl rfl⟩
    have hletter : c ≠ 116 ∧ c ≠ 102 ∧ c ≠ 110 := by
      refine ⟨?_, ?_, ?_⟩ <;> rintro rfl <;> revert hc <;> decide
    rw [← hsnprintf, hne, parsePrimitive, if_neg hletter.1, if_neg hletter.2.1, if_neg hletter.2.2]
  obtain ⟨y, hy⟩ := hcut
  refine ⟨y.convert binary32, ?_, ?_, fun hshort => ?_⟩
  · rw [hparse, hy]
    rfl
  · rw [hy]
    rfl
  · rw [List.take_of_length_le (by omega), hread] at hy
    rw [← Option.some.inj hy]
    rfl

/-! ## The walk over the tokens of a text -/

/-- **The walk over the tokens** of a phrase, wherever they are among others. -/
def Walked (buf : Bytes) (toks : List Token) : Parsed → Prop
  | .value v => ∀ tokens i rest, tokens.drop i = toks ++ rest →
      countTokSize tokens i = .ok toks.length ∧ parseValue tokens buf i = .ok (some v)
  | .members entries => ∀ tokens i rest, tokens.drop i = toks ++ rest →
      countTokSizeLoop tokens i entries.length = .ok (i + toks.length) ∧
        ∀ res, parseObjectLoop tokens buf i entries.length res =
          .ok (entries.foldl (fun res entry => Object.set res entry.1 entry.2) res)
  | .items items => ∀ tokens i rest, tokens.drop i = toks ++ rest →
      countTokSizeLoop tokens i items.length = .ok (i + toks.length) ∧
        ∀ res, parseArrayLoop tokens buf i items.length res = .ok (res ++ items)

section Walk

variable {toks toks' : List Token}

/-- A token without children. -/
theorem walked_leaf {type : TokType} {start stop : ℤ} {text : Bytes} {v : Value}
    (htext : tokenText buf ⟨type, start, stop, 0⟩ = .ok text)
    (htype : type = .string ∧ v = .string text ∨
      type = .primitive ∧ parsePrimitive text = some v) :
    Walked buf [⟨type, start, stop, 0⟩] (.value v) := by
  intro tokens i rest h
  have hread := readToken_of_drop h
  refine ⟨countTokSize_of_loop (n := 0) hread (by rw [countTokSizeLoop]), ?_⟩
  rw [parseValue_of_read hread]
  rcases htype with ⟨rfl, rfl⟩ | ⟨rfl, hparse⟩
  · simp only [htext]
    rfl
  · simp only [htext, ← hparse]
    rfl

/-- An object is built from its members. -/
theorem walked_object {entries : List (Bytes × Value)} {start stop : ℤ} {size : ℕ}
    (hsize : size = entries.length) (h : Walked buf toks (.members entries)) :
    Walked buf (⟨.object, start, stop, size⟩ :: toks) (.value (.object (membersOf entries))) := by
  intro tokens i rest htoks
  rw [List.cons_append] at htoks
  have hread := readToken_of_drop htoks
  obtain ⟨hcount, hloop⟩ := h tokens (i + 1) rest (drop_of_drop htoks 1)
  subst hsize
  refine ⟨countTokSize_of_loop hread hcount, ?_⟩
  rw [parseValue_of_read hread]
  simp only [hloop]
  rfl

/-- An array is built from its items. -/
theorem walked_array {items : List Value} {start stop : ℤ} {size : ℕ}
    (hsize : size = items.length) (h : Walked buf toks (.items items)) :
    Walked buf (⟨.array, start, stop, size⟩ :: toks) (.value (.array items)) := by
  intro tokens i rest htoks
  rw [List.cons_append] at htoks
  have hread := readToken_of_drop htoks
  obtain ⟨hcount, hloop⟩ := h tokens (i + 1) rest (drop_of_drop htoks 1)
  subst hsize
  refine ⟨countTokSize_of_loop hread hcount, ?_⟩
  rw [parseValue_of_read hread]
  simp only [hloop, List.nil_append]
  rfl

theorem walked_noMembers : Walked buf [] (.members []) := by
  intro tokens i rest _
  refine ⟨by rw [List.length_nil, countTokSizeLoop]; rfl, fun res => ?_⟩
  rw [List.length_nil, parseObjectLoop]
  rfl

theorem walked_noItems : Walked buf [] (.items []) := by
  intro tokens i rest _
  refine ⟨by rw [List.length_nil, countTokSizeLoop]; rfl, fun res => ?_⟩
  rw [List.length_nil, parseArrayLoop, List.append_nil]

/-- A member is set under the text of its key. -/
theorem walked_member {raw : Bytes} {val : Value} {entries : List (Bytes × Value)} {start stop : ℤ}
    (hkey : tokenText buf ⟨.string, start, stop, 1⟩ = .ok raw) (hval : Walked buf toks (.value val))
    (h : Walked buf toks' (.members entries)) :
    Walked buf (⟨.string, start, stop, 1⟩ :: (toks ++ toks'))
      (.members ((raw, val) :: entries)) := by
  intro tokens i rest htoks
  rw [List.cons_append, List.append_assoc] at htoks
  have hread := readToken_of_drop htoks
  have hbehind := drop_of_drop htoks 1
  obtain ⟨hcount, hparse⟩ := hval tokens (i + 1) _ hbehind
  have hkeyCount : countTokSize tokens i = .ok (toks.length + 1) :=
    countTokSize_of_loop hread (by
      rw [countTokSizeLoop, hcount]
      simp only [countTokSizeLoop])
  obtain ⟨hcount', hloop⟩ := h tokens (i + (toks.length + 1)) rest
    (drop_of_drop_append hbehind (by omega))
  refine ⟨?_, fun res => ?_⟩
  · rw [List.length_cons, countTokSizeLoop, hkeyCount]
    simp only [hcount', List.length_cons, List.length_append]
    congr 1
    omega
  · have hset : setMember buf ⟨.string, start, stop, 1⟩ (some val) res =
        .ok (Object.set res raw val) := by
      rw [setMember, hkey]
      rfl
    rw [List.length_cons, parseObjectLoop_key hread ⟨rfl, rfl⟩ hparse hset hkeyCount, hloop]
    rfl

/-- An item is pushed behind the others. -/
theorem walked_item {item : Value} {items : List Value} (hitem : Walked buf toks (.value item))
    (h : Walked buf toks' (.items items)) :
    Walked buf (toks ++ toks') (.items (item :: items)) := by
  intro tokens i rest htoks
  rw [List.append_assoc] at htoks
  obtain ⟨hcount, hparse⟩ := hitem tokens i _ htoks
  obtain ⟨hcount', hloop⟩ := h tokens (i + toks.length) rest (drop_of_drop_append htoks rfl)
  refine ⟨?_, fun res => ?_⟩
  · rw [List.length_cons, countTokSizeLoop, hcount]
    simp only [hcount', List.length_append]
    congr 1
    omega
  · rw [List.length_cons, parseArrayLoop, hparse]
    simp only [hcount, Option.toList_some, hloop]
    rw [List.append_assoc, List.singleton_append]

end Walk

/-! ## The tokenizer on containers -/

/-- The tokenizer on what is left of a container, up to its closing bracket: the tokens of as many
more children are appended. -/
def Filled (buf text rest : Bytes) (toks : List Token) (type : TokType) (count : ℕ) : Prop :=
  ∀ (numTokens : ℕ) (B C : List Token) (start size : ℕ), (∀ t ∈ C, t.isOpen = false) →
    B.length + 1 + C.length + toks.length ≤ numTokens →
    parseLoop numTokens text
        ⟨offset buf text, B ++ ⟨type, start, -1, size⟩ :: C, some B.length⟩ =
      parseLoop numTokens rest
        ⟨offset buf rest, B ++ ⟨type, start, offset buf rest, size + count⟩ :: (C ++ toks),
          lastIdx? Token.isOpen B⟩

/-- The tokenizer on a child of a container: afterwards the container, or a key in it, is the super
token. -/
def Child (buf text rest : Bytes) (toks : List Token) (type : TokType) : Prop :=
  ∀ (numTokens : ℕ) (B C : List Token) (start size : ℕ), EndsHere rest →
    (∀ t ∈ C, t.isOpen = false) → B.length + 1 + C.length + toks.length ≤ numTokens →
    ∃ toksuper, SuperIn B (B ++ ⟨type, start, -1, size + 1⟩ :: (C ++ toks)) toksuper ∧
      parseLoop numTokens text
          ⟨offset buf text, B ++ ⟨type, start, -1, size⟩ :: C, some B.length⟩ =
        parseLoop numTokens rest
          ⟨offset buf rest, B ++ ⟨type, start, -1, size + 1⟩ :: (C ++ toks), toksuper⟩

/-- The tokenizer on a value: its tokens are appended, and the super token counts it. -/
def Appended (buf text rest : Bytes) (toks : List Token) (container : Bool) : Prop :=
  ∀ (numTokens : ℕ) (tokens : List Token) (toksuper : Option ℕ), EndsHere rest →
    (∀ i ∈ toksuper, i < tokens.length) → tokens.length + toks.length ≤ numTokens →
    parseLoop numTokens text ⟨offset buf text, tokens, toksuper⟩ =
      parseLoop numTokens rest ⟨offset buf rest, bumpSuper toksuper tokens ++ toks,
        if container then lastIdx? Token.isOpen tokens else toksuper⟩

section Containers

variable {text text' rest : Bytes} {toks toks' : List Token} {type : TokType} {count : ℕ}

/-- A bracket and the type of its container. -/
def Closes (c : UInt8) (type : TokType) : Prop :=
  c = closeBrace ∧ type = .object ∨ c = closeBracket ∧ type = .array

theorem endsHere_cons {c : UInt8} (hc : endsPrimitive c = true) : EndsHere (c :: rest) := by
  rintro d ⟨⟩
  exact hc

/-- A primitive ends in front of white space. -/
theorem endsHere_space (h : Space text rest) (hrest : EndsHere rest) : EndsHere text := by
  cases h with
  | nil => exact hrest
  | @cons d _ _ hd _ =>
    refine endsHere_cons ?_
    rcases eq_of_isWs hd with rfl | rfl | rfl | rfl <;> rfl

/-- The closing bracket behind the last child. -/
theorem parseLoop_closing {c : UInt8} (hc : Closes c type) (h : Space text (c :: rest))
    (hbuf : text <:+ buf) {B C : List Token} {start size : ℕ} {toksuper : Option ℕ}
    (hC : ∀ t ∈ C, t.isOpen = false) :
    parseLoop numTokens text ⟨offset buf text, B ++ ⟨type, start, -1, size⟩ :: C, toksuper⟩ =
      parseLoop numTokens rest
        ⟨offset buf rest, B ++ ⟨type, start, offset buf rest, size⟩ :: C,
          lastIdx? Token.isOpen B⟩ := by
  rw [parseLoop_space h hbuf, parseLoop_close hc hC,
    offset_cons ((suffix_of_space h).trans hbuf)]

theorem filled_empty {c : UInt8} (hc : Closes c type) (h : Space text (c :: rest))
    (hbuf : text <:+ buf) : Filled buf text rest [] type 0 := by
  intro numTokens B C start size hC _
  rw [parseLoop_closing hc h hbuf hC, List.append_nil, Nat.add_zero]

theorem Child.last {c : UInt8} (hchild : Child buf text text' toks type) (hc : Closes c type)
    (h : Space text' (c :: rest)) (hbuf : text' <:+ buf) (htoks : ∀ t ∈ toks, t.isOpen = false) :
    Filled buf text rest toks type 1 := by
  intro numTokens B C start size hC hroom
  have hends : endsPrimitive c = true := by rcases hc with ⟨rfl, -⟩ | ⟨rfl, -⟩ <;> rfl
  obtain ⟨toksuper, -, hloop⟩ := hchild numTokens B C start size
    (endsHere_space h (endsHere_cons hends)) hC hroom
  have hclosed : ∀ t ∈ C ++ toks, t.isOpen = false := List.forall_mem_append.2 ⟨hC, htoks⟩
  rw [hloop, parseLoop_closing hc h hbuf hclosed]

theorem Child.more {behind next : Bytes} (hchild : Child buf text text' toks type)
    (htype : type = .object ∨ type = .array) (h : Space text' (comma :: behind))
    (h' : Space behind next) (hbuf : text' <:+ buf) (htoks : ∀ t ∈ toks, t.isOpen = false)
    (hrest : Filled buf next rest toks' type count) :
    Filled buf text rest (toks ++ toks') type (count + 1) := by
  intro numTokens B C start size hC hroom
  rw [List.length_append] at hroom
  obtain ⟨toksuper, hsuper, hloop⟩ := hchild numTokens B C start size
    (endsHere_space h (endsHere_cons rfl)) hC (by omega)
  have hclosed : ∀ t ∈ C ++ toks, t.isOpen = false := List.forall_mem_append.2 ⟨hC, htoks⟩
  have hcomma : comma :: behind <:+ buf := (suffix_of_space h).trans hbuf
  have hbehind : behind <:+ buf := (List.suffix_cons _ _).trans hcomma
  rw [hloop, parseLoop_space h hbuf, parseLoop_comma htype hclosed hsuper, offset_cons hcomma,
    parseLoop_space h' hbehind,
    hrest numTokens B (C ++ toks) start (size + 1) hclosed (by rw [List.length_append]; omega),
    List.append_assoc, Nat.add_assoc, Nat.add_comm 1 count]

/-- An item of an array. -/
theorem Appended.child {container : Bool} (h : Appended buf text rest toks container) :
    Child buf text rest toks type := by
  intro numTokens B C start size hends hC hroom
  refine ⟨some B.length, .inl rfl, ?_⟩
  have hloop := h numTokens (B ++ ⟨type, start, -1, size⟩ :: C) (some B.length) hends
    (by rintro i ⟨⟩; simp) (by rw [List.length_append, List.length_cons]; omega)
  rw [lastIdx?_append_cons isOpen_open hC, ite_self] at hloop
  simp only [bumpSuper, modify_length_append, List.append_assoc, List.cons_append] at hloop
  exact hloop

/-- A member of an object. -/
theorem Appended.member {container : Bool} {key afterKey value front : Bytes}
    (hkey : Chars key text afterKey) (hcolon : Space afterKey (colon :: value))
    (hfront : Space value front) (hbuf : quote :: text <:+ buf) (hafter : afterKey <:+ buf)
    (h : Appended buf front rest toks container) :
    Child buf (quote :: text) rest
      (⟨.string, offset buf text, offset buf (quote :: afterKey), 1⟩ :: toks) .object := by
  intro numTokens B C start size hends hC hroom
  rw [List.length_cons] at hroom
  have hvalue : colon :: value <:+ buf := (suffix_of_space hcolon).trans hafter
  -- the key is counted by the object, and the colon makes it the super token
  have hin : ∀ i ∈ some B.length, i < (B ++ Token.mk .object start (-1) size :: C).length := by
    rintro i ⟨⟩
    simp
  have hfirst : (B ++ Token.mk .object start (-1) size :: C).length < numTokens := by
    rw [List.length_append, List.length_cons]
    omega
  have hchars := parseLoop_chars hkey hbuf hin hfirst
  simp only [bumpSuper, modify_length_append] at hchars
  generalize hT : B ++ ⟨.object, start, -1, size + 1⟩ :: C = T at hchars
  have hTlen : T.length = B.length + 1 + C.length := by
    rw [← hT, List.length_append, List.length_cons]
    omega
  -- the value is counted by the key
  have hloop := h numTokens (T ++ [⟨.string, offset buf text, offset buf (quote :: afterKey), 0⟩])
    (some T.length) hends (by rintro i ⟨⟩; simp)
    (by rw [List.length_append, List.length_singleton]; omega)
  have hlast : lastIdx? Token.isOpen
      (T ++ [⟨.string, offset buf text, offset buf (quote :: afterKey), 0⟩]) = some B.length := by
    rw [lastIdx?_append_left isOpen_of_mem_singleton, ← hT]
    exact lastIdx?_append_cons isOpen_open hC
  rw [hlast] at hloop
  simp only [bumpSuper, modify_length_append] at hloop
  refine ⟨if container then some B.length else some T.length, ?_, ?_⟩
  · split_ifs
    · exact .inl rfl
    · refine .inr ⟨T.length, ⟨.string, offset buf text, offset buf (quote :: afterKey), 1⟩, rfl, ?_,
        rfl⟩
      rw [← List.cons_append, ← List.append_assoc, hT, List.getElem?_append_right le_rfl,
        Nat.sub_self, List.getElem?_cons_zero]
  · rw [hchars, parseLoop_space hcolon hafter, parseLoop_colon, offset_cons hvalue,
      parseLoop_space hfront ((List.suffix_cons _ _).trans hvalue), hloop, ← hT]
    simp only [List.append_assoc, List.cons_append, List.nil_append]

/-- An object or an array is opened, filled and closed. -/
theorem Filled.appended {c : UInt8} (hc : c = openBrace ∧ type = .object ∨
      c = openBracket ∧ type = .array) (hfront : Space text text') (hbuf : c :: text <:+ buf)
    (h : Filled buf text' rest toks type count) :
    Appended buf (c :: text) rest (⟨type, offset buf (c :: text), offset buf rest, count⟩ :: toks)
      true := by
  intro numTokens tokens toksuper _ hsuper hroom
  rw [List.length_cons] at hroom
  have hlen := length_bumpSuper toksuper tokens
  rw [parseLoop_open hc _ hsuper (by simp only; omega), offset_cons hbuf,
    parseLoop_space hfront ((List.suffix_cons _ _).trans hbuf),
    h numTokens (bumpSuper toksuper tokens) [] _ 0 (by simp) (by rw [hlen]; simp; omega),
    lastIdx?_bumpSuper, List.nil_append, Nat.zero_add]
  rfl

theorem appended_literal (h : LiteralText text) (hne : text ≠ []) (hbuf : text ++ rest <:+ buf) :
    Appended buf (text ++ rest) rest [⟨.primitive, offset buf (text ++ rest), offset buf rest, 0⟩]
      false := by
  intro numTokens tokens toksuper hends hsuper hroom
  exact parseLoop_literal h hne hends hbuf hsuper hroom

theorem appended_string {s : Bytes} (h : Chars s text rest) (hbuf : quote :: text <:+ buf) :
    Appended buf (quote :: text) rest [⟨.string, offset buf text, offset buf (quote :: rest), 0⟩]
      false := by
  intro numTokens tokens toksuper _ hsuper hroom
  exact parseLoop_chars h hbuf hsuper hroom

end Containers

/-! ## All phrases -/

/-- An object or an array. -/
def isContainerOf : RbProtocol.Json → Bool
  | .object _ => true
  | .array _ => true
  | _ => false

/-- **The tokenizer on a phrase.** -/
def Tokenized (buf text rest : Bytes) (toks : List Token) : Phrase → Prop
  | .value v => Appended buf text rest toks (isContainerOf v)
  | .members members => Filled buf text rest toks .object members.length
  | .items items => Filled buf text rest toks .array items.length

/-- The tokens of a phrase, and what is read for it. -/
structure TokensOf (buf text rest : Bytes) (phrase : Phrase) (parsed : Parsed) (toks : List Token) :
    Prop where
  suffix : rest <:+ text
  closed : ∀ t ∈ toks, t.isOpen = false
  length_eq : toks.length = phraseCount phrase
  tokenized : Tokenized buf text rest toks phrase
  walked : Walked buf toks parsed
  stands : StandsFor parsed phrase text rest
  behind : backslash ∉ text → Behind text rest
  plain : Unescaped text → parsed = .ofPhrase phrase

section Phrases

variable {text rest : Bytes}

theorem StandsFor.value {parsed : Parsed} {v : RbProtocol.Json}
    (h : StandsFor parsed (.value v) text rest) : ∃ val, parsed = .value val := by
  cases h <;> exact ⟨_, rfl⟩

theorem StandsFor.members {parsed : Parsed} {members : List (Bytes × RbProtocol.Json)}
    (h : StandsFor parsed (.members members) text rest) :
    ∃ entries, parsed = .members entries ∧ entries.length = members.length := by
  induction members generalizing parsed text with
  | nil =>
    cases h
    exact ⟨[], rfl, rfl⟩
  | cons member members ih =>
    cases h with
    | lastMember => exact ⟨_, rfl, rfl⟩
    | member _ _ _ _ _ _ hentries =>
      obtain ⟨entries, heq, hlen⟩ := ih hentries
      obtain rfl := Parsed.members.inj heq
      exact ⟨_, rfl, congrArg (· + 1) hlen⟩

theorem StandsFor.items {parsed : Parsed} {vs : List RbProtocol.Json}
    (h : StandsFor parsed (.items vs) text rest) :
    ∃ items, parsed = .items items ∧ items.length = vs.length := by
  induction vs generalizing parsed text with
  | nil =>
    cases h
    exact ⟨[], rfl, rfl⟩
  | cons v vs ih =>
    cases h with
    | lastItem => exact ⟨_, rfl, rfl⟩
    | item _ _ _ hitems =>
      obtain ⟨items, heq, hlen⟩ := ih hitems
      obtain rfl := Parsed.items.inj heq
      exact ⟨_, rfl, congrArg (· + 1) hlen⟩

/-- A word or a number. -/
theorem tokensOf_literal {literal : Bytes} {v : RbProtocol.Json} {val : Value}
    (hliteral : LiteralText literal) (hne : literal ≠ []) (hbuf : literal ++ rest <:+ buf)
    (hparse : parsePrimitive literal = some val)
    (hstands : StandsFor (.value val) (.value v) (literal ++ rest) rest)
    (hplain : ((∀ c ∈ literal, IsNumeral c) → literal.length < 32) → val = valueOf v)
    (hcount : tokenCountOf v = 1)
    (hcontainer : isContainerOf v = false) :
    TokensOf buf (literal ++ rest) rest (.value v) (.value val)
      [⟨.primitive, offset buf (literal ++ rest), offset buf rest, 0⟩] where
  suffix := List.suffix_append _ _
  closed := isOpen_of_mem_singleton
  length_eq := hcount.symm
  tokenized := by
    rw [Tokenized, hcontainer]
    exact appended_literal hliteral hne hbuf
  walked := walked_leaf (tokenText_offset hbuf (by simp [hne]) _ _) (.inr ⟨rfl, hparse⟩)
  stands := hstands
  behind _ := .append (fun hmem => hliteral.ne hmem (by decide) rfl) rest
  plain h := by
    refine congrArg Parsed.value (hplain (h.short literal ?_))
    rw [emptyStrings_append fun hmem => hliteral.ne hmem (by decide) rfl]
    exact (List.prefix_append _ _).isInfix

/-- The text of a string lies between its quotation marks. -/
theorem tokenText_chars {s : Bytes} (h : Chars s text rest) (hbuf : text <:+ buf) (size : ℕ) :
    ∃ raw, text = raw ++ quote :: rest ∧ (backslash ∉ text → raw = s) ∧ quote :: rest <:+ text ∧
      tokenText buf ⟨.string, offset buf text, offset buf (quote :: rest), size⟩ = .ok raw := by
  obtain ⟨raw, rfl, -⟩ := stringLength_chars h
  exact ⟨raw, rfl, fun hplain => List.append_cancel_right (chars_unescaped h hplain),
    List.suffix_append _ _, tokenText_offset hbuf (by simp) _ _⟩

theorem tokensOf_string {s : Bytes} (h : Chars s text rest) (hbuf : quote :: text <:+ buf) :
    ∃ raw, TokensOf buf (quote :: text) rest (.value (.string s)) (.value (.string raw))
      [⟨.string, offset buf text, offset buf (quote :: rest), 0⟩] := by
  obtain ⟨raw, rfl, hraw, hsuffix, htext⟩ :=
    tokenText_chars h ((List.suffix_cons _ _).trans hbuf) 0
  exact ⟨raw,
    { suffix := ((List.suffix_cons _ _).trans hsuffix).trans (List.suffix_cons _ _)
      closed := isOpen_of_mem_singleton
      length_eq := rfl
      tokenized := appended_string h hbuf
      walked := walked_leaf htext (.inl ⟨rfl, rfl⟩)
      stands := .string h
      behind := fun hplain => .string h fun hmem => hplain (List.mem_cons_of_mem _ hmem)
      plain := fun hplain => by
        rw [hraw fun hmem => hplain.noBackslash (List.mem_cons_of_mem _ hmem)]
        rfl }⟩

theorem TokensOf.array {text' : Bytes} {vs : List RbProtocol.Json} {items : List Value}
    {toks : List Token} (h : TokensOf buf text' rest (.items vs) (.items items) toks)
    (hfront : Space text text') (hbuf : openBracket :: text <:+ buf) :
    TokensOf buf (openBracket :: text) rest (.value (.array vs)) (.value (.array items))
      (⟨.array, offset buf (openBracket :: text), offset buf rest, vs.length⟩ :: toks) where
  suffix := (h.suffix.trans (suffix_of_space hfront)).trans (List.suffix_cons _ _)
  closed := List.forall_mem_cons.2 ⟨isOpen_of_natCast, h.closed⟩
  length_eq := congrArg (· + 1) h.length_eq
  tokenized := Filled.appended (.inr ⟨rfl, rfl⟩) hfront hbuf h.tokenized
  walked := by
    obtain ⟨items', heq, hlen⟩ := h.stands.items
    obtain rfl := Parsed.items.inj heq
    exact walked_array hlen.symm h.walked
  stands := .array hfront h.stands
  behind hplain :=
    have hitems := (Behind.cons (by decide) text).trans (.space hfront)
    hitems.trans (h.behind (hitems.noBackslash hplain))
  plain hplain := by
    have hitems := h.plain (hplain.behind ((Behind.cons (by decide) text).trans (.space hfront)))
    rw [Parsed.items.inj hitems]
    rfl

theorem TokensOf.object {text' : Bytes} {members : List (Bytes × RbProtocol.Json)}
    {entries : List (Bytes × Value)} {toks : List Token}
    (h : TokensOf buf text' rest (.members members) (.members entries) toks)
    (hfront : Space text text') (hbuf : openBrace :: text <:+ buf) :
    TokensOf buf (openBrace :: text) rest (.value (.object members))
      (.value (.object (membersOf entries)))
      (⟨.object, offset buf (openBrace :: text), offset buf rest, members.length⟩ :: toks) where
  suffix := (h.suffix.trans (suffix_of_space hfront)).trans (List.suffix_cons _ _)
  closed := List.forall_mem_cons.2 ⟨isOpen_of_natCast, h.closed⟩
  length_eq := congrArg (· + 1) h.length_eq
  tokenized := Filled.appended (.inl ⟨rfl, rfl⟩) hfront hbuf h.tokenized
  walked := by
    obtain ⟨entries', heq, hlen⟩ := h.stands.members
    obtain rfl := Parsed.members.inj heq
    exact walked_object hlen.symm h.walked
  stands := .object hfront h.stands
  behind hplain :=
    have hmembers := (Behind.cons (by decide) text).trans (.space hfront)
    hmembers.trans (h.behind (hmembers.noBackslash hplain))
  plain hplain := by
    have hentries := h.plain (hplain.behind ((Behind.cons (by decide) text).trans (.space hfront)))
    rw [Parsed.members.inj hentries]
    rfl

theorem tokensOf_noItems (h : Space text (closeBracket :: rest)) (hbuf : text <:+ buf) :
    TokensOf buf text rest (.items []) (.items []) [] where
  suffix := suffix_behind h
  closed := List.forall_mem_nil _
  length_eq := rfl
  tokenized := filled_empty (.inr ⟨rfl, rfl⟩) h hbuf
  walked := walked_noItems
  stands := .noItems h
  behind _ := .mark (by decide) h
  plain _ := rfl

theorem tokensOf_noMembers (h : Space text (closeBrace :: rest)) (hbuf : text <:+ buf) :
    TokensOf buf text rest (.members []) (.members []) [] where
  suffix := suffix_behind h
  closed := List.forall_mem_nil _
  length_eq := rfl
  tokenized := filled_empty (.inl ⟨rfl, rfl⟩) h hbuf
  walked := walked_noMembers
  stands := .noMembers h
  behind _ := .mark (by decide) h
  plain _ := rfl

section Children

variable {text' behind next : Bytes} {v : RbProtocol.Json} {val : Value} {toks toks' : List Token}

theorem TokensOf.lastItem (h : TokensOf buf text text' (.value v) (.value val) toks)
    (hspace : Space text' (closeBracket :: rest)) (hbuf : text <:+ buf) :
    TokensOf buf text rest (.items [v]) (.items [val]) toks where
  suffix := (suffix_behind hspace).trans h.suffix
  closed := h.closed
  length_eq := h.length_eq
  tokenized := (Appended.child h.tokenized).last (.inr ⟨rfl, rfl⟩) hspace (h.suffix.trans hbuf)
    h.closed
  walked := by
    have hitem : Walked buf (toks ++ []) (.items [val]) := walked_item h.walked walked_noItems
    rwa [List.append_nil] at hitem
  stands := .lastItem h.stands hspace
  behind hplain := (h.behind hplain).trans (.mark (by decide) hspace)
  plain hplain := by
    rw [Parsed.value.inj (h.plain hplain)]
    rfl

theorem TokensOf.item {vs : List RbProtocol.Json} {items : List Value}
    (h : TokensOf buf text text' (.value v) (.value val) toks)
    (hspace : Space text' (comma :: behind)) (hspace' : Space behind next) (hbuf : text <:+ buf)
    (h' : TokensOf buf next rest (.items vs) (.items items) toks') :
    TokensOf buf text rest (.items (v :: vs)) (.items (val :: items)) (toks ++ toks') where
  suffix := h'.suffix.trans ((suffix_of_comma hspace hspace').trans h.suffix)
  closed := List.forall_mem_append.2 ⟨h.closed, h'.closed⟩
  length_eq := by
    rw [List.length_append, h.length_eq, h'.length_eq]
    rfl
  tokenized := (Appended.child h.tokenized).more (.inr rfl) hspace hspace' (h.suffix.trans hbuf)
    h.closed h'.tokenized
  walked := walked_item h.walked h'.walked
  stands := .item h.stands hspace hspace' h'.stands
  behind hplain :=
    have hnext := (h.behind hplain).trans (.comma hspace hspace')
    hnext.trans (h'.behind (hnext.noBackslash hplain))
  plain hplain := by
    have hnext := hplain.behind ((h.behind hplain.noBackslash).trans (.comma hspace hspace'))
    rw [Parsed.value.inj (h.plain hplain), Parsed.items.inj (h'.plain hnext)]
    rfl

variable {key afterKey value front : Bytes}

/-- A key, a colon and a value. -/
structure KeyValue (buf text text' key : Bytes) (v : RbProtocol.Json) (raw : Bytes) (val : Value)
    (start stop : ℤ) (toks : List Token) : Prop where
  suffix : text' <:+ quote :: text
  closed : ∀ t ∈ toks, t.isOpen = false
  length_eq : toks.length = tokenCountOf v
  child : Child buf (quote :: text) text' (⟨.string, start, stop, 1⟩ :: toks) .object
  keyText : tokenText buf ⟨.string, start, stop, 1⟩ = .ok raw
  walked : Walked buf toks (.value val)
  stands : ∃ afterKey value front, text = raw ++ quote :: afterKey ∧
    Chars key (raw ++ quote :: afterKey) afterKey ∧ Space afterKey (colon :: value) ∧
    Space value front ∧ StandsFor (.value val) (.value v) front text'
  behind : backslash ∉ quote :: text → Behind (quote :: text) text'
  plain : Unescaped (quote :: text) → raw = key ∧ val = valueOf v

/-- A value is behind its key. -/
theorem suffix_of_member (hkey : Chars key text afterKey) (hcolon : Space afterKey (colon :: value))
    (hfront : Space value front) : front <:+ quote :: text := by
  obtain ⟨raw, rfl, -⟩ := stringLength_chars hkey
  have hafter : afterKey <:+ quote :: (raw ++ quote :: afterKey) :=
    ((List.suffix_cons _ _).trans (List.suffix_append _ _)).trans (List.suffix_cons _ _)
  exact (suffix_of_space hfront).trans ((suffix_behind hcolon).trans hafter)

theorem TokensOf.keyValue (h : TokensOf buf front text' (.value v) (.value val) toks)
    (hkey : Chars key text afterKey) (hcolon : Space afterKey (colon :: value))
    (hfront : Space value front) (hbuf : quote :: text <:+ buf) :
    ∃ raw, KeyValue buf text text' key v raw val (offset buf text : ℕ)
      (offset buf (quote :: afterKey) : ℕ) toks := by
  have htext : text <:+ buf := (List.suffix_cons _ _).trans hbuf
  obtain ⟨raw, rfl, hplain, hsuffix, hraw⟩ := tokenText_chars hkey htext 1
  have hafter : afterKey <:+ raw ++ quote :: afterKey := (List.suffix_cons _ _).trans hsuffix
  -- the value is behind its key
  have hvalue (hb : backslash ∉ quote :: (raw ++ quote :: afterKey)) :
      Behind (quote :: (raw ++ quote :: afterKey)) front :=
    (Behind.string hkey fun hmem => hb (List.mem_cons_of_mem _ hmem)).trans
      ((Behind.mark (by decide) hcolon).trans (.space hfront))
  exact ⟨raw,
    { suffix := h.suffix.trans (suffix_of_member hkey hcolon hfront)
      closed := h.closed
      length_eq := h.length_eq
      child := Appended.member hkey hcolon hfront hbuf (hafter.trans htext) h.tokenized
      keyText := hraw
      walked := h.walked
      stands := ⟨afterKey, value, front, rfl, hkey, hcolon, hfront, h.stands⟩
      behind := fun hb => (hvalue hb).trans (h.behind ((hvalue hb).noBackslash hb))
      plain := fun hu =>
        ⟨hplain fun hmem => hu.noBackslash (List.mem_cons_of_mem _ hmem),
          Parsed.value.inj (h.plain (hu.behind (hvalue hu.noBackslash)))⟩ }⟩

section Members

variable {raw : Bytes} {start stop : ℕ}

theorem KeyValue.closed_cons (h : KeyValue buf text text' key v raw val start stop toks) :
    ∀ t ∈ (⟨.string, start, stop, 1⟩ :: toks : List Token), t.isOpen = false :=
  List.forall_mem_cons.2 ⟨isOpen_of_natCast, h.closed⟩

theorem KeyValue.last (h : KeyValue buf text text' key v raw val start stop toks)
    (hspace : Space text' (closeBrace :: rest)) (hbuf : quote :: text <:+ buf) :
    TokensOf buf (quote :: text) rest (.members [(key, v)]) (.members [(raw, val)])
      (⟨.string, start, stop, 1⟩ :: toks) where
  suffix := (suffix_behind hspace).trans h.suffix
  closed := h.closed_cons
  length_eq := congrArg (· + 1) h.length_eq
  tokenized := h.child.last (.inl ⟨rfl, rfl⟩) hspace (h.suffix.trans hbuf) h.closed_cons
  walked := by
    have hmember := walked_member h.keyText h.walked walked_noMembers
    rwa [List.append_nil] at hmember
  stands := by
    obtain ⟨afterKey, value, front, rfl, hkey, hcolon, hfront, hv⟩ := h.stands
    exact .lastMember hkey hcolon hfront hv hspace
  behind hplain := (h.behind hplain).trans (.mark (by decide) hspace)
  plain hplain := by
    obtain ⟨rfl, rfl⟩ := h.plain hplain
    rfl

theorem KeyValue.more {members : List (Bytes × RbProtocol.Json)} {entries : List (Bytes × Value)}
    (h : KeyValue buf text text' key v raw val start stop toks)
    (hspace : Space text' (comma :: behind)) (hspace' : Space behind next)
    (hbuf : quote :: text <:+ buf)
    (h' : TokensOf buf next rest (.members members) (.members entries) toks') :
    TokensOf buf (quote :: text) rest (.members ((key, v) :: members))
      (.members ((raw, val) :: entries)) (⟨.string, start, stop, 1⟩ :: (toks ++ toks')) where
  suffix := h'.suffix.trans ((suffix_of_comma hspace hspace').trans h.suffix)
  closed := List.forall_mem_append.2 ⟨h.closed_cons, h'.closed⟩
  length_eq := by
    have hlen := h.length_eq
    have hlen' := h'.length_eq
    simp only [List.length_cons, List.length_append, phraseCount, membersCountOf,
      memberCountOf] at hlen hlen' ⊢
    omega
  tokenized := h.child.more (.inl rfl) hspace hspace' (h.suffix.trans hbuf) h.closed_cons
    h'.tokenized
  walked := walked_member h.keyText h.walked h'.walked
  stands := by
    obtain ⟨afterKey, value, front, rfl, hkey, hcolon, hfront, hv⟩ := h.stands
    exact .member hkey hcolon hfront hv hspace hspace' h'.stands
  behind hplain :=
    have hnext := (h.behind hplain).trans (.comma hspace hspace')
    hnext.trans (h'.behind (hnext.noBackslash hplain))
  plain hplain := by
    have hnext := hplain.behind ((h.behind hplain.noBackslash).trans (.comma hspace hspace'))
    obtain ⟨rfl, rfl⟩ := h.plain hplain
    rw [Parsed.members.inj (h'.plain hnext)]
    rfl

end Members

end Children

/-- **Every phrase is tokenized and read**, wherever it is in a buffer. -/
theorem exists_tokens {phrase : Phrase} (h : Reads phrase text rest) :
    text <:+ buf → ∃ parsed toks, TokensOf buf text rest phrase parsed toks := by
  -- a word of three kinds
  have hword (word : Bytes) (v : RbProtocol.Json) (val : Value) (rest : Bytes)
      (hliteral : ∀ c ∈ word, 97 ≤ c ∧ c ≤ 122) (hne : word ≠ [])
      (hparse : parsePrimitive word = some val)
      (hstands : StandsFor (.value val) (.value v) (word ++ rest) rest)
      (hplain : val = valueOf v) (hcount : tokenCountOf v = 1)
      (hcontainer : isContainerOf v = false) (hbuf : word ++ rest <:+ buf) :
      ∃ parsed toks, TokensOf buf (word ++ rest) rest (.value v) parsed toks :=
    ⟨_, _, tokensOf_literal (fun c hc => .inr (hliteral c hc)) hne hbuf hparse hstands
      (fun _ => hplain) hcount hcontainer⟩
  induction h with
  | true =>
    exact hword [116, 114, 117, 101] _ _ _ (by decide +kernel) (by decide) rfl .true rfl rfl rfl
  | false =>
    exact hword [102, 97, 108, 115, 101] _ _ _ (by decide +kernel) (by decide) rfl .false rfl rfl
      rfl
  | null =>
    exact hword [110, 117, 108, 108] _ _ _ (by decide +kernel) (by decide) rfl .null rfl rfl rfl
  | @number sign whole frac exp m i f x rest hm hi hf hx =>
    intro hbuf
    obtain ⟨b, hparse, hstrtod, hshort⟩ := parsePrimitive_number hm hi hf hx
    have hreads : Reads (.value (.number (sign * (whole + frac) * exp)))
        (m ++ i ++ f ++ x ++ []) [] := .number hm hi hf hx
    rw [List.append_nil] at hreads
    have hne : m ++ i ++ f ++ x ≠ [] := by
      obtain ⟨c, tail, rfl, -⟩ := hi.cons
      simp
    exact ⟨_, _, tokensOf_literal (literalText_number hm hi hf hx) hne hbuf hparse
      (.number hreads hstrtod hshort) (fun h => hshort (h (isNumeral_number hm hi hf hx))) rfl rfl⟩
  | string hs =>
    intro hbuf
    obtain ⟨raw, htokens⟩ := tokensOf_string hs hbuf
    exact ⟨_, _, htokens⟩
  | emptyArray hspace =>
    intro hbuf
    exact ⟨_, _, (tokensOf_noItems hspace ((List.suffix_cons _ _).trans hbuf)).array .nil hbuf⟩
  | array hspace _ ih =>
    intro hbuf
    obtain ⟨parsed, toks, htokens⟩ :=
      ih ((suffix_of_space hspace).trans ((List.suffix_cons _ _).trans hbuf))
    obtain ⟨items, rfl, -⟩ := htokens.stands.items
    exact ⟨_, _, htokens.array hspace hbuf⟩
  | lastItem _ hspace ih =>
    intro hbuf
    obtain ⟨parsed, toks, htokens⟩ := ih hbuf
    obtain ⟨val, rfl⟩ := htokens.stands.value
    exact ⟨_, _, htokens.lastItem hspace hbuf⟩
  | item _ hspace hspace' _ ih ih' =>
    intro hbuf
    obtain ⟨parsed, toks, htokens⟩ := ih hbuf
    obtain ⟨val, rfl⟩ := htokens.stands.value
    obtain ⟨parsed', toks', htokens'⟩ :=
      ih' ((suffix_of_comma hspace hspace').trans (htokens.suffix.trans hbuf))
    obtain ⟨items, rfl, -⟩ := htokens'.stands.items
    exact ⟨_, _, htokens.item hspace hspace' hbuf htokens'⟩
  | emptyObject hspace =>
    intro hbuf
    exact ⟨_, _, (tokensOf_noMembers hspace ((List.suffix_cons _ _).trans hbuf)).object .nil hbuf⟩
  | object hspace _ ih =>
    intro hbuf
    obtain ⟨parsed, toks, htokens⟩ :=
      ih ((suffix_of_space hspace).trans ((List.suffix_cons _ _).trans hbuf))
    obtain ⟨entries, rfl, -⟩ := htokens.stands.members
    exact ⟨_, _, htokens.object hspace hbuf⟩
  | lastMember hkey hcolon hfront _ hspace ih =>
    intro hbuf
    obtain ⟨parsed, toks, htokens⟩ := ih ((suffix_of_member hkey hcolon hfront).trans hbuf)
    obtain ⟨val, rfl⟩ := htokens.stands.value
    obtain ⟨raw, hmember⟩ := htokens.keyValue hkey hcolon hfront hbuf
    exact ⟨_, _, hmember.last hspace hbuf⟩
  | member hkey hcolon hfront _ hspace hspace' _ ih ih' =>
    intro hbuf
    obtain ⟨parsed, toks, htokens⟩ := ih ((suffix_of_member hkey hcolon hfront).trans hbuf)
    obtain ⟨val, rfl⟩ := htokens.stands.value
    obtain ⟨raw, hmember⟩ := htokens.keyValue hkey hcolon hfront hbuf
    obtain ⟨parsed', toks', htokens'⟩ :=
      ih' ((suffix_of_comma hspace hspace').trans (hmember.suffix.trans hbuf))
    obtain ⟨entries, rfl, -⟩ := htokens'.stands.members
    exact ⟨_, _, hmember.more hspace hspace' hbuf htokens'⟩

end Phrases

/-! ## `rbjson::parse` -/

/-- The members of an object. -/
def Value.members? : Value → Option (List (Member Value))
  | .object members => some members
  | _ => none

theorem members?_parsePrimitive {text : Bytes} {val : Value} (h : parsePrimitive text = some val) :
    val.members? = none := by
  rw [parsePrimitive.eq_def] at h
  split at h
  · cases h
  · split_ifs at h
    · exact Option.some.inj h ▸ rfl
    · exact Option.some.inj h ▸ rfl
    · exact Option.some.inj h ▸ rfl
    · obtain ⟨x, -, rfl⟩ := Option.map_eq_some_iff.1 h
      rfl

theorem exists_readToken {tokens : List Token} {buf : Bytes} {i : ℕ} {v : Option Value}
    (h : parseValue tokens buf i = .ok v) : ∃ token, readToken tokens i = .ok token := by
  rw [parseValue] at h
  split at h
  · cases h
  · rename_i token hread
    exact ⟨token, hread⟩

/-- `parse_object` goes on with the members that `parse_value` gives an object. -/
theorem parseObject_of_parseValue {tokens : List Token} {buf : Bytes} {i : ℕ} {val : Value}
    (h : parseValue tokens buf i = .ok (some val)) :
    parseObject tokens buf i = .ok val.members? := by
  obtain ⟨token, hread⟩ := exists_readToken h
  rw [parseValue_of_read hread] at h
  have hother (htype : token.type ≠ .object) (hnone : val.members? = none) :
      parseObject tokens buf i = .ok val.members? := by
    simp only [parseObject, hread, bind, Except.bind, pure, Except.pure, if_pos htype, hnone]
  cases htype : token.type with
  | object =>
    rw [htype] at h
    obtain ⟨members, hloop, hval⟩ := exists_of_map_ok h
    obtain rfl := Option.some.inj hval
    simp only [parseObject, hread, htype, bind, Except.bind, pure, Except.pure, ne_eq, not_true,
      if_false, hloop]
    rfl
  | array =>
    rw [htype] at h
    obtain ⟨items, -, hval⟩ := exists_of_map_ok h
    obtain rfl := Option.some.inj hval
    exact hother (by simp [htype]) rfl
  | string =>
    rw [htype] at h
    obtain ⟨text, -, hval⟩ := exists_of_map_ok h
    obtain rfl := Option.some.inj hval
    exact hother (by simp [htype]) rfl
  | primitive =>
    rw [htype] at h
    obtain ⟨text, -, hval⟩ := exists_of_map_ok h
    exact hother (by simp [htype]) (members?_parsePrimitive hval)

/-- The tokens of a JSON text. -/
theorem jsmnParse_sentence {text : Bytes} {v : RbProtocol.Json} (h : Sentence text v) :
    ∃ toks val, Jsmn.parse toks.length text = .ok toks ∧ toks.length = tokenCountOf v ∧
      parseValue toks text 0 = .ok (some val) ∧ ReadAs text val v ∧
      (Unescaped text → val = valueOf v) := by
  obtain ⟨front, behind, hfront, hv, hbehind⟩ := h
  have hsuffix := suffix_of_space hfront
  obtain ⟨parsed, toks, htokens⟩ := exists_tokens hv hsuffix
  obtain ⟨val, rfl⟩ := htokens.stands.value
  have hends : EndsHere behind := endsHere_space hbehind fun _ hc => by cases hc
  have hloop : parseLoop toks.length text ⟨0, [], none⟩ =
      .ok ⟨offset text [], toks, if isContainerOf v then none else none⟩ := by
    have hvalue := htokens.tokenized toks.length [] none hends (by rintro i ⟨⟩) (by simp)
    have hstart : offset text text = 0 := Nat.sub_self _
    rw [← hstart, parseLoop_space hfront List.suffix_rfl, hvalue,
      parseLoop_space hbehind (htokens.suffix.trans hsuffix), parseLoop]
    rfl
  obtain ⟨-, hwalk⟩ := htokens.walked toks 0 [] (by rw [List.drop_zero, List.append_nil])
  refine ⟨toks, val, ?_, htokens.length_eq, hwalk, ⟨front, behind, hfront, htokens.stands, hbehind⟩,
    fun h => Parsed.value.inj (htokens.plain (h.behind (.space hfront)))⟩
  rw [Jsmn.parse, hloop]
  simp only [bind, Except.bind, lastIdx?_eq_none htokens.closed]
  rfl

theorem parse_of_sentence {text : Bytes} {v : RbProtocol.Json} (h : Sentence text v) :
    ∃ val, parse text = (if tokenCountOf v ≤ 64 then .ok val.members? else .ok none) ∧
      ReadAs text val v ∧ (Unescaped text → val = valueOf v) := by
  obtain ⟨toks, val, hjsmn, hlen, hvalue, hstands, hplain⟩ := jsmnParse_sentence h
  have htokens := parseTokens_of_parse hjsmn
  refine ⟨val, ?_, hstands, hplain⟩
  rw [parse, htokens, hlen]
  split_ifs
  · exact parseObject_of_parseValue hvalue
  · rfl

/-- Without escapes all of a text is read as it is. -/
theorem parse_unescaped {text : Bytes} {members : List (Bytes × RbProtocol.Json)}
    (h : Sentence text (.object members)) (hcount : tokenCountOf (.object members) ≤ 64)
    (hplain : Unescaped text) : parse text = .ok (some (membersOf (entriesOf members))) := by
  obtain ⟨val, hparse, -, hval⟩ := parse_of_sentence h
  rw [hparse, if_pos hcount, hval hplain]
  rfl

end RbProtocol.Json
