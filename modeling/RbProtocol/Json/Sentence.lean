import RbProtocol.Foundations.JsonText
import RbProtocol.Json.Tokens

/-!
# What is emitted is JSON

The text of a value against the JSON grammar: a value stands for a JSON value (`Value.denotes`), and
its text is to be a sentence that denotes it, which a JSON decoder gives back.
`write_string_escaped` escapes seven characters and copies the others, control characters among
them. Hence the text is a sentence exactly when no key and no string has a control character
besides those it escapes (`str_isJson_iff`).
-/

namespace RbProtocol.Json

open Ascii Library JsonText

/-! ## What a value stands for -/

mutual

/-- The JSON value that a value stands for. -/
def Value.denotes : Value → RbProtocol.Json
  | .object members => .object (membersDenote members)
  | .array items => .array (itemsDenote items)
  | .string value => .string value
  | .number (.finite q) => .number q
  | .number _ => .null
  | .bool value => .bool value
  | .nil => .null
termination_by structural v => v

/-- What members stand for. -/
def membersDenote : List (Member Value) → List (Bytes × RbProtocol.Json)
  | [] => []
  | member :: members => member.denotes :: membersDenote members
termination_by structural members => members

/-- What a member stands for. -/
def Member.denotes : Member Value → Bytes × RbProtocol.Json
  | ⟨name, value⟩ => (name, value.denotes)
termination_by structural member => member

/-- What items stand for. -/
def itemsDenote : List Value → List RbProtocol.Json
  | [] => []
  | item :: items => item.denotes :: itemsDenote items
termination_by structural items => items

end

section Everywhere

variable (text : Bytes → Prop) (number : BinaryFloat → Prop)

mutual

/-- A property of all keys and strings, and a property of all numbers. -/
def Value.All : Value → Prop
  | .object members => AllMembers members
  | .array items => AllItems items
  | .string value => text value
  | .number value => number value
  | .bool _ => True
  | .nil => True
termination_by structural v => v

/-- The properties of the members. -/
def AllMembers : List (Member Value) → Prop
  | [] => True
  | member :: members => member.All ∧ AllMembers members
termination_by structural members => members

/-- The properties of a member. -/
def Member.All : Member Value → Prop
  | ⟨name, value⟩ => text name ∧ value.All
termination_by structural member => member

/-- The properties of the items. -/
def AllItems : List Value → Prop
  | [] => True
  | item :: items => item.All ∧ AllItems items
termination_by structural items => items

end

end Everywhere

/-- Text without NUL. -/
def NulFree (text : Bytes) : Prop := 0 ∉ text

/-- An integer of magnitude at most `2 ^ 24`. -/
def SmallInteger (value : BinaryFloat) : Prop := ∃ n : ℤ, |n| ≤ 2 ^ 24 ∧ value = .finite n

/-- Each character below the space is one that `write_string_escaped` escapes. -/
def ControlsEscaped (text : Bytes) : Prop := ∀ c ∈ text, c < 32 → (escapes.lookup c).isSome

/-! ## Strings -/

/-- What the code escapes stands for itself behind the backslash. -/
theorem lookup_shortEscapes {c e : UInt8} (h : escapes.lookup c = some e) :
    e ≠ 117 ∧ shortEscapes.lookup e = some c := by
  have hmem := mem_of_lookup h
  simp only [escapes, List.mem_cons, List.not_mem_nil, or_false, Prod.mk.injEq] at hmem
  rcases hmem with ⟨rfl, rfl⟩ | ⟨rfl, rfl⟩ | ⟨rfl, rfl⟩ | ⟨rfl, rfl⟩ | ⟨rfl, rfl⟩ | ⟨rfl, rfl⟩ |
    ⟨rfl, rfl⟩
  all_goals exact ⟨by decide, rfl⟩

theorem isUnescaped_of_lookup {c : UInt8} (h : escapes.lookup c = none) (hc : 32 ≤ c) :
    isUnescaped c = true := by
  have hquote : c ≠ quote := by
    rintro rfl
    cases h
  have hback : c ≠ backslash := by
    rintro rfl
    cases h
  simp [isUnescaped, hc, hquote, hback]

theorem isControl_of_lookup {c : UInt8} (h : escapes.lookup c = none) (hc : c < 32) :
    isControl c = true := by
  have hspace : c ≠ space := by
    rintro rfl
    exact absurd hc (by decide)
  have htab : c ≠ tab := by
    rintro rfl
    cases h
  have hnewline : c ≠ newline := by
    rintro rfl
    cases h
  have hreturn : c ≠ carriageReturn := by
    rintro rfl
    cases h
  simp [isControl, isWs, hc, hspace, htab, hnewline, hreturn]

/-- One character, as it is written, is read back. -/
theorem decodeChars_escapeChar {c : UInt8} (hc : c < 32 → (escapes.lookup c).isSome) (fuel : ℕ)
    (text : Bytes) : decodeChars (fuel + 1) (escapeChar c ++ text) =
      (decodeChars fuel text).map fun (s, rest) => (c :: s, rest) := by
  rw [escapeChar]
  cases h : escapes.lookup c with
  | some e =>
    obtain ⟨he, hlookup⟩ := lookup_shortEscapes h
    exact decodeChars_short he hlookup fuel text
  | none =>
    refine decodeChars_plain (isUnescaped_of_lookup h ?_) fuel text
    rw [h] at hc
    exact UInt8.not_lt.1 fun hlt => absurd (hc hlt) (by simp)

theorem decodeChars_escaped {s rest : Bytes} (hs : ControlsEscaped s) {fuel : ℕ}
    (hfuel : (s.flatMap escapeChar).length < fuel) :
    decodeChars fuel (s.flatMap escapeChar ++ quote :: rest) = some (s, rest) := by
  induction s generalizing fuel with
  | nil =>
    obtain ⟨fuel, rfl⟩ : ∃ k, fuel = k + 1 := ⟨fuel - 1, by omega⟩
    rw [List.flatMap_nil, List.nil_append, decodeChars, if_pos rfl]
  | cons c s ih =>
    obtain ⟨hc, hs⟩ := List.forall_mem_cons.1 hs
    have hpos : 0 < (escapeChar c).length := by
      rw [escapeChar]
      split <;> simp
    rw [List.flatMap_cons, List.length_append] at hfuel
    obtain ⟨fuel, rfl⟩ : ∃ k, fuel = k + 1 := ⟨fuel - 1, by omega⟩
    rw [List.flatMap_cons, List.append_assoc, decodeChars_escapeChar hc, ih hs (by omega)]
    rfl

theorem writeStringEscaped_nulFree {s : Bytes} (h : NulFree s) :
    writeStringEscaped s = quote :: (s.flatMap escapeChar ++ [quote]) := by
  rw [writeStringEscaped, cstr_eq_self h]
  rfl

/-! ## Numbers -/

theorem decodeNumber_formatLongLong {n : ℤ} (hn : |n| ≤ 2 ^ 24) {rest : Bytes}
    (hrest : EndsNumber rest) : decodeNumber (formatLongLong n ++ rest) = some ((n : ℚ), rest) := by
  have hn' := abs_le.1 hn
  obtain ⟨digits, hne, hdigits, hvalue, -, hzero, htext⟩ := formatLongLong_eq (n := n) (by omega)
  have hint := decodeNumber_integer (decide (n < 0)) ⟨hne, hdigits⟩ hzero hrest
  have hq : (if decide (n < 0) = true then (-1 : ℚ) else 1) * (digitsValue 10 digits : ℚ) = n := by
    rw [hvalue]
    rcases lt_or_ge n 0 with hneg | hpos
    · have habs : ((n.natAbs : ℕ) : ℤ) = -n := by omega
      rw [if_pos (by simpa using hneg), ← Int.cast_natCast (R := ℚ), habs]
      push_cast
      ring
    · have habs : ((n.natAbs : ℕ) : ℤ) = n := by omega
      rw [if_neg (by simpa using hpos), one_mul, ← Int.cast_natCast (R := ℚ), habs]
  rw [hq] at hint
  rw [htext]
  simpa only [decide_eq_true_eq] using hint

theorem formatLongLong_cons {n : ℤ} (hn : |n| ≤ 2 ^ 24) :
    ∃ c text, formatLongLong n = c :: text ∧ (c = minus ∨ isDigit c = true) := by
  have hn' := abs_le.1 hn
  obtain ⟨digits, hne, hdigits, -, -, -, htext⟩ := formatLongLong_eq (n := n) (by omega)
  rw [htext]
  split_ifs
  · exact ⟨minus, digits, rfl, .inl rfl⟩
  · cases digits with
    | nil => exact absurd rfl hne
    | cons c digits => exact ⟨c, digits, rfl, .inr (hdigits c List.mem_cons_self)⟩

theorem isWs_digit {c : UInt8} (h : isDigit c = true) : isWs c = false := by
  have hspace : c ≠ space := by
    rintro rfl
    cases h
  have htab : c ≠ tab := by
    rintro rfl
    cases h
  have hnewline : c ≠ newline := by
    rintro rfl
    cases h
  have hreturn : c ≠ carriageReturn := by
    rintro rfl
    cases h
  simp [isWs, hspace, htab, hnewline, hreturn]

/-! ## Values -/

section Decode

variable {outOfRange : BinaryFloat → ℤ}

theorem endsNumber_cons {c : UInt8} (h : c = comma ∨ c = closeBrace ∨ c = closeBracket)
    (rest : Bytes) : EndsNumber (c :: rest) := by
  intro d hd
  obtain rfl := Option.some.inj hd
  rcases h with rfl | rfl | rfl
  all_goals decide

/-- No value begins with white space or a closing bracket. -/
theorem exists_serialize_cons (v : Value) (hv : v.All NulFree SmallInteger) :
    ∃ c text, v.serialize outOfRange = c :: text ∧ isWs c = false ∧ c ≠ closeBracket := by
  cases v with
  | object members => exact ⟨openBrace, _, rfl, by decide, by decide⟩
  | array items => exact ⟨openBracket, _, rfl, by decide, by decide⟩
  | string value => exact ⟨quote, _, rfl, by decide, by decide⟩
  | number value =>
    obtain ⟨n, hn, rfl⟩ := hv
    obtain ⟨c, text, hcons, hc⟩ := formatLongLong_cons hn
    refine ⟨c, text, by rw [Value.serialize, serializeNumber_plain hn, hcons], ?_⟩
    rcases hc with rfl | hc
    · decide
    · refine ⟨isWs_digit hc, ?_⟩
      rintro rfl
      cases hc
  | bool value =>
    cases value with
    | false => exact ⟨102, _, rfl, by decide, by decide⟩
    | true => exact ⟨116, _, rfl, by decide, by decide⟩
  | nil => exact ⟨110, _, rfl, by decide, by decide⟩

theorem skipWs_serialize {v : Value} (hv : v.All NulFree SmallInteger) (rest : Bytes) :
    skipWs (v.serialize outOfRange ++ rest) = v.serialize outOfRange ++ rest := by
  obtain ⟨c, text, hcons, hc, -⟩ := @exists_serialize_cons outOfRange v hv
  rw [hcons]
  exact skipWs_cons hc _

mutual

/-- **The text of a value is decoded** to what it stands for. -/
theorem decodeValue_serialize (v : Value) (hv : v.All NulFree SmallInteger)
    (hc : v.All ControlsEscaped fun _ => True) {fuel : ℕ} {rest : Bytes}
    (hfuel : (v.serialize outOfRange).length ≤ fuel) (hrest : EndsNumber rest) :
    decodeValue fuel (v.serialize outOfRange ++ rest) = some (v.denotes, rest) := by
  cases v with
  | object members =>
    rw [Value.serialize, List.length_append, List.length_cons, List.length_singleton] at hfuel
    obtain ⟨fuel, rfl⟩ : ∃ k, fuel = k + 1 := ⟨fuel - 1, by omega⟩
    rw [Value.serialize, List.cons_append, List.cons_append, List.append_assoc, decodeValue,
      if_pos rfl, List.singleton_append]
    cases members with
    | nil => rfl
    | cons member members =>
      have hmembers := decodeMembers_serialize (member :: members) hv hc (by simp)
        (show _ < fuel by omega) rest
      obtain ⟨name, value⟩ := member
      have hcons : serializeMembers outOfRange (⟨name, value⟩ :: members) ++ closeBrace :: rest =
          quote :: ((serializeMembers outOfRange (⟨name, value⟩ :: members)).tail ++
            closeBrace :: rest) := rfl
      rw [hcons] at hmembers ⊢
      rw [expect_cons (by decide), if_neg (by decide), skipWs_cons (by decide), hmembers]
      rfl
  | array items =>
    rw [Value.serialize, List.length_append, List.length_cons, List.length_singleton] at hfuel
    obtain ⟨fuel, rfl⟩ : ∃ k, fuel = k + 1 := ⟨fuel - 1, by omega⟩
    rw [Value.serialize, List.cons_append, List.cons_append, List.append_assoc, decodeValue,
      if_neg (by decide), if_pos rfl, List.singleton_append]
    cases items with
    | nil => rfl
    | cons item items =>
      have hitems := decodeItems_serialize (item :: items) hv hc (by simp)
        (show _ < fuel by omega) rest
      obtain ⟨c, text, hcons, hws, hclose⟩ := @exists_serialize_cons outOfRange item hv.1
      rw [serializeItems, hcons, List.cons_append, List.cons_append] at hitems ⊢
      rw [expect_cons hws, if_neg hclose, skipWs_cons hws, hitems]
      rfl
  | string value =>
    have htext := writeStringEscaped_nulFree hv
    rw [Value.serialize, htext] at hfuel ⊢
    obtain ⟨fuel, rfl⟩ : ∃ k, fuel = k + 1 := ⟨fuel - 1, by rw [List.length_cons] at hfuel; omega⟩
    rw [List.cons_append, decodeValue, if_neg (by decide), if_neg (by decide), if_pos rfl,
      List.append_assoc, List.singleton_append,
      decodeChars_escaped hc (by rw [List.length_append]; omega)]
    rfl
  | number value =>
    obtain ⟨n, hn, rfl⟩ := hv
    obtain ⟨c, text, hcons, hfirst⟩ := formatLongLong_cons hn
    rw [Value.serialize, serializeNumber_plain hn, hcons] at hfuel ⊢
    obtain ⟨fuel, rfl⟩ : ∃ k, fuel = k + 1 := ⟨fuel - 1, by rw [List.length_cons] at hfuel; omega⟩
    rw [List.cons_append, decodeValue_number hfirst, ← List.cons_append, ← hcons,
      decodeNumber_formatLongLong hn hrest]
    rfl
  | bool value =>
    cases value with
    | false =>
      obtain ⟨fuel, rfl⟩ := Nat.exists_eq_add_of_le' (show 5 ≤ fuel from hfuel)
      exact decodeWord_append [102, 97, 108, 115, 101] (.bool false) rest
    | true =>
      obtain ⟨fuel, rfl⟩ := Nat.exists_eq_add_of_le' (show 4 ≤ fuel from hfuel)
      exact decodeWord_append [116, 114, 117, 101] (.bool true) rest
  | nil =>
    obtain ⟨fuel, rfl⟩ := Nat.exists_eq_add_of_le' (show 4 ≤ fuel from hfuel)
    exact decodeWord_append [110, 117, 108, 108] .null rest
termination_by structural v

theorem decodeMembers_serialize (members : List (Member Value))
    (hv : AllMembers NulFree SmallInteger members)
    (hc : AllMembers ControlsEscaped (fun _ => True) members) (hne : members ≠ []) {fuel : ℕ}
    (hfuel : (serializeMembers outOfRange members).length < fuel) (rest : Bytes) :
    decodeMembers fuel (serializeMembers outOfRange members ++ closeBrace :: rest) =
      some (membersDenote members, rest) := by
  match members with
  | [] => exact absurd rfl hne
  | ⟨name, value⟩ :: members =>
    obtain ⟨fuel, rfl⟩ : ∃ k, fuel = k + 1 := ⟨fuel - 1, by omega⟩
    obtain ⟨⟨hname, hvalue⟩, hmembers⟩ := hv
    obtain ⟨⟨hname', hvalue'⟩, hmembers'⟩ := hc
    rw [serializeMembers, Member.serialize, writeStringEscaped_nulFree hname] at hfuel ⊢
    simp only [List.length_append, List.length_cons] at hfuel
    simp only [List.append_assoc, List.cons_append, List.nil_append]
    rw [decodeMembers, if_pos rfl, decodeChars_escaped hname' (by rw [List.length_append]; omega)]
    simp only [bind, Option.bind_some]
    rw [expect_cons (by decide), if_pos rfl, Option.bind_some, skipWs_serialize hvalue]
    cases members with
    | nil =>
      simp only [List.isEmpty_nil, if_true, List.nil_append]
      rw [decodeValue_serialize value hvalue hvalue' (by omega)
        (endsNumber_cons (.inr (.inl rfl)) rest)]
      rfl
    | cons next members =>
      simp only [List.isEmpty_cons, Bool.false_eq_true, if_false, List.cons_append,
        List.length_cons] at hfuel ⊢
      rw [decodeValue_serialize value hvalue hvalue' (by omega) (endsNumber_cons (.inl rfl) _),
        Option.bind_some]
      have hnext := decodeMembers_serialize (next :: members) hmembers hmembers' (by simp)
        (show _ < fuel by omega) rest
      obtain ⟨name', value'⟩ := next
      have hcons : serializeMembers outOfRange (⟨name', value'⟩ :: members) ++ closeBrace :: rest =
          quote :: ((serializeMembers outOfRange (⟨name', value'⟩ :: members)).tail ++
            closeBrace :: rest) := rfl
      rw [hcons] at hnext ⊢
      simp only
      rw [expect_cons (by decide), if_neg (by decide), expect_cons (by decide), if_pos rfl,
        Option.bind_some, skipWs_cons (by decide), hnext]
      rfl
termination_by structural members

theorem decodeItems_serialize (items : List Value) (hv : AllItems NulFree SmallInteger items)
    (hc : AllItems ControlsEscaped (fun _ => True) items) (hne : items ≠ []) {fuel : ℕ}
    (hfuel : (serializeItems outOfRange items).length < fuel) (rest : Bytes) :
    decodeItems fuel (serializeItems outOfRange items ++ closeBracket :: rest) =
      some (itemsDenote items, rest) := by
  match items with
  | [] => exact absurd rfl hne
  | item :: items =>
    obtain ⟨fuel, rfl⟩ : ∃ k, fuel = k + 1 := ⟨fuel - 1, by omega⟩
    obtain ⟨hitem, hitems⟩ := hv
    obtain ⟨hitem', hitems'⟩ := hc
    rw [serializeItems, List.length_append] at hfuel
    rw [serializeItems, List.append_assoc, decodeItems]
    cases items with
    | nil =>
      simp only [bind, List.isEmpty_nil, if_true, List.nil_append]
      rw [decodeValue_serialize item hitem hitem' (by omega)
        (endsNumber_cons (.inr (.inr rfl)) rest)]
      rfl
    | cons next items =>
      simp only [bind, List.isEmpty_cons, Bool.false_eq_true, if_false, List.cons_append,
        List.length_cons] at hfuel ⊢
      rw [decodeValue_serialize item hitem hitem' (by omega) (endsNumber_cons (.inl rfl) _),
        Option.bind_some]
      have hnext := decodeItems_serialize (next :: items) hitems hitems' (by simp)
        (show _ < fuel by omega) rest
      obtain ⟨c, text, hcons, hws, -⟩ := @exists_serialize_cons outOfRange next hitems.1
      rw [serializeItems, hcons, List.cons_append, List.cons_append] at hnext ⊢
      simp only
      rw [expect_cons (by decide), if_neg (by decide), expect_cons (by decide), if_pos rfl,
        Option.bind_some, skipWs_cons hws, hnext]
      rfl
termination_by structural items

end

/-! ## The text as a whole -/

theorem controlsEscaped_of_written {s : Bytes} (hnul : NulFree s)
    (h : ∀ c ∈ writeStringEscaped s, isControl c = false) : ControlsEscaped s := by
  intro c hc hlt
  rw [Option.isSome_iff_ne_none]
  intro hlookup
  have hmem : c ∈ writeStringEscaped s := by
    rw [writeStringEscaped_nulFree hnul]
    refine List.mem_cons_of_mem _ (List.mem_append_left _ (List.mem_flatMap.2 ⟨c, hc, ?_⟩))
    rw [escapeChar, hlookup]
    exact List.mem_singleton_self c
  exact Bool.noConfusion ((h c hmem).symm.trans (isControl_of_lookup hlookup hlt))

mutual

/-- A text without control characters is that of a value whose strings are escaped. -/
theorem all_controlsEscaped (v : Value) (hv : v.All NulFree SmallInteger)
    (h : ∀ c ∈ v.serialize outOfRange, isControl c = false) :
    v.All ControlsEscaped fun _ => True := by
  cases v with
  | object members =>
    apply allMembers_controlsEscaped members hv
    intro c hc
    exact h c (List.mem_append_left _ (List.mem_cons_of_mem _ hc))
  | array items =>
    apply allItems_controlsEscaped items hv
    intro c hc
    exact h c (List.mem_append_left _ (List.mem_cons_of_mem _ hc))
  | string value => exact controlsEscaped_of_written hv h
  | number | bool | nil => trivial
termination_by structural v

theorem allMembers_controlsEscaped (members : List (Member Value))
    (hv : AllMembers NulFree SmallInteger members)
    (h : ∀ c ∈ serializeMembers outOfRange members, isControl c = false) :
    AllMembers ControlsEscaped (fun _ => True) members := by
  match members with
  | [] => trivial
  | ⟨name, value⟩ :: members =>
    obtain ⟨⟨hname, hvalue⟩, hmembers⟩ := hv
    rw [serializeMembers, Member.serialize] at h
    refine ⟨⟨controlsEscaped_of_written hname ?_, all_controlsEscaped value hvalue ?_⟩,
      allMembers_controlsEscaped members hmembers ?_⟩
    · intro c hc
      exact h c (List.mem_append_left _ (List.mem_append_left _ hc))
    · intro c hc
      exact h c (List.mem_append_left _ (List.mem_append_right _ (List.mem_cons_of_mem _ hc)))
    · intro c hc
      cases members with
      | nil => cases hc
      | cons next members =>
        exact h c (List.mem_append_right _ (List.mem_cons_of_mem _ hc))
termination_by structural members

theorem allItems_controlsEscaped (items : List Value) (hv : AllItems NulFree SmallInteger items)
    (h : ∀ c ∈ serializeItems outOfRange items, isControl c = false) :
    AllItems ControlsEscaped (fun _ => True) items := by
  match items with
  | [] => trivial
  | item :: items =>
    rw [serializeItems] at h
    refine ⟨all_controlsEscaped item hv.1 ?_, allItems_controlsEscaped items hv.2 ?_⟩
    · intro c hc
      exact h c (List.mem_append_left _ hc)
    · intro c hc
      cases items with
      | nil => cases hc
      | cons next items => exact h c (List.mem_append_right _ (List.mem_cons_of_mem _ hc))
termination_by structural items

end

theorem decode_serialize {v : Value} (hv : v.All NulFree SmallInteger)
    (hc : v.All ControlsEscaped fun _ => True) :
    decode (v.serialize outOfRange) = some v.denotes := by
  have hskip := @skipWs_serialize outOfRange v hv []
  have hend : EndsNumber [] := by
    intro c hc
    cases hc
  have hvalue := decodeValue_serialize v hv hc (Nat.le_succ (v.serialize outOfRange).length) hend
  rw [List.append_nil] at hskip hvalue
  rw [decode, hskip, hvalue]
  rfl

end Decode

/-- **What is emitted is JSON** for the same tree exactly when each control character of its keys
and strings is one that `write_string_escaped` escapes. -/
theorem str_isJson_iff (outOfRange : BinaryFloat → ℤ) (members : List (Member Value))
    (h : (Value.object members).All NulFree SmallInteger) :
    let tree := Value.object members
    (Sentence (tree.serialize outOfRange) tree.denotes ∧
        decode (tree.serialize outOfRange) = some tree.denotes) ↔
      tree.All ControlsEscaped fun _ => True := by
  intro tree
  constructor
  · intro hjson
    exact all_controlsEscaped tree h hjson.1.no_control
  · intro hc
    have hdecode := @decode_serialize outOfRange tree h hc
    exact ⟨sentence_of_decode hdecode, hdecode⟩

/-- Escaped characters, a byte above 127 and the nesting of two values. -/
theorem str_isJson_escapes :
    decode ((Value.object [⟨[97], .string [34, 10, 200]⟩,
        ⟨[98], .array [.nil, .number (.finite 7)]⟩]).serialize fun _ => 0) =
      some (.object [([97], .string [34, 10, 200]), ([98], .array [.null, .number 7])]) := by
  have hnul {text : Bytes} (h : text.all (· ≠ 0) = true) : NulFree text := by
    intro hmem
    exact absurd (List.all_eq_true.1 h 0 hmem) (by decide)
  have hescaped {text : Bytes}
      (h : text.all (fun c => 32 ≤ c || (escapes.lookup c).isSome) = true) :
      ControlsEscaped text := by
    intro c hc hlt
    simpa [UInt8.not_le.2 hlt] using List.all_eq_true.1 h c hc
  refine ((str_isJson_iff (fun _ => 0) _ ?_).2 ?_).2
  · exact ⟨⟨hnul rfl, hnul rfl⟩, ⟨hnul rfl, trivial, ⟨7, by norm_num, by norm_num⟩, trivial⟩,
      trivial⟩
  · exact ⟨⟨hescaped rfl, hescaped rfl⟩, ⟨hescaped rfl, trivial, trivial, trivial⟩, trivial⟩

/-- A control character that is not escaped. -/
theorem str_not_json : (Value.object [⟨[97], .string [1]⟩]).All NulFree SmallInteger ∧
    ∀ v, ¬ Sentence ((Value.object [⟨[97], .string [1]⟩]).serialize fun _ => 0) v := by
  refine ⟨⟨⟨by simp [NulFree], ?_⟩, trivial⟩, ?_⟩
  · intro hmem
    exact absurd (List.mem_singleton.1 hmem) (by decide)
  · intro v hv
    have hmem : (1 : UInt8) ∈ (Value.object [⟨[97], .string [1]⟩]).serialize fun _ => 0 := by
      decide +kernel
    exact absurd (hv.no_control 1 hmem) (by decide)

end RbProtocol.Json
