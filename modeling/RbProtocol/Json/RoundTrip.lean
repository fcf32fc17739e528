import RbProtocol.Json.Tokens

/-!
# The JSON round trip

A parse with fewer tokens runs like one with more until it runs out of them (`parseLoop_limit`), so
the second attempt of `rbjson::parse` decides. The walk over the tokens of a value builds that value
again, with the strings as they were written (`parseValue_toks`): `count_tok_size` is the number of
tokens of a value. A plain value has no escapes, and its members come in sorted, so that
`Object::set` appends each of them. Together, parsing the text of a plain object gives back the
object (`parse_serialize`).
-/

namespace RbProtocol.Json

open Ascii Library Jsmn

/-! ## The number of tokens -/

variable {big small : ℕ}

theorem allocToken_limit (small : ℕ) {tokens tokens' : List Token} {token : Token}
    (h : allocToken big tokens token = .ok tokens') :
    tokens'.length = tokens.length + 1 ∧
      allocToken small tokens token = if tokens'.length ≤ small then .ok tokens'
        else .error .nomem := by
  rw [allocToken] at h
  split_ifs at h with hbig
  obtain rfl := Except.ok.inj h
  rw [List.length_append, List.length_singleton]
  refine ⟨rfl, ?_⟩
  rw [allocToken]
  split_ifs <;> first | rfl | omega

theorem addScalar_limit (small : ℕ) {p q : Parser} {token : Token}
    (h : addScalar big token p = .ok q) :
    q.tokens.length = p.tokens.length + 1 ∧
      addScalar small token p = if q.tokens.length ≤ small then .ok q else .error .nomem := by
  rcases ha : allocToken big p.tokens token with e | tokens
  · simp [addScalar, ha, Except.map] at h
  obtain ⟨hlen, hsmall⟩ := allocToken_limit small ha
  simp only [addScalar, ha, Except.map, Except.ok.injEq] at h
  subst h
  simp only [length_bumpSuper]
  refine ⟨hlen, ?_⟩
  rw [addScalar, hsmall]
  split_ifs <;> rfl

theorem openContainer_limit {type : TokType} {p q : Parser} {n : ℕ}
    (h : openContainer big type p = .ok (q, n)) :
    q.tokens.length = p.tokens.length + 1 ∧ openContainer small type p =
      if q.tokens.length ≤ small then .ok (q, n) else .error .nomem := by
  rcases ha : allocToken big p.tokens { type := type, start := p.pos, stop := -1, size := 0 } with
    e | tokens
  · simp [openContainer, ha, Except.map] at h
  obtain ⟨hlen, hsmall⟩ := allocToken_limit small ha
  simp only [openContainer, ha, Except.map, Except.ok.injEq, Prod.mk.injEq] at h
  obtain ⟨rfl, rfl⟩ := h
  simp only [length_bumpSuper]
  refine ⟨hlen, ?_⟩
  rw [openContainer, hsmall]
  split_ifs <;> rfl

theorem closeContainer_length {type : TokType} {p q : Parser} {n : ℕ}
    (h : closeContainer type p = .ok (q, n)) : q.tokens.length = p.tokens.length := by
  rw [closeContainer] at h
  split at h
  · cases h
  · split_ifs at h
    obtain ⟨rfl, rfl⟩ := Prod.mk.inj (Except.ok.inj h)
    simp

theorem commaStep_tokens (p : Parser) : (commaStep p).tokens = p.tokens := by
  rw [commaStep]
  split
  · rfl
  · split_ifs
    · rfl
    · split <;> rfl

/-- A string or primitive, scanned and added. -/
theorem scalar_limit {p q : Parser} {n : ℕ} (scanned : Except Error ℕ) (token : ℕ → Token)
    (extra : ℕ → ℕ)
    (h : (do
      let len ← scanned
      let p ← addScalar big (token len) p
      return (p, extra len)) = .ok (q, n)) :
    q.tokens.length = p.tokens.length + 1 ∧
      (do
        let len ← scanned
        let p ← addScalar small (token len) p
        return (p, extra len)) = if q.tokens.length ≤ small then .ok (q, n) else .error .nomem := by
  rcases scanned with e | len
  · cases h
  simp only [bind, Except.bind, pure, Except.pure] at h ⊢
  rcases ha : addScalar big (token len) p with e | p'
  · simp [ha] at h
  obtain ⟨hlen, hsmall⟩ := addScalar_limit small ha
  simp only [ha, Except.ok.injEq, Prod.mk.injEq] at h
  obtain ⟨rfl, rfl⟩ := h
  refine ⟨hlen, ?_⟩
  rw [hsmall]
  split_ifs <;> rfl

/-- With fewer tokens a step is the same, unless it needs one more than there are. -/
theorem step_limit {c : UInt8} {rest : Bytes} {p q : Parser} {n : ℕ}
    (h : step big c rest p = .ok (q, n)) (hp : p.tokens.length ≤ small) :
    p.tokens.length ≤ q.tokens.length ∧
      step small c rest p = if q.tokens.length ≤ small then .ok (q, n) else .error .nomem := by
  generalize hout : (if q.tokens.length ≤ small then .ok (q, n) else .error .nomem :
    Except Error (Parser × ℕ)) = out
  -- a step either adds one token, in both parses, or does not look at the limit
  have hadd {s : Except Error (Parser × ℕ)} (hs : q.tokens.length = p.tokens.length + 1 ∧
      s = if q.tokens.length ≤ small then .ok (q, n) else .error .nomem) :
      p.tokens.length ≤ q.tokens.length ∧ s = out := by
    obtain ⟨hlen, rfl⟩ := hs
    exact ⟨by omega, hout⟩
  have hkeep {s : Except Error (Parser × ℕ)} (hs : s = .ok (q, n))
      (hlen : q.tokens.length = p.tokens.length) : p.tokens.length ≤ q.tokens.length ∧ s = out := by
    rw [if_pos (hlen.trans_le hp)] at hout
    exact ⟨hlen.ge, hs.trans hout⟩
  rw [step] at h ⊢
  split_ifs at h ⊢
  · exact hadd (openContainer_limit h)
  · exact hadd (openContainer_limit h)
  · exact hkeep h (closeContainer_length h)
  · exact hkeep h (closeContainer_length h)
  · exact hadd (scalar_limit _ _ _ h)
  · obtain ⟨rfl, rfl⟩ := Prod.mk.inj (Except.ok.inj h)
    exact hkeep rfl rfl
  · obtain ⟨rfl, rfl⟩ := Prod.mk.inj (Except.ok.inj h)
    exact hkeep rfl rfl
  · obtain ⟨rfl, rfl⟩ := Prod.mk.inj (Except.ok.inj h)
    exact hkeep rfl (by rw [commaStep_tokens])
  · exact hadd (scalar_limit _ _ _ h)

theorem parseLoop_mono {js : Bytes} {p q : Parser} (h : parseLoop big js p = .ok q) :
    p.tokens.length ≤ q.tokens.length := by
  fun_induction parseLoop big js p with
  | case1 p => exact (Except.ok.inj h) ▸ le_rfl
  | case2 => exact (Except.ok.inj h) ▸ le_rfl
  | case3 => cases h
  | case4 p c rest hc p' n hstep ih => exact (step_limit hstep le_rfl).1.trans (ih h)

/-- **A parse with fewer tokens** gives the same result if that needs no more tokens, and runs out
of them otherwise. -/
theorem parseLoop_limit {js : Bytes} {p q : Parser} (h : parseLoop big js p = .ok q)
    (hp : p.tokens.length ≤ small) :
    parseLoop small js p = if q.tokens.length ≤ small then .ok q else .error .nomem := by
  fun_induction parseLoop big js p with
  | case1 p =>
    obtain rfl := Except.ok.inj h
    rw [parseLoop, if_pos hp]
  | case2 rest p =>
    obtain rfl := Except.ok.inj h
    rw [parseLoop, if_pos rfl, if_pos hp]
  | case3 => cases h
  | case4 p c rest hc p' n hstep ih =>
    rw [parseLoop, if_neg hc, (step_limit hstep hp).2]
    by_cases hp' : p'.tokens.length ≤ small
    · simp only [if_pos hp']
      exact ih h hp'
    · have hmono := parseLoop_mono h
      simp only [if_neg hp'] at hmono ⊢
      rw [if_neg (by omega)]

/-- An attempt with enough tokens decides what `parse` works on. -/
theorem parseTokens_of_parse {js : Bytes} {tokens : List Token}
    (h : Jsmn.parse big js = .ok tokens) :
    parseTokens js 32 = if tokens.length ≤ 64 then some tokens else none := by
  rw [Jsmn.parse] at h
  rcases hloop : parseLoop big js { pos := 0, tokens := [], toksuper := none } with e | q
  · simp [hloop, bind, Except.bind] at h
  simp only [hloop, bind, Except.bind] at h
  split_ifs at h with hopen
  obtain rfl := Except.ok.inj h
  have hsmall : ∀ small, Jsmn.parse small js =
      if q.tokens.length ≤ small then .ok q.tokens else .error .nomem := fun small => by
    rw [Jsmn.parse, parseLoop_limit hloop (Nat.zero_le small)]
    by_cases hle : q.tokens.length ≤ small
    · simp only [if_pos hle, bind, Except.bind]
      rw [if_neg hopen]
    · simp only [if_neg hle, bind, Except.bind]
  rw [parseTokens, hsmall]
  by_cases h32 : q.tokens.length ≤ 32
  · rw [if_pos h32, if_pos (by omega)]
  · simp only [if_neg h32]
    rw [dif_neg (by omega), parseTokens, hsmall]
    by_cases h64 : q.tokens.length ≤ 64
    · rw [if_pos h64, if_pos h64]
    · simp only [if_neg h64]
      rw [dif_pos (.inl (by decide))]

/-! ## The walk over the tokens -/

section Read

variable (outOfRange : BinaryFloat → ℤ)

mutual

/-- What `parse_value` makes of the text of a value; `none` is the null pointer. Strings stay as
they were written, with their escapes. -/
def Value.read : Value → Option Value
  | .object members => some (.object (readMembers members []))
  | .array items => some (.array (readItems items))
  | .string value => some (.string (escapedText value))
  | .number value => parsePrimitive (serializeNumber outOfRange value)
  | .bool value => some (.bool value)
  | .nil => some .nil
termination_by structural v => v

/-- What `parse_object` makes of members, behind those it has set. -/
def readMembers : List (Member Value) → List (Member Value) → List (Member Value)
  | [], res => res
  | member :: members, res => readMembers members (member.readInto res)
termination_by structural members => members

/-- What `parse_object` makes of a member: it is set under the text of its name. -/
def Member.readInto : Member Value → List (Member Value) → List (Member Value)
  | ⟨name, value⟩, res =>
    match value.read with
    | none => res
    | some val => Object.set res (escapedText name) val
termination_by structural member => member

/-- What `parse_array` makes of items. -/
def readItems : List Value → List Value
  | [] => []
  | item :: items => item.read.toList ++ readItems items
termination_by structural items => items

end

end Read

section Walk

variable {outOfRange : BinaryFloat → ℤ} {tokens : List Token}

theorem readToken_of_drop {i : ℕ} {token : Token} {rest : List Token}
    (h : tokens.drop i = token :: rest) : readToken tokens i = .ok token := by
  rw [readToken, getElem?_of_drop_cons h]

theorem countTokSize_of_read {i : ℕ} {token : Token} (h : readToken tokens i = .ok token) :
    countTokSize tokens i = (countTokSizeLoop tokens (i + 1) token.size).map (· - i) := by
  rw [countTokSize]
  split
  · rename_i herror
    rw [h] at herror
    cases herror
  · rename_i token' hok
    rw [h] at hok
    rw [Except.ok.inj hok]

/-- `count_tok_size` is one more than what its loop adds. -/
theorem countTokSize_of_loop {i n : ℕ} {token : Token} (h : readToken tokens i = .ok token)
    (hloop : countTokSizeLoop tokens (i + 1) token.size = .ok (i + 1 + n)) :
    countTokSize tokens i = .ok (n + 1) := by
  rw [countTokSize_of_read h, hloop, Except.map]
  congr 1
  omega

mutual

/-- `count_tok_size` on a value is the number of its tokens. -/
theorem countTokSize_value (v : Value) (pos : ℕ) {i : ℕ} {rest : List Token}
    (h : tokens.drop i = v.toks outOfRange pos ++ rest) :
    countTokSize tokens i = .ok (v.toks outOfRange pos).length := by
  cases v with
  | object members =>
    rw [Value.toks, List.cons_append] at h
    rw [Value.toks, List.length_cons]
    exact countTokSize_of_loop (readToken_of_drop h)
      (countTokSizeLoop_members members _ (drop_of_drop h 1))
  | array items =>
    rw [Value.toks, List.cons_append] at h
    rw [Value.toks, List.length_cons]
    exact countTokSize_of_loop (readToken_of_drop h)
      (countTokSizeLoop_items items _ (drop_of_drop h 1))
  | string | number | bool | nil =>
    exact countTokSize_of_loop (n := 0) (readToken_of_drop h) (by rw [countTokSizeLoop])
termination_by structural v

theorem countTokSizeLoop_members (members : List (Member Value)) (pos : ℕ) {i : ℕ}
    {rest : List Token} (h : tokens.drop i = membersToks outOfRange members pos ++ rest) :
    countTokSizeLoop tokens i members.length =
      .ok (i + (membersToks outOfRange members pos).length) := by
  match members with
  | [] => rw [List.length_nil, countTokSizeLoop, membersToks, List.length_nil, Nat.add_zero]
  | member :: members =>
    rw [membersToks, List.append_assoc] at h
    rw [List.length_cons, countTokSizeLoop, countTokSize_member member pos h]
    simp only
    rw [countTokSizeLoop_members members _ (drop_of_drop_append h rfl), membersToks,
      List.length_append, Nat.add_assoc]
termination_by structural members

theorem countTokSize_member (member : Member Value) (pos : ℕ) {i : ℕ} {rest : List Token}
    (h : tokens.drop i = member.toks outOfRange pos ++ rest) :
    countTokSize tokens i = .ok (member.toks outOfRange pos).length := by
  match member with
  | ⟨name, value⟩ =>
    rw [Member.toks, List.cons_append] at h
    rw [Member.toks, List.length_cons]
    refine countTokSize_of_loop (readToken_of_drop h) ?_
    rw [countTokSizeLoop, countTokSize_value value _ (drop_of_drop h 1)]
    simp only [countTokSizeLoop]
termination_by structural member

theorem countTokSizeLoop_items (items : List Value) (pos : ℕ) {i : ℕ} {rest : List Token}
    (h : tokens.drop i = itemsToks outOfRange items pos ++ rest) :
    countTokSizeLoop tokens i items.length =
      .ok (i + (itemsToks outOfRange items pos).length) := by
  match items with
  | [] => rw [List.length_nil, countTokSizeLoop, itemsToks, List.length_nil, Nat.add_zero]
  | item :: items =>
    rw [itemsToks, List.append_assoc] at h
    rw [List.length_cons, countTokSizeLoop, countTokSize_value item pos h]
    simp only
    rw [countTokSizeLoop_items items _ (drop_of_drop_append h rfl), itemsToks,
      List.length_append, Nat.add_assoc]
termination_by structural items

end

variable {buf : Bytes}

/-- The result that a function was applied to. -/
theorem exists_of_map_ok {α β : Type} {x : Except Fault α} {f : α → β} {b : β}
    (h : x.map f = .ok b) : ∃ a, x = .ok a ∧ f a = b := by
  cases x with
  | error fault => cases h
  | ok a => exact ⟨a, rfl, Except.ok.inj h⟩

theorem parseValue_of_read {i : ℕ} {token : Token} (h : readToken tokens i = .ok token) :
    parseValue tokens buf i = match token.type with
      | .object => (parseObjectLoop tokens buf (i + 1) token.size []).map fun members =>
          some (.object members)
      | .array => (parseArrayLoop tokens buf (i + 1) token.size []).map fun items =>
          some (.array items)
      | .string => (tokenText buf token).map fun text => some (.string text)
      | .primitive => (tokenText buf token).map parsePrimitive := by
  rw [parseValue]
  split
  · rename_i herror
    rw [h] at herror
    cases herror
  · rename_i token' hok
    rw [h] at hok
    obtain rfl := Except.ok.inj hok
    rfl

/-- The text between two offsets. -/
theorem tokenText_of_drop {type : TokType} {start size : ℕ} {stop : ℕ} {text rest : Bytes}
    (h : buf.drop start = text ++ rest) (hstop : stop = start + text.length)
    (hne : text ++ rest ≠ []) : tokenText buf ⟨type, start, stop, size⟩ = .ok text := by
  have hlen := congrArg List.length h
  have hpos := List.length_pos_iff.2 hne
  rw [List.length_drop] at hlen
  rw [List.length_append] at hlen hpos
  have htake : ((stop : ℤ) - start).toNat = text.length := by omega
  rw [tokenText, if_pos (by simp only; omega)]
  simp only [Int.toNat_natCast, htake, h, List.take_left]

/-- The text of an integer that a `double` can hold is read as the `float` nearest to it. -/
theorem parsePrimitive_formatLongLong_round {n : ℤ} (hn : |n| ≤ 2 ^ 53) :
    parsePrimitive (formatLongLong n) = some (.number (.round binary32 n)) := by
  have hn' := abs_le.1 hn
  have hstrtod : (strtod (formatLongLong n)).map mkNumber =
      some (.number (.round binary32 n)) := by
    rw [strtod_formatLongLong hn, Option.map_some, mkNumber, BinaryFloat.convert_finite]
  obtain ⟨hprim, hne⟩ := primitiveText_formatLongLong n
  have hshort : snprintfPrefix 32 (formatLongLong n).length (formatLongLong n) =
      formatLongLong n := by
    have hnul : nul ∉ formatLongLong n := fun hmem => by
      rcases hprim nul hmem with h | h | h <;> revert h <;> decide
    have hlen : (formatLongLong n).length ≤ 31 := by
      obtain ⟨digits, -, -, -, hlen, -, htext⟩ := formatLongLong_eq (n := n) (by omega)
      have := hlen 16 (by decide) (by omega)
      rw [htext]
      split_ifs
      · rw [List.length_cons]
        omega
      · omega
    rw [snprintfPrefix, List.take_length, cstr_eq_self hnul, List.take_of_length_le hlen]
  -- the first character is a sign or a digit, so none of the letters
  obtain ⟨c, text, htext⟩ := List.exists_cons_of_ne_nil hne
  have hc : c = minus ∨ isDigit c = true := by
    obtain ⟨digits, hdigits, hdigit, -, -, -, hformat⟩ := formatLongLong_eq (n := n) (by omega)
    rw [htext] at hformat
    split_ifs at hformat
    · exact .inl (List.cons.inj hformat).1
    · exact .inr (hdigit c (hformat ▸ List.mem_cons_self ..))
  have hletter : c ≠ 116 ∧ c ≠ 102 ∧ c ≠ 110 := by
    refine ⟨?_, ?_, ?_⟩ <;> rintro rfl <;> revert hc <;> decide
  rw [← hstrtod]
  nth_rewrite 2 [← hshort]
  rw [htext, parsePrimitive, if_neg hletter.1, if_neg hletter.2.1, if_neg hletter.2.2]

/-- The text of an integer is read as this integer. -/
theorem parsePrimitive_formatLongLong {n : ℤ} (hn : |n| ≤ 2 ^ 24) :
    parsePrimitive (formatLongLong n) = some (.number (.finite n)) := by
  rw [parsePrimitive_formatLongLong_round (hn.trans (by norm_num)), BinaryFloat.round_intCast hn]

/-- Setting a new member puts it where it belongs. -/
theorem set_insert {front behind members : List (Member Value)} {name : Bytes} {value : Value}
    (h : Object.WellFormed (front ++ ⟨name, value⟩ :: (behind ++ members))) :
    Object.set (front ++ behind) name value = front ++ ⟨name, value⟩ :: behind := by
  have hname : storedName name = name :=
    List.take_of_length_le (h.length_le ⟨name, value⟩ (by simp))
  obtain ⟨hfront, hrest, hbelow⟩ := List.pairwise_append.1 h.sorted
  obtain ⟨habove, hrest⟩ := List.pairwise_cons.1 hrest
  have hsplit : SplitAt Member.name (storedName name) front none behind :=
    ⟨hfront, (List.pairwise_append.1 hrest).1,
      fun x hx => hname.symm ▸ hbelow x hx _ List.mem_cons_self, by simp,
      fun x hx => hname.symm ▸ habove x (List.mem_append_left _ hx)⟩
  have hnul : ∀ member ∈ front ++ behind, 0 ∉ member.name := fun member hm => by
    refine h.nulFree member ?_
    rcases List.mem_append.1 hm with hm | hm <;> simp [hm]
  have hset := Object.set_split hsplit hnul (h.nulFree ⟨name, value⟩ (by simp)) value
  simpa [hname] using hset

/-- Setting a member behind all others appends it. -/
theorem set_append {res members : List (Member Value)} {name : Bytes} {value : Value}
    (h : Object.WellFormed (res ++ ⟨name, value⟩ :: members)) :
    Object.set res name value = res ++ [⟨name, value⟩] := by
  have hset : Object.set (res ++ []) name value = res ++ ⟨name, value⟩ :: [] := set_insert h
  rwa [List.append_nil] at hset

/-- The text of a string, behind its opening quote. -/
theorem tokenText_string {str rest : Bytes} {pos : ℕ} (size : ℕ)
    (hbuf : buf.drop pos = writeStringEscaped str ++ rest) :
    tokenText buf ⟨.string, (pos + 1 : ℕ), (pos + 1 + (escapedText str).length : ℕ), size⟩ =
      .ok (escapedText str) := by
  rw [writeStringEscaped_eq] at hbuf
  have hdrop : buf.drop (pos + 1) = escapedText str ++ quote :: rest := by
    rw [drop_of_drop hbuf]
    simp
  exact tokenText_of_drop hdrop rfl (by simp)

/-- A key with one child is set to the value of that child, and passed over with it. -/
theorem parseObjectLoop_key {i k n : ℕ} {key : Token} {val : Option Value}
    {res res' : List (Member Value)} (h : readToken tokens i = .ok key)
    (hkey : key.type = .string ∧ key.size = 1)
    (hval : parseValue tokens buf (i + 1) = .ok val) (hset : setMember buf key val res = .ok res')
    (hcount : countTokSize tokens i = .ok n) :
    parseObjectLoop tokens buf i (k + 1) res = parseObjectLoop tokens buf (i + n) k res' := by
  rw [parseObjectLoop]
  split
  · rename_i herror
    rw [h] at herror
    cases herror
  · rename_i token' hok
    rw [h] at hok
    obtain rfl := Except.ok.inj hok
    rw [if_neg (by simp [hkey])]
    simp only [hval, hset, hcount]

mutual

/-- **The walk over the tokens of a value** builds it again, with the strings as they were
written. -/
theorem parseValue_toks (v : Value) (pos : ℕ) {i : ℕ} {restToks : List Token}
    {rest : Bytes} (htoks : tokens.drop i = v.toks outOfRange pos ++ restToks)
    (hbuf : buf.drop pos = v.serialize outOfRange ++ rest) :
    parseValue tokens buf i = .ok (v.read outOfRange) := by
  cases v with
  | object members =>
    rw [Value.toks, List.cons_append] at htoks
    have hinner : buf.drop (pos + 1) =
        serializeMembers outOfRange members ++ ([closeBrace] ++ rest) := by
      rw [drop_of_drop hbuf]
      simp [Value.serialize]
    rw [parseValue_of_read (readToken_of_drop htoks)]
    simp only
    rw [parseObjectLoop_members members [] (pos + 1) (drop_of_drop htoks 1) hinner]
    rfl
  | array items =>
    rw [Value.toks, List.cons_append] at htoks
    have hinner : buf.drop (pos + 1) =
        serializeItems outOfRange items ++ ([closeBracket] ++ rest) := by
      rw [drop_of_drop hbuf]
      simp [Value.serialize]
    rw [parseValue_of_read (readToken_of_drop htoks)]
    simp only
    rw [parseArrayLoop_items items [] (pos + 1) (drop_of_drop htoks 1) hinner]
    rfl
  | string value =>
    rw [parseValue_of_read (readToken_of_drop htoks)]
    simp only
    rw [tokenText_string 0 hbuf]
    rfl
  | number value =>
    obtain ⟨-, hne⟩ := @primitiveText_serializeNumber outOfRange value
    rw [parseValue_of_read (readToken_of_drop htoks)]
    simp only
    have htext : tokenText buf
      ⟨.primitive, pos, (pos + (serializeNumber outOfRange value).length : ℕ),
        0⟩ = .ok (serializeNumber outOfRange value) := tokenText_of_drop hbuf rfl (by simp [hne])
    exact congrArg (Except.map parsePrimitive) htext
  | bool value =>
    rw [parseValue_of_read (readToken_of_drop htoks)]
    simp only
    cases value
    · have htext : tokenText buf ⟨.primitive, pos, (pos + 5 : ℕ), 0⟩ =
          .ok [102, 97, 108, 115, 101] := tokenText_of_drop hbuf rfl (by simp)
      exact congrArg (Except.map parsePrimitive) htext
    · have htext : tokenText buf ⟨.primitive, pos, (pos + 4 : ℕ), 0⟩ = .ok [116, 114, 117, 101] :=
        tokenText_of_drop hbuf rfl (by simp)
      exact congrArg (Except.map parsePrimitive) htext
  | nil =>
    rw [parseValue_of_read (readToken_of_drop htoks)]
    simp only
    have htext : tokenText buf ⟨.primitive, pos, (pos + 4 : ℕ), 0⟩ = .ok [110, 117, 108, 108] :=
      tokenText_of_drop hbuf rfl (by simp)
    exact congrArg (Except.map parsePrimitive) htext
termination_by structural v

theorem parseObjectLoop_members (members res : List (Member Value)) (pos : ℕ) {i : ℕ}
    {restToks : List Token} {rest : Bytes}
    (htoks : tokens.drop i = membersToks outOfRange members pos ++ restToks)
    (hbuf : buf.drop pos = serializeMembers outOfRange members ++ rest) :
    parseObjectLoop tokens buf i members.length res = .ok (readMembers outOfRange members res) := by
  match members with
  | [] =>
    rw [List.length_nil, parseObjectLoop]
    rfl
  | ⟨name, value⟩ :: members =>
    rw [membersToks, List.append_assoc] at htoks
    rw [serializeMembers, List.append_assoc] at hbuf
    have hkey : readToken tokens i =
        .ok ⟨.string, (pos + 1 : ℕ), (pos + 1 + (escapedText name).length : ℕ), 1⟩ :=
      readToken_of_drop htoks
    have hset : setMember buf
        ⟨.string, (pos + 1 : ℕ), (pos + 1 + (escapedText name).length : ℕ), 1⟩
        (value.read outOfRange) res = .ok (Member.readInto outOfRange ⟨name, value⟩ res) := by
      have htext := tokenText_string 1
        (by rw [hbuf, Member.serialize, List.append_assoc] : _ = writeStringEscaped name ++ _)
      rw [Member.readInto]
      cases value.read outOfRange with
      | none => rfl
      | some val => rw [setMember, htext, Except.map]
    have hval : parseValue tokens buf (i + 1) = .ok (value.read outOfRange) :=
      parseValue_toks value (pos + (escapedText name).length + 3) (drop_of_drop htoks 1)
        (by rw [Nat.add_assoc, drop_of_drop hbuf, Member.serialize,
          writeStringEscaped_eq]; simp; rfl)
    have htoks' := drop_of_drop_append htoks rfl
    have hbuf' := drop_of_drop_append hbuf rfl
    rw [List.length_cons, parseObjectLoop_key hkey ⟨rfl, rfl⟩ hval hset
      (countTokSize_member ⟨name, value⟩ pos htoks)]
    cases members with
    | nil =>
      rw [List.length_nil, parseObjectLoop]
      rfl
    | cons next members =>
      exact parseObjectLoop_members (next :: members) _
        (pos + (Member.serialize outOfRange ⟨name, value⟩).length + 1) htoks'
        (by rw [drop_of_drop hbuf']; rfl)
termination_by structural members

theorem parseArrayLoop_items (items res : List Value) (pos : ℕ) {i : ℕ}
    {restToks : List Token} {rest : Bytes}
    (htoks : tokens.drop i = itemsToks outOfRange items pos ++ restToks)
    (hbuf : buf.drop pos = serializeItems outOfRange items ++ rest) :
    parseArrayLoop tokens buf i items.length res = .ok (res ++ readItems outOfRange items) := by
  match items with
  | [] =>
    rw [List.length_nil, parseArrayLoop, readItems, List.append_nil]
  | item :: items =>
    rw [itemsToks, List.append_assoc] at htoks
    rw [serializeItems, List.append_assoc] at hbuf
    rw [List.length_cons, parseArrayLoop, parseValue_toks item pos htoks hbuf]
    simp only
    rw [countTokSize_value item pos htoks]
    simp only
    have htoks' := drop_of_drop_append htoks rfl
    have hbuf' := drop_of_drop_append hbuf rfl
    rw [readItems, ← List.append_assoc]
    cases items with
    | nil => rw [List.length_nil, parseArrayLoop, readItems, List.append_nil]
    | cons next items =>
      exact parseArrayLoop_items (next :: items) _
        (pos + (item.serialize outOfRange).length + 1) htoks' (by rw [drop_of_drop hbuf']; rfl)
termination_by structural items

end

end Walk

/-! ## The round trip -/

mutual

/-- The number of tokens a value needs: one for each value and one for each key. -/
def Value.tokenCount : Value → ℕ
  | .object members => memberTokens members + 1
  | .array items => itemTokens items + 1
  | _ => 1
termination_by structural v => v

/-- The number of tokens of members. -/
def memberTokens : List (Member Value) → ℕ
  | [] => 0
  | member :: members => member.tokenCount + memberTokens members
termination_by structural members => members

/-- The number of tokens of a member. -/
def Member.tokenCount : Member Value → ℕ
  | ⟨_, value⟩ => value.tokenCount + 1
termination_by structural member => member

/-- The number of tokens of items. -/
def itemTokens : List Value → ℕ
  | [] => 0
  | item :: items => item.tokenCount + itemTokens items
termination_by structural items => items

end

section Length

variable {outOfRange : BinaryFloat → ℤ}

mutual

theorem length_toks (v : Value) (pos : ℕ) : (v.toks outOfRange pos).length = v.tokenCount := by
  cases v with
  | object members => rw [Value.toks, List.length_cons, length_membersToks, Value.tokenCount]
  | array items => rw [Value.toks, List.length_cons, length_itemsToks, Value.tokenCount]
  | string | number | bool | nil => rfl
termination_by structural v

theorem length_membersToks (members : List (Member Value)) (pos : ℕ) :
    (membersToks outOfRange members pos).length = memberTokens members := by
  match members with
  | [] => rfl
  | member :: members =>
    rw [membersToks, List.length_append, length_memberToks, length_membersToks, memberTokens]
termination_by structural members

theorem length_memberToks (member : Member Value) (pos : ℕ) :
    (member.toks outOfRange pos).length = member.tokenCount := by
  match member with
  | ⟨name, value⟩ => rw [Member.toks, List.length_cons, length_toks, Member.tokenCount]
termination_by structural member

theorem length_itemsToks (items : List Value) (pos : ℕ) :
    (itemsToks outOfRange items pos).length = itemTokens items := by
  match items with
  | [] => rfl
  | item :: items =>
    rw [itemsToks, List.length_append, length_toks, length_itemsToks, itemTokens]
termination_by structural items

end

end Length

mutual

/-- A plain value is equal to itself. -/
theorem equals_self (v : Value) (hv : v.Plain) : v.equals v = true := by
  cases v with
  | object members => exact equalMembers_self members hv.2
  | array items => exact equalItems_self items hv
  | string value => exact decide_eq_true rfl
  | number value =>
    obtain ⟨n, -, rfl⟩ := hv
    exact decide_eq_true rfl
  | bool value => exact decide_eq_true rfl
  | nil => rfl
termination_by structural v

theorem equalMembers_self (members : List (Member Value)) (h : PlainMembers members) :
    equalMembers members members = true := by
  match members with
  | [] => rfl
  | member :: members =>
    rw [equalMembers, memberEquals_self member h.1, equalMembers_self members h.2, Bool.and_self]
termination_by structural members

theorem memberEquals_self (member : Member Value) (h : member.Plain) :
    member.equals member = true := by
  match member with
  | ⟨name, value⟩ => rw [Member.equals, equals_self value h.2, decide_eq_true rfl, Bool.and_self]
termination_by structural member

theorem equalItems_self (items : List Value) (h : PlainItems items) :
    equalItems items items = true := by
  match items with
  | [] => rfl
  | item :: items =>
    rw [equalItems, equals_self item h.1, equalItems_self items h.2, Bool.and_self]
termination_by structural items

end

mutual

/-- A plain value is read as it is. -/
theorem read_plain (outOfRange : BinaryFloat → ℤ) (v : Value) (hv : v.Plain) :
    v.read outOfRange = some v := by
  cases v with
  | object members => rw [Value.read, readMembers_plain outOfRange members hv.2 [] hv.1]; rfl
  | array items => rw [Value.read, readItems_plain outOfRange items hv]
  | string value => rw [Value.read, escapedText_plain hv]
  | number value =>
    obtain ⟨n, hn, rfl⟩ := hv
    rw [Value.read, serializeNumber_plain hn, parsePrimitive_formatLongLong hn]
  | bool value => rfl
  | nil => rfl
termination_by structural v

/-- The members come in sorted, so that each of them is appended. -/
theorem readMembers_plain (outOfRange : BinaryFloat → ℤ) (members : List (Member Value))
    (hmembers : PlainMembers members) (res : List (Member Value))
    (hwf : Object.WellFormed (res ++ members)) :
    readMembers outOfRange members res = res ++ members := by
  match members with
  | [] => rw [readMembers, List.append_nil]
  | ⟨name, value⟩ :: members =>
    obtain ⟨⟨hname, hvalue⟩, hrest⟩ := hmembers
    have hset : Member.readInto outOfRange ⟨name, value⟩ res = res ++ [⟨name, value⟩] := by
      rw [Member.readInto, read_plain outOfRange value hvalue, escapedText_plain hname]
      exact set_append hwf
    rw [readMembers, hset, readMembers_plain outOfRange members hrest _
      (by rwa [List.append_assoc]),
      List.append_assoc]
    rfl
termination_by structural members

theorem readItems_plain (outOfRange : BinaryFloat → ℤ) (items : List Value)
    (hitems : PlainItems items) : readItems outOfRange items = items := by
  match items with
  | [] => rfl
  | item :: items =>
    rw [readItems, read_plain outOfRange item hitems.1, readItems_plain outOfRange items hitems.2]
    rfl
termination_by structural items

end

/-- The tokens of the text of a value. -/
theorem jsmnParse_serialize (outOfRange : BinaryFloat → ℤ) (v : Value) :
    Jsmn.parse v.tokenCount (v.serialize outOfRange) = .ok (v.toks outOfRange 0) := by
  have hloop : parseLoop v.tokenCount (v.serialize outOfRange ++ []) ⟨0, [], none⟩ =
      parseLoop v.tokenCount [] (Parser.after outOfRange ⟨0, [], none⟩ v) :=
    parseLoop_value v (by rintro c ⟨⟩) _ (by rintro i ⟨⟩) (by simp [length_toks])
  rw [List.append_nil, parseLoop] at hloop
  rw [Jsmn.parse, hloop]
  simp only [bind, Except.bind, Parser.after, bumpSuper, List.nil_append]
  rw [lastIdx?_eq_none (toks_closed outOfRange v 0)]
  rfl

/-- **Parsing the text of an object** that needs at most 64 tokens builds it again, with the strings
as they were written; otherwise there is no result. -/
theorem parse_object_serialize (outOfRange : BinaryFloat → ℤ) (members : List (Member Value)) :
    parse ((Value.object members).serialize outOfRange) =
      .ok (if (Value.object members).tokenCount ≤ 64 then some (readMembers outOfRange members [])
        else none) := by
  have htokens := parseTokens_of_parse (jsmnParse_serialize outOfRange (.object members))
  rw [length_toks] at htokens
  rw [parse, htokens]
  split_ifs with hcount
  · have hobj : (Value.toks outOfRange (.object members) 0).drop 0 =
        (Value.object members).toks outOfRange 0 ++ [] := by rw [List.drop_zero, List.append_nil]
    have hmembers : ((Value.object members).serialize outOfRange).drop 1 =
        serializeMembers outOfRange members ++ [closeBrace] := rfl
    rw [Value.toks, List.cons_append] at hobj
    simp only [parseObject]
    rw [Value.toks, readToken_of_drop hobj]
    simp only [bind, Except.bind, ne_eq, not_true, if_false]
    rw [parseObjectLoop_members members [] 1 (drop_of_drop hobj 1) hmembers]
    rfl
  · rfl

/-- **The round trip**: parsing the text of a plain object that needs at most 64 tokens gives back
an equal object. -/
theorem parse_serialize (outOfRange : BinaryFloat → ℤ) (members : List (Member Value))
    (hplain : (Value.object members).Plain) (hcount : (Value.object members).tokenCount ≤ 64) :
    ∃ parsed, parse ((Value.object members).serialize outOfRange) = .ok (some parsed) ∧
      (Value.object parsed).equals (.object members) = true := by
  refine ⟨members, ?_, equals_self _ hplain⟩
  rw [parse_object_serialize, if_pos hcount,
    readMembers_plain outOfRange members hplain.2 [] hplain.1]
  rfl

/-- An object with an empty object, an empty string and a number in nested containers. -/
theorem parse_serialize_nested :
    ∃ parsed, parse ((Value.object [⟨[97], .array [.number (.finite (-7)), .object [], .string []]⟩,
        ⟨[97, 98], .bool true⟩]).serialize fun _ => 0) = .ok (some parsed) ∧
      (Value.object parsed).equals (.object [⟨[97], .array [.number (.finite (-7)), .object [],
        .string []]⟩, ⟨[97, 98], .bool true⟩]) = true := by
  refine parse_serialize (fun _ => 0) _ ⟨⟨by simp [KeySorted], by simp, by simp [keyLimit]⟩, ?_⟩
    (by decide)
  have hkeys : PlainText [97] ∧ PlainText [97, 98] ∧ PlainText [] := by decide +kernel
  exact ⟨⟨hkeys.1, ⟨-7, by decide, by norm_num⟩, ⟨Object.wellFormed_nil, trivial⟩, hkeys.2.2,
    trivial⟩, ⟨hkeys.2.1, trivial⟩, trivial⟩

end RbProtocol.Json
