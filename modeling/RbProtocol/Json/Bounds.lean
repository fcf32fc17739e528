import RbProtocol.Json.RoundTrip
import RbProtocol.Library.Preorder

/-!
# What the parser reads

The tokens of `jsmn_parse` count their children as a forest in preorder does, whatever the buffer
holds, and the text of a string or a primitive lies in the buffer (`sound_parseLoop`). So the walk
over the tokens stays among them (`parseValue_fits`), as long as there is a token to start from:
`rbjson::parse` reads the first token even when there is none, which is so for exactly the buffers
that hold nothing but blanks, colons and commas (`parse_inRange_iff`).
-/

namespace RbProtocol.Json

open Ascii Library Jsmn

/-! ## The tokens form a forest -/

/-- The sizes of the tokens. -/
def sizes (tokens : List Token) : List ℕ := tokens.map Token.size

@[simp] theorem length_sizes (tokens : List Token) : (sizes tokens).length = tokens.length :=
  List.length_map _

/-- The text of a token lies in the first `size` bytes, unless it is an object or an array. -/
def Jsmn.Token.TextIn (size : ℕ) (token : Token) : Prop :=
  token.isContainer = false → 0 ≤ token.start ∧ token.start ≤ token.stop ∧ token.stop ≤ size

/-- What holds of the parser between two characters, of a buffer of `size` bytes. -/
structure Jsmn.Parser.Sound (size : ℕ) (p : Parser) : Prop where
  super_lt : ∀ i ∈ p.toksuper, i < p.tokens.length
  forest : Forest (sizes p.tokens)
  text_in : ∀ token ∈ p.tokens, token.TextIn size

theorem sizes_modify (tokens : List Token) (i : ℕ) :
    sizes (tokens.modify i fun token => { token with size := token.size + 1 }) =
      (sizes tokens).modify i (· + 1) := by
  induction tokens generalizing i with
  | nil => simp [sizes]
  | cons token tokens ih =>
    cases i with
    | zero => rfl
    | succ i => exact congrArg (token.size :: ·) (ih i)

theorem sizes_modify_stop (tokens : List Token) (i : ℕ) (stop : ℤ) :
    sizes (tokens.modify i fun token => { token with stop := stop }) = sizes tokens := by
  induction tokens generalizing i with
  | nil => simp [sizes]
  | cons token tokens ih =>
    cases i with
    | zero => rfl
    | succ i => exact congrArg (token.size :: ·) (ih i)

/-- A new token is a leaf, with or without a parent. -/
theorem forest_bumpSuper {tokens : List Token} {toksuper : Option ℕ} {token : Token}
    (h : Forest (sizes tokens)) (hsuper : ∀ i ∈ toksuper, i < tokens.length)
    (htoken : token.size = 0) : Forest (sizes (bumpSuper toksuper (tokens ++ [token]))) := by
  have hsizes : sizes (tokens ++ [token]) = sizes tokens ++ [0] := by
    rw [sizes, List.map_append, List.map_singleton, htoken]
    rfl
  cases toksuper with
  | none => exact hsizes ▸ h.leaf
  | some i =>
    rw [bumpSuper, sizes_modify, hsizes]
    exact h.child (by rw [length_sizes]; exact hsuper i rfl)

/-- A property that does not depend on the size of a token. -/
theorem forall_mem_modify {tokens : List Token} {P : Token → Prop} {f : Token → Token} (i : ℕ)
    (h : ∀ token ∈ tokens, P token) (hf : ∀ token ∈ tokens[i]?, P (f token)) :
    ∀ token ∈ tokens.modify i f, P token := by
  intro token htoken
  obtain ⟨j, hj⟩ := List.mem_iff_getElem?.1 htoken
  rw [List.getElem?_modify] at hj
  cases ht : tokens[j]? with
  | none =>
    rw [ht] at hj
    simp at hj
  | some t =>
    rw [ht, Option.map_eq_map, Option.map_some, Option.some.injEq] at hj
    subst hj
    split_ifs with hij
    · exact hf t (hij ▸ ht)
    · exact h t (List.mem_of_getElem? ht)

theorem textIn_bumpSuper {size : ℕ} {tokens : List Token} (toksuper : Option ℕ)
    (h : ∀ token ∈ tokens, token.TextIn size) :
    ∀ token ∈ bumpSuper toksuper tokens, token.TextIn size := by
  cases toksuper with
  | none => exact h
  | some i =>
    exact forall_mem_modify i h fun token htoken => h token (List.mem_of_getElem? htoken)

variable {numTokens size n : ℕ} {p q : Parser}

/-- Adding a token keeps the parser sound. -/
theorem Jsmn.Parser.Sound.add (h : p.Sound size) {token : Token} (hsize : token.size = 0)
    (htext : token.TextIn size) {pos : ℕ} {toksuper : Option ℕ}
    (hsuper : ∀ i ∈ toksuper, i < p.tokens.length + 1) :
    Parser.Sound size ⟨pos, bumpSuper p.toksuper (p.tokens ++ [token]), toksuper⟩ where
  super_lt i hi := by
    rw [length_bumpSuper, List.length_append, List.length_singleton]
    exact hsuper i hi
  forest := forest_bumpSuper h.forest h.super_lt hsize
  text_in := textIn_bumpSuper _ fun t ht => by
    rcases List.mem_append.1 ht with ht | ht
    · exact h.text_in t ht
    · exact List.mem_singleton.1 ht ▸ htext

theorem allocToken_eq {tokens tokens' : List Token} {token : Token}
    (h : allocToken numTokens tokens token = .ok tokens') : tokens' = tokens ++ [token] := by
  rw [allocToken] at h
  split_ifs at h
  exact (Except.ok.inj h).symm

theorem sound_addScalar (hp : p.Sound size) {token : Token} (hsize : token.size = 0)
    (htext : token.TextIn size) (h : addScalar numTokens token p = .ok q) : q.Sound size := by
  rcases ha : allocToken numTokens p.tokens token with e | tokens
  · rw [addScalar, ha] at h
    cases h
  · rw [addScalar, ha] at h
    obtain rfl := Except.ok.inj h
    obtain rfl := allocToken_eq ha
    exact hp.add hsize htext fun i hi => (hp.super_lt i hi).trans (Nat.lt_succ_self _)

theorem sound_openContainer {type : TokType} (htype : type = .object ∨ type = .array)
    (hp : p.Sound size) (h : openContainer numTokens type p = .ok (q, n)) :
    q.Sound size ∧ n = 0 := by
  rcases ha : allocToken numTokens p.tokens ⟨type, p.pos, -1, 0⟩ with e | tokens
  · rw [openContainer, ha] at h
    cases h
  · rw [openContainer, ha] at h
    obtain ⟨rfl, rfl⟩ := Prod.mk.inj (Except.ok.inj h)
    obtain rfl := allocToken_eq ha
    refine ⟨hp.add rfl ?_ fun i hi => ?_, rfl⟩
    · rcases htype with rfl | rfl <;> intro h' <;> cases h'
    · obtain rfl := Option.some.inj hi
      exact Nat.lt_succ_self _

theorem sound_closeContainer {type : TokType} (htype : type = .object ∨ type = .array)
    (hp : p.Sound size) (h : closeContainer type p = .ok (q, n)) : q.Sound size ∧ n = 0 := by
  rw [closeContainer] at h
  cases hopen : lastIdx? Token.isOpen p.tokens with
  | none =>
    rw [hopen] at h
    cases h
  | some i =>
    rw [hopen] at h
    simp only at h
    split_ifs at h with hsame
    obtain ⟨rfl, rfl⟩ := Prod.mk.inj (Except.ok.inj h)
    have hsizes : sizes (p.tokens.modify i fun token => { token with stop := p.pos + 1 }) =
        sizes p.tokens := sizes_modify_stop p.tokens i _
    refine ⟨⟨fun j hj => ?_, ?_, ?_⟩, rfl⟩
    · have hlt := lastIdx?_lt hj
      rw [List.length_take] at hlt
      exact hlt.trans_le (min_le_right _ _)
    · exact hsizes ▸ hp.forest
    · refine forall_mem_modify i hp.text_in fun token htoken hcontainer => ?_
      -- the token that gets its end is an object or an array
      rw [Option.mem_def.1 htoken, Option.map_some, not_not, Option.some.injEq] at hsame
      rw [Token.isContainer] at hcontainer
      rcases htype with rfl | rfl <;> simp [hsame] at hcontainer

theorem sound_colonStep (hp : p.Sound size) : (colonStep p).Sound size := by
  refine ⟨fun i hi => ?_, hp.forest, hp.text_in⟩
  rw [colonStep] at hi
  simp only at hi
  split_ifs at hi with hempty
  · cases hi
  · obtain rfl := Option.some.inj hi
    have hpos := List.length_pos_iff.2 (mt List.isEmpty_iff.2 hempty)
    exact Nat.sub_lt hpos Nat.one_pos

theorem sound_commaStep (hp : p.Sound size) : (commaStep p).Sound size := by
  rw [commaStep]
  split
  · exact hp
  · split_ifs
    · exact hp
    · split
      · exact hp
      · rename_i i hi
        exact ⟨fun j hj => Option.some.inj hj ▸ lastIdx?_lt hi, hp.forest, hp.text_in⟩

/-! ## What a scan consumes -/

theorem stringLength_lt {scan : Scan} {js : Bytes} {len : ℕ} (h : stringLength scan js = .ok len) :
    len < js.length := by
  induction js generalizing scan len with
  | nil => cases h
  | cons c rest ih =>
    rw [stringLength] at h
    rcases hnext : scan.next c with e | _ | scan'
    · rw [hnext] at h
      cases h
    · rw [hnext] at h
      obtain rfl := Except.ok.inj h
      exact Nat.succ_pos _
    · rw [hnext] at h
      rcases hlen : stringLength scan' rest with e | len'
      · simp only [hlen] at h
        cases h
      · simp only [hlen] at h
        obtain rfl := Except.ok.inj h
        exact Nat.succ_lt_succ (ih hlen)

theorem primitiveLength_le {js : Bytes} {len : ℕ} (h : primitiveLength js = .ok len) :
    len ≤ js.length := by
  induction js generalizing len with
  | nil =>
    obtain rfl := Except.ok.inj h
    exact Nat.zero_le _
  | cons c rest ih =>
    rw [primitiveLength] at h
    split_ifs at h
    · obtain rfl := Except.ok.inj h
      exact Nat.zero_le _
    · rcases hlen : primitiveLength rest with e | len'
      · rw [hlen] at h
        cases h
      · rw [hlen] at h
        obtain rfl := Except.ok.inj h
        exact Nat.succ_le_succ (ih hlen)

/-! ## The loop of the tokenizer -/

/-- A string or primitive, scanned and added. -/
theorem sound_scalar {scanned : Except Error ℕ} {token : ℕ → Token} {extra : ℕ → ℕ}
    (hp : p.Sound size) {rest : Bytes} (hsize : ∀ len, (token len).size = 0)
    (hscan : ∀ len, scanned = .ok len → (token len).TextIn size ∧ extra len ≤ rest.length)
    (h : (do
      let len ← scanned
      let p ← addScalar numTokens (token len) p
      return (p, extra len)) = .ok (q, n)) : q.Sound size ∧ n ≤ rest.length := by
  rcases scanned with e | len
  · cases h
  simp only [bind, Except.bind, pure, Except.pure] at h
  rcases ha : addScalar numTokens (token len) p with e | p'
  · rw [ha] at h
    cases h
  · rw [ha] at h
    obtain ⟨rfl, rfl⟩ := Prod.mk.inj (Except.ok.inj h)
    obtain ⟨htext, hle⟩ := hscan len rfl
    exact ⟨sound_addScalar hp (hsize len) htext ha, hle⟩

/-- One character of the tokenizer. -/
theorem sound_step {c : UInt8} {rest : Bytes} (hp : p.Sound size)
    (hpos : p.pos + rest.length + 1 = size) (h : step numTokens c rest p = .ok (q, n)) :
    q.Sound size ∧ n ≤ rest.length := by
  have hzero : q.Sound size ∧ n = 0 → q.Sound size ∧ n ≤ rest.length :=
    fun ⟨hq, hn⟩ => ⟨hq, hn ▸ Nat.zero_le _⟩
  rw [step] at h
  split_ifs at h
  · exact hzero (sound_openContainer (.inl rfl) hp h)
  · exact hzero (sound_openContainer (.inr rfl) hp h)
  · exact hzero (sound_closeContainer (.inl rfl) hp h)
  · exact hzero (sound_closeContainer (.inr rfl) hp h)
  · refine sound_scalar hp (fun _ => rfl) (fun len hlen => ⟨fun _ => ?_, ?_⟩) h
    · have := stringLength_lt hlen
      simp only
      omega
    · exact stringLength_lt hlen
  · obtain ⟨rfl, rfl⟩ := Prod.mk.inj (Except.ok.inj h)
    exact hzero ⟨hp, rfl⟩
  · obtain ⟨rfl, rfl⟩ := Prod.mk.inj (Except.ok.inj h)
    exact hzero ⟨sound_colonStep hp, rfl⟩
  · obtain ⟨rfl, rfl⟩ := Prod.mk.inj (Except.ok.inj h)
    exact hzero ⟨sound_commaStep hp, rfl⟩
  · refine sound_scalar hp (fun _ => rfl) (fun len hlen => ⟨fun _ => ?_, ?_⟩) h
    · have := primitiveLength_le hlen
      rw [List.length_cons] at this
      simp only
      omega
    · have := primitiveLength_le hlen
      rw [List.length_cons] at this
      omega

theorem sound_parseLoop {js : Bytes} (hp : p.Sound size) (hpos : p.pos + js.length = size)
    (h : parseLoop numTokens js p = .ok q) : q.Sound size := by
  fun_induction parseLoop numTokens js p with
  | case1 p => exact Except.ok.inj h ▸ hp
  | case2 => exact Except.ok.inj h ▸ hp
  | case3 => cases h
  | case4 p c rest hc p' n hstep ih =>
    rw [List.length_cons] at hpos
    obtain ⟨hp', hn⟩ := sound_step hp (by omega) hstep
    refine ih ⟨hp'.super_lt, hp'.forest, hp'.text_in⟩ ?_ h
    rw [List.length_drop]
    simp only
    omega

/-! ## When there is a token -/

/-- The characters for which `jsmn_parse` writes no token. -/
def isSeparator (c : UInt8) : Bool := c ∈ [tab, carriageReturn, newline, space, colon, comma]

theorem step_separator {c : UInt8} (rest : Bytes) (hc : isSeparator c = true) :
    ∃ p', step numTokens c rest p = .ok (p', 0) ∧ p'.tokens = p.tokens := by
  simp only [isSeparator, List.mem_cons, List.not_mem_nil, or_false, decide_eq_true_eq] at hc
  rcases hc with rfl | rfl | rfl | rfl | rfl | rfl
  · exact ⟨p, rfl, rfl⟩
  · exact ⟨p, rfl, rfl⟩
  · exact ⟨p, rfl, rfl⟩
  · exact ⟨p, rfl, rfl⟩
  · exact ⟨colonStep p, rfl, rfl⟩
  · exact ⟨commaStep p, rfl, commaStep_tokens p⟩

theorem step_tokens_ne_nil {c : UInt8} {rest : Bytes} (hc : isSeparator c = false)
    (h : step numTokens c rest p = .ok (q, n)) : q.tokens ≠ [] := by
  have hadd : q.tokens.length = p.tokens.length + 1 → q.tokens ≠ [] := by
    rintro hlen hnil
    rw [hnil] at hlen
    cases hlen
  have hclose {type : TokType} (h : closeContainer type p = .ok (q, n)) : q.tokens ≠ [] := by
    have hlen := closeContainer_length h
    intro hnil
    rw [hnil] at hlen
    rw [closeContainer, List.length_eq_zero_iff.1 hlen.symm] at h
    cases h
  simp only [isSeparator, List.mem_cons, List.not_mem_nil, or_false, decide_eq_false_iff_not,
    not_or] at hc
  rw [step] at h
  split_ifs at h with _ _ _ _ _ hblank hcolon hcomma
  · exact hadd (@openContainer_limit _ 0 _ _ _ _ h).1
  · exact hadd (@openContainer_limit _ 0 _ _ _ _ h).1
  · exact hclose h
  · exact hclose h
  · exact hadd (@scalar_limit _ 0 _ _ _ _ _ _ h).1
  · simp [hc] at hblank
  · exact absurd hcolon hc.2.2.2.2.1
  · exact absurd hcomma hc.2.2.2.2.2
  · exact hadd (@scalar_limit _ 0 _ _ _ _ _ _ h).1

/-- A buffer with separators only, up to its end or a NUL. -/
def Blank (js : Bytes) : Prop := ∀ c ∈ js.takeWhile (· ≠ nul), isSeparator c = true

instance (js : Bytes) : Decidable (Blank js) :=
  inferInstanceAs (Decidable (∀ c ∈ js.takeWhile (· ≠ nul), isSeparator c = true))

theorem blank_cons {c : UInt8} {js : Bytes} (hc : c ≠ nul) :
    Blank (c :: js) ↔ isSeparator c = true ∧ Blank js := by
  rw [Blank, List.takeWhile_cons_of_pos (by simpa using hc), List.forall_mem_cons]
  rfl

/-- There is no token when the parser started without one and met separators only. -/
theorem parseLoop_blank {js : Bytes} (h : Blank js) :
    ∃ q, parseLoop numTokens js p = .ok q ∧ q.tokens = p.tokens := by
  induction js generalizing p with
  | nil => exact ⟨p, by rw [parseLoop], rfl⟩
  | cons c js ih =>
    by_cases hc : c = nul
    · exact ⟨p, by rw [parseLoop, if_pos hc], rfl⟩
    · obtain ⟨hsep, hjs⟩ := (blank_cons hc).1 h
      obtain ⟨p', hstep, htokens⟩ := step_separator js hsep
      obtain ⟨q, hq, hqt⟩ := @ih { p' with pos := p.pos + 0 + 1 } hjs
      exact ⟨q, by rw [parseLoop_cons hc hstep, List.drop_zero, hq], hqt.trans htokens⟩

/-- Anything else leaves a token. -/
theorem parseLoop_tokens_ne_nil {js : Bytes} (hjs : ¬ Blank js)
    (h : parseLoop numTokens js p = .ok q) : q.tokens ≠ [] := by
  induction js generalizing p with
  | nil => exact absurd (fun _ hc => nomatch hc) hjs
  | cons c js ih =>
    have hc : c ≠ nul := by
      rintro rfl
      refine hjs fun _ hc => ?_
      rw [List.takeWhile_cons_of_neg (by simp)] at hc
      cases hc
    cases hsep : isSeparator c with
    | true =>
      obtain ⟨p', hstep, -⟩ := @step_separator numTokens p c js hsep
      rw [parseLoop_cons hc hstep, List.drop_zero] at h
      exact ih (fun hblank => hjs ((blank_cons hc).2 ⟨hsep, hblank⟩)) h
    | false =>
      rw [parseLoop, if_neg hc] at h
      rcases hstep : step numTokens c js p with e | ⟨p', n⟩
      · rw [hstep] at h
        cases h
      · simp only [hstep] at h
        have hpos := List.length_pos_iff.2 (step_tokens_ne_nil hsep hstep)
        have hmono := parseLoop_mono h
        exact List.length_pos_iff.1 (hpos.trans_le hmono)

/-! ## The walk -/

section Walk

variable {tokens : List Token} {buf : Bytes} {i k : ℕ}

theorem readToken_of_fits (h : Fits (sizes tokens) i (k + 1)) :
    ∃ token, readToken tokens i = .ok token ∧ token ∈ tokens ∧
      Fits (sizes tokens) (i + 1) (token.size + k) := by
  have hlt := h.lt
  rw [length_sizes] at hlt
  have hread : tokens[i]? = some tokens[i] := List.getElem?_eq_getElem hlt
  refine ⟨tokens[i], by rw [readToken, hread], List.getElem_mem hlt, h.visit ?_⟩
  rw [sizes, List.getElem?_map, hread]
  rfl

/-- The loop of `count_tok_size` passes the subtrees it counts. The induction is on the tokens
behind the position. -/
theorem countTokSizeLoop_fits {itr j : ℕ} (h : Fits (sizes tokens) itr (k + j)) :
    ∃ r, countTokSizeLoop tokens itr k = .ok r ∧ itr ≤ r ∧ Fits (sizes tokens) r j := by
  induction hn : tokens.length - itr using Nat.strong_induction_on generalizing itr k j with
  | _ n ih =>
    cases k with
    | zero => exact ⟨itr, by rw [countTokSizeLoop], le_rfl, (Nat.zero_add j) ▸ h⟩
    | succ k =>
      have h' : Fits (sizes tokens) itr (k + j + 1) := by rwa [Nat.add_right_comm] at h
      have hlt := h'.lt
      rw [length_sizes] at hlt
      obtain ⟨token, hread, -, hchildren⟩ := readToken_of_fits h'
      obtain ⟨r₁, hr₁, hle₁, hfits₁⟩ := ih _ (by omega) hchildren rfl
      obtain ⟨r, hr, hle, hfits⟩ := ih (tokens.length - r₁) (by omega) hfits₁ rfl
      have hback : itr + (r₁ - itr) = r₁ := by omega
      refine ⟨r, ?_, by omega, hfits⟩
      rw [countTokSizeLoop, countTokSize_of_read hread, hr₁, Except.map]
      simp only
      rw [hback, hr]

theorem countTokSize_fits (h : Fits (sizes tokens) i (k + 1)) :
    ∃ n, countTokSize tokens i = .ok n ∧ 0 < n ∧ Fits (sizes tokens) (i + n) k := by
  obtain ⟨token, hread, -, hchildren⟩ := readToken_of_fits h
  obtain ⟨r, hr, hle, hfits⟩ := countTokSizeLoop_fits hchildren
  refine ⟨r - i, by rw [countTokSize_of_read hread, hr, Except.map], by omega, ?_⟩
  rwa [Nat.add_sub_cancel' (by omega)]

theorem tokenText_of_textIn {token : Token} (h : token.TextIn buf.length)
    (hcontainer : token.isContainer = false) : ∃ text, tokenText buf token = .ok text := by
  rw [tokenText, if_pos (h hcontainer)]
  exact ⟨_, rfl⟩

/-- A member can be set when its key is a string. -/
theorem setMember_ok (hbuf : ∀ token ∈ tokens, token.TextIn buf.length) {key : Token}
    (hkey : key ∈ tokens) (htype : key.type = .string)
    (val : Option Value) (res : List (Member Value)) :
    ∃ res', setMember buf key val res = .ok res' := by
  cases val with
  | none => exact ⟨res, rfl⟩
  | some val =>
    obtain ⟨text, htext⟩ := tokenText_of_textIn (hbuf key hkey)
      (by rw [Token.isContainer, htype]; rfl)
    exact ⟨_, by rw [setMember, htext, Except.map]⟩

/-- A token that is no key with one child is not passed over. -/
theorem parseObjectLoop_skip {key : Token} {res : List (Member Value)}
    (h : readToken tokens i = .ok key) (hskip : key.type ≠ .string ∨ key.size ≠ 1) :
    parseObjectLoop tokens buf i (k + 1) res = parseObjectLoop tokens buf i k res := by
  rw [parseObjectLoop]
  split
  · rename_i herror
    rw [h] at herror
    cases herror
  · rename_i token' hok
    rw [h] at hok
    obtain rfl := Except.ok.inj hok
    rw [if_pos hskip]

mutual

/-- **The walk of a value** stays among the tokens, and its texts in the buffer. -/
theorem parseValue_fits (hbuf : ∀ token ∈ tokens, token.TextIn buf.length) {i : ℕ}
    (h : Fits (sizes tokens) i 1) : ∃ v, parseValue tokens buf i = .ok v := by
  have hlt : i < tokens.length := length_sizes tokens ▸ h.lt
  obtain ⟨token, hread, hmem, hchildren⟩ := readToken_of_fits h
  rw [parseValue_of_read hread]
  cases htype : token.type with
  | object =>
    obtain ⟨members, hmembers⟩ := parseObjectLoop_fits hbuf hchildren []
    exact ⟨some (.object members), congrArg (Except.map _) hmembers⟩
  | array =>
    obtain ⟨items, hitems⟩ := parseArrayLoop_fits hbuf hchildren []
    exact ⟨some (.array items), congrArg (Except.map _) hitems⟩
  | string | primitive =>
    obtain ⟨text, htext⟩ := tokenText_of_textIn (hbuf token hmem)
      (by rw [Token.isContainer, htype]; rfl)
    exact ⟨_, congrArg (Except.map _) htext⟩
termination_by (tokens.length - i, 0, 0)
decreasing_by all_goals exact Prod.Lex.left _ _ (by omega)

theorem parseObjectLoop_fits (hbuf : ∀ token ∈ tokens, token.TextIn buf.length) {tok k : ℕ}
    (h : Fits (sizes tokens) tok k) (res : List (Member Value)) :
    ∃ res', parseObjectLoop tokens buf tok k res = .ok res' := by
  match k with
  | 0 => exact ⟨res, by rw [parseObjectLoop]⟩
  | k + 1 =>
    have hlt : tok < tokens.length := length_sizes tokens ▸ h.lt
    obtain ⟨key, hread, hmem, hchildren⟩ := readToken_of_fits h
    by_cases hskip : key.type ≠ .string ∨ key.size ≠ 1
    · obtain ⟨res', hres'⟩ := parseObjectLoop_fits hbuf (h.mono (Nat.le_succ k)) res
      exact ⟨res', by rw [parseObjectLoop_skip hread hskip, hres']⟩
    · rw [not_or, not_not, not_not] at hskip
      rw [hskip.2] at hchildren
      obtain ⟨val, hval⟩ := parseValue_fits hbuf (hchildren.mono (Nat.le_add_right 1 k))
      obtain ⟨res₁, hres₁⟩ := setMember_ok hbuf hmem hskip.1 val res
      obtain ⟨n, hcount, hn, hfits⟩ := countTokSize_fits h
      obtain ⟨res', hres'⟩ := parseObjectLoop_fits hbuf hfits res₁
      exact ⟨res', by rw [parseObjectLoop_key hread hskip hval hres₁ hcount, hres']⟩
termination_by (tokens.length - tok, 1, k)
decreasing_by
  · exact Prod.Lex.right _ (Prod.Lex.right _ (by omega))
  · exact Prod.Lex.left _ _ (by omega)
  · exact Prod.Lex.left _ _ (by omega)

theorem parseArrayLoop_fits (hbuf : ∀ token ∈ tokens, token.TextIn buf.length) {tok k : ℕ}
    (h : Fits (sizes tokens) tok k) (res : List Value) :
    ∃ res', parseArrayLoop tokens buf tok k res = .ok res' := by
  match k with
  | 0 => exact ⟨res, by rw [parseArrayLoop]⟩
  | k + 1 =>
    have hlt : tok < tokens.length := length_sizes tokens ▸ h.lt
    obtain ⟨val, hval⟩ := parseValue_fits hbuf (h.mono (Nat.le_add_left 1 k))
    obtain ⟨n, hcount, hn, hfits⟩ := countTokSize_fits h
    obtain ⟨res', hres'⟩ := parseArrayLoop_fits hbuf hfits (res ++ val.toList)
    refine ⟨res', ?_⟩
    rw [parseArrayLoop, hval]
    simp only [hcount, hres']
termination_by (tokens.length - tok, 1, k)
decreasing_by
  · exact Prod.Lex.right _ (Prod.Lex.left _ _ (by omega))
  · exact Prod.Lex.left _ _ (by omega)

end

end Walk

/-! ## `rbjson::parse` -/

/-- The tokens of a buffer: a forest whose texts lie in the buffer. -/
theorem sound_jsmnParse {js : Bytes} {tokens : List Token}
    (h : Jsmn.parse numTokens js = .ok tokens) :
    Forest (sizes tokens) ∧ (∀ token ∈ tokens, token.TextIn js.length) ∧
      (tokens = [] ↔ Blank js) := by
  have hstart : Parser.Sound js.length { pos := 0, tokens := [], toksuper := none } :=
    ⟨nofun, Forest.nil, fun _ htoken => nomatch htoken⟩
  rw [Jsmn.parse] at h
  rcases hloop : parseLoop numTokens js { pos := 0, tokens := [], toksuper := none } with e | q
  · rw [hloop] at h
    cases h
  · rw [hloop] at h
    simp only [bind, Except.bind] at h
    split_ifs at h
    obtain rfl := Except.ok.inj h
    have hq := sound_parseLoop hstart (Nat.zero_add _) hloop
    refine ⟨hq.forest, hq.text_in, fun hnil => ?_, fun hblank => ?_⟩
    · exact not_not.1 fun hblank => parseLoop_tokens_ne_nil hblank hloop hnil
    · obtain ⟨q', hq', htokens⟩ := parseLoop_blank hblank
      obtain rfl := Except.ok.inj (hloop.symm.trans hq')
      exact htokens

/-- The tokens of `parse` are those of some attempt. -/
theorem exists_jsmnParse {buf : Bytes} {tokensSize : ℕ} {tokens : List Token}
    (h : parseTokens buf tokensSize = some tokens) :
    ∃ numTokens, Jsmn.parse numTokens buf = .ok tokens := by
  fun_induction parseTokens buf tokensSize with
  | case1 tokensSize tokens' hparse => exact ⟨tokensSize, Option.some.inj h ▸ hparse⟩
  | case2 => cases h
  | case3 _ _ _ ih => exact ih h
  | case4 => cases h

/-- Without a token, the first one is read all the same. -/
theorem parse_of_blank {buf : Bytes} (h : Blank buf) : parse buf = .error .unwrittenToken := by
  obtain ⟨q, hq, htokens⟩ := @parseLoop_blank 32 { pos := 0, tokens := [], toksuper := none } _ h
  have hparse : Jsmn.parse 32 buf = .ok [] := by
    rw [Jsmn.parse, hq]
    simp only [bind, Except.bind, htokens]
    rfl
  rw [parse, parseTokens, hparse]
  rfl

/-- With a token, the walk stays in range. -/
theorem parse_of_not_blank {buf : Bytes} (h : ¬Blank buf) : ∃ res, parse buf = .ok res := by
  rw [parse]
  cases htokens : parseTokens buf 32 with
  | none => exact ⟨none, rfl⟩
  | some tokens =>
    obtain ⟨numTokens, hparse⟩ := exists_jsmnParse htokens
    obtain ⟨hforest, htexts, hnil⟩ := sound_jsmnParse hparse
    have hne : sizes tokens ≠ [] := mt List.map_eq_nil_iff.1 (mt hnil.1 h)
    obtain ⟨token, hread, -, hchildren⟩ := readToken_of_fits (hforest.fits hne)
    simp only [parseObject, hread, bind, Except.bind]
    split_ifs
    · exact ⟨none, rfl⟩
    · obtain ⟨members, hmembers⟩ := parseObjectLoop_fits htexts hchildren []
      exact ⟨some members, congrArg (Except.bind · fun res => .ok (some res)) hmembers⟩

/-- **What `rbjson::parse` reads**: it stays among the tokens that were written, and in the buffer,
if and only if the buffer has a character other than blanks, colons and commas. -/
theorem parse_inRange_iff (buf : Bytes) : (∃ res, parse buf = .ok res) ↔ ¬ Blank buf := by
  constructor
  · rintro ⟨res, hres⟩ hblank
    rw [parse_of_blank hblank] at hres
    cases hres
  · exact parse_of_not_blank

/-- A single blank: no token is written, and the first one is read. -/
theorem parse_blank_unwritten :
    Jsmn.parse 32 [space] = .ok [] ∧ parse [space] = .error .unwrittenToken :=
  ⟨by decide +kernel, parse_of_blank (by decide +kernel)⟩

end RbProtocol.Json
