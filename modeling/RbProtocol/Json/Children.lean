import RbProtocol.Json.Bounds

/-!
# The direct children of an object

`parse_object` goes through the direct children of an object, and passes over what is no member: a
key of another type, a key without a value, a key with several values. It passes over such a child
without stepping behind it, so that it sees the same child again until the count is used up.

* `subtrees` are the positions of the direct children, `entry` is what one of them gives.
* `parseObject_eq`: the members are those that the children in front of the first malformed one
  give, and the children behind it are never looked at.
* `parseObject_children_iff`: this is what all children give exactly when each key that is set
  behind the malformed child ends up with the value that it has in front of it.
-/

namespace RbProtocol.Json

open Ascii Library Jsmn Object

/-! ## The text that is tokenized -/

variable {numTokens : ℕ}

theorem cstr_cons {c : UInt8} (hc : c ≠ 0) (rest : Bytes) : cstr (c :: rest) = c :: cstr rest :=
  List.takeWhile_cons_of_pos (by simpa using hc)

theorem stringLength_cstr {scan : Scan} {js : Bytes} {len : ℕ}
    (h : stringLength scan js = .ok len) : stringLength scan (cstr js) = .ok len := by
  induction js generalizing scan len with
  | nil => cases h
  | cons c rest ih =>
    rw [stringLength] at h
    have hc : c ≠ 0 := by
      rintro rfl
      cases scan <;> cases h
    rw [cstr_cons hc, stringLength]
    cases hnext : scan.next c with
    | error e =>
      rw [hnext] at h
      cases h
    | ok scan' =>
      rw [hnext] at h
      cases scan' with
      | none => exact h
      | some scan' =>
        simp only at h ⊢
        cases hrest : stringLength scan' rest with
        | error e =>
          rw [hrest] at h
          cases h
        | ok n =>
          rw [hrest] at h
          rw [ih hrest]
          exact h

theorem primitiveLength_cstr (js : Bytes) : primitiveLength (cstr js) = primitiveLength js := by
  induction js with
  | nil => rfl
  | cons c rest ih =>
    by_cases hc : c = 0
    · subst hc
      rfl
    · rw [cstr_cons hc, primitiveLength, ih, primitiveLength]

theorem drop_cstr {js : Bytes} {n : ℕ} (h : n ≤ (cstr js).length) :
    cstr (js.drop n) = (cstr js).drop n := by
  induction n generalizing js with
  | zero => rfl
  | succ n ih =>
    cases js with
    | nil => cases h
    | cons c rest =>
      by_cases hc : c = 0
      · subst hc
        cases h
      · rw [cstr_cons hc] at h ⊢
        exact ih (Nat.le_of_succ_le_succ h)

/-- A character that is accepted, with how many more are consumed with it, when the text ends at the
terminator. -/
theorem step_cstr {c : UInt8} {rest : Bytes} {p q : Parser} {n : ℕ} (hc : c ≠ 0)
    (h : step numTokens c rest p = .ok (q, n)) : step numTokens c (cstr rest) p = .ok (q, n) := by
  rw [step] at h ⊢
  rw [← cstr_cons hc, primitiveLength_cstr]
  cases hlen : stringLength .plain rest with
  | ok len =>
    rw [stringLength_cstr hlen]
    rwa [hlen] at h
  | error e =>
    have hquote : c ≠ quote := by
      rintro rfl
      rw [hlen] at h
      cases h
    rw [if_neg hquote] at h ⊢
    exact h

theorem parseLoop_cstr {js : Bytes} {p q : Parser} {size : ℕ} (hp : p.Sound size)
    (hpos : p.pos + (cstr js).length = size) (h : parseLoop numTokens js p = .ok q) :
    parseLoop numTokens (cstr js) p = .ok q := by
  fun_induction parseLoop numTokens js p with
  | case1 p =>
    rw [← h]
    exact parseLoop.eq_1 ..
  | case2 p rest =>
    rw [← h]
    exact parseLoop.eq_1 ..
  | case3 => cases h
  | case4 p c rest hc p' n hstep ih =>
    have hstep' := step_cstr hc hstep
    rw [cstr_cons hc, List.length_cons] at hpos
    obtain ⟨hp', hn⟩ := sound_step hp (by omega) hstep'
    rw [cstr_cons hc, parseLoop, if_neg hc]
    simp only [hstep']
    rw [← drop_cstr hn]
    refine ih ⟨hp'.super_lt, hp'.forest, hp'.text_in⟩ ?_ h
    rw [drop_cstr hn, List.length_drop]
    simp only
    omega

/-- `jsmn_parse` reads up to the terminator. -/
theorem parse_cstr {js : Bytes} {tokens : List Token} (h : Jsmn.parse numTokens js = .ok tokens) :
    Jsmn.parse numTokens (cstr js) = .ok tokens := by
  have hstart : Parser.Sound (cstr js).length { pos := 0, tokens := [], toksuper := none } :=
    ⟨by simp, Forest.nil, by simp⟩
  rw [Jsmn.parse] at h ⊢
  rcases hloop : parseLoop numTokens js { pos := 0, tokens := [], toksuper := none } with e | q
  · rw [hloop] at h
    cases h
  · rw [parseLoop_cstr hstart (Nat.zero_add _) hloop]
    rwa [hloop] at h

/-- No text of a token has a NUL. -/
theorem nul_not_mem_tokenText {js text : Bytes} {tokens : List Token} {token : Token}
    (h : Jsmn.parse numTokens js = .ok tokens) (hmem : token ∈ tokens)
    (htype : token.type = .string) (htext : tokenText js token = .ok text) : 0 ∉ text := by
  obtain ⟨-, hin, -⟩ := sound_jsmnParse (parse_cstr h)
  obtain ⟨hstart, hle, hstop⟩ := hin token hmem (by rw [Token.isContainer, htype]; rfl)
  rw [tokenText] at htext
  split_ifs at htext
  obtain rfl := Except.ok.inj htext
  intro hnul
  obtain ⟨j, hj, hget⟩ := List.mem_iff_getElem.1 hnul
  rw [List.length_take, List.length_drop] at hj
  rw [List.getElem_take, List.getElem_drop] at hget
  have hlt : token.start.toNat + j < (cstr js).length := by omega
  have hmem : (cstr js)[token.start.toNat + j] ∈ cstr js := List.getElem_mem hlt
  have heq : (cstr js)[token.start.toNat + j] = 0 := by
    rw [← hget]
    exact (List.takeWhile_prefix _).getElem hlt
  rw [heq] at hmem
  exact absurd (List.mem_takeWhile_imp hmem) (by simp)

/-! ## The members of a list of entries -/

/-- The members after `res->set` of each entry in turn. -/
def membersOf (entries : List (Bytes × Value)) : List (Member Value) :=
  entries.foldl (fun res entry => Object.set res entry.1 entry.2) []

/-- The value of the last entry whose key is stored under a name. -/
def lastValue (entries : List (Bytes × Value)) (name : Bytes) : Option Value :=
  (entries.reverse.find? fun entry => storedName entry.1 = name).map Prod.snd

theorem lastValue_append (before behind : List (Bytes × Value)) (name : Bytes) :
    lastValue (before ++ behind) name = (lastValue behind name).or (lastValue before name) := by
  rw [lastValue, List.reverse_append, List.find?_append, Option.map_or]
  rfl

theorem membersOf_spec {entries : List (Bytes × Value)} (h : ∀ entry ∈ entries, 0 ∉ entry.1) :
    WellFormed (membersOf entries) ∧ fieldMap (membersOf entries) = lastValue entries := by
  induction entries using List.reverseRecOn with
  | nil => exact ⟨wellFormed_nil, rfl⟩
  | append_singleton entries entry ih =>
    obtain ⟨hwf, hmap⟩ := ih fun e he => h e (List.mem_append_left _ he)
    have hkey := h entry (List.mem_append_right _ (List.mem_singleton_self _))
    obtain ⟨hwf', hmap'⟩ := apply_spec (.set entry.1 entry.2) hwf hkey
    have hset : membersOf (entries ++ [entry]) =
        (Op.set entry.1 entry.2).apply (membersOf entries) := by
      rw [membersOf, List.foldl_append]
      rfl
    rw [hset]
    refine ⟨hwf', hmap'.trans ?_⟩
    funext name
    rw [lastValue_append, ← hmap, Op.applyMap, lastValue]
    by_cases hname : storedName entry.1 = name
    · subst hname
      rw [Function.update_self]
      simp
    · rw [Function.update_of_ne (Ne.symm hname)]
      simp [hname]

/-- Entries set behind others change nothing exactly when each of their keys ends up with the value
that it has already. -/
theorem membersOf_append_eq_iff {before behind : List (Bytes × Value)}
    (hbefore : ∀ entry ∈ before, 0 ∉ entry.1) (hbehind : ∀ entry ∈ behind, 0 ∉ entry.1) :
    membersOf before = membersOf (before ++ behind) ↔
      ∀ name value, lastValue behind name = some value → lastValue before name = some value := by
  have hall : ∀ entry ∈ before ++ behind, 0 ∉ entry.1 := by
    intro entry hentry
    exact (List.mem_append.1 hentry).elim (hbefore entry) (hbehind entry)
  obtain ⟨hwf, hmap⟩ := membersOf_spec hbefore
  obtain ⟨hwf', hmap'⟩ := membersOf_spec hall
  constructor
  · intro heq name value hvalue
    rw [← hmap, heq, hmap', lastValue_append, hvalue]
    rfl
  · intro h
    refine hwf.ext hwf' ?_
    rw [hmap, hmap']
    funext name
    rw [lastValue_append]
    cases hvalue : lastValue behind name with
    | none => rfl
    | some value => exact h name value hvalue

/-! ## The children -/

section Children

variable (tokens : List Token) (buf : Bytes)

/-- The number of tokens of the subtree at a position. -/
def subtreeSize (tok : ℕ) : ℕ :=
  match countTokSize tokens tok with
  | .ok n => n
  | .error _ => 0

/-- The positions of the `k` subtrees from `tok` on. -/
def subtrees (tok : ℕ) : ℕ → List ℕ
  | 0 => []
  | k + 1 => tok :: subtrees (tok + subtreeSize tokens tok) k

/-- The child at a position is a key with one value. -/
def isMember (tok : ℕ) : Bool :=
  tokens[tok]?.any fun key => key.type = .string && key.size = 1

/-- What the child at a position gives: its key and its value, when it is a member whose value is
not the null pointer. -/
def entry (tok : ℕ) : Option (Bytes × Value) :=
  if isMember tokens tok then
    match tokens[tok]?.map (tokenText buf), parseValue tokens buf (tok + 1) with
    | some (.ok key), .ok (some value) => some (key, value)
    | _, _ => none
  else none

variable {tokens buf}

theorem readToken_eq_ok_iff {tok : ℕ} {key : Token} :
    readToken tokens tok = .ok key ↔ tokens[tok]? = some key := by
  rw [readToken]
  cases tokens[tok]? <;> simp

theorem isMember_eq {tok : ℕ} {key : Token} (h : readToken tokens tok = .ok key) :
    isMember tokens tok = (decide (key.type = .string) && decide (key.size = 1)) := by
  rw [isMember, readToken_eq_ok_iff.1 h]
  rfl

theorem parseObjectLoop_stuck {tok : ℕ} (k : ℕ) {res : List (Member Value)} {key : Token}
    (h : readToken tokens tok = .ok key) (hskip : isMember tokens tok = false) :
    parseObjectLoop tokens buf tok k res = .ok res := by
  rw [isMember_eq h, Bool.and_eq_false_iff, decide_eq_false_iff_not, decide_eq_false_iff_not]
    at hskip
  induction k with
  | zero => rw [parseObjectLoop]
  | succ k ih => rw [parseObjectLoop_skip h hskip, ih]

/-- The loop sets the entries of the children in front of the first one that is no member. -/
theorem parseObjectLoop_eq (hbuf : ∀ token ∈ tokens, token.TextIn buf.length) {tok k : ℕ}
    (h : Fits (sizes tokens) tok k) (res : List (Member Value)) :
    parseObjectLoop tokens buf tok k res =
      .ok ((((subtrees tokens tok k).takeWhile (isMember tokens)).filterMap
        (entry tokens buf)).foldl (fun res entry => Object.set res entry.1 entry.2) res) := by
  induction k generalizing tok res with
  | zero =>
    rw [parseObjectLoop]
    rfl
  | succ k ih =>
    obtain ⟨key, hread, hmem, hchildren⟩ := readToken_of_fits h
    rw [subtrees]
    cases hmember : isMember tokens tok with
    | false =>
      rw [List.takeWhile_cons_of_neg (by simp [hmember]), parseObjectLoop_stuck _ hread hmember]
      rfl
    | true =>
      have hkey := hmember
      rw [isMember_eq hread, Bool.and_eq_true, decide_eq_true_eq, decide_eq_true_eq] at hkey
      rw [hkey.2] at hchildren
      obtain ⟨val, hval⟩ := parseValue_fits hbuf (hchildren.mono (Nat.le_add_right 1 k))
      obtain ⟨n, hcount, -, hfits⟩ := countTokSize_fits h
      obtain ⟨text, htext⟩ := tokenText_of_textIn (hbuf key hmem)
        (by rw [Token.isContainer, hkey.1]; rfl)
      have hentry : entry tokens buf tok = val.map fun val => (text, val) := by
        rw [entry, if_pos hmember, readToken_eq_ok_iff.1 hread, Option.map_some, htext, hval]
        cases val <;> rfl
      have hset : setMember buf key val res =
          .ok ((entry tokens buf tok).toList.foldl
            (fun res entry => Object.set res entry.1 entry.2) res) := by
        rw [hentry]
        cases val with
        | none => rfl
        | some val => rw [setMember, htext]; rfl
      rw [parseObjectLoop_key hread hkey hval hset hcount, ih hfits,
        List.takeWhile_cons_of_pos hmember, ← List.foldl_append, List.filterMap_cons]
      rw [subtreeSize, hcount]
      cases entry tokens buf tok <;> rfl

/-- The keys of the entries have no NUL. -/
theorem nul_not_mem_entry (h : Jsmn.parse numTokens buf = .ok tokens) {positions : List ℕ}
    {e : Bytes × Value} (he : e ∈ positions.filterMap (entry tokens buf)) : 0 ∉ e.1 := by
  obtain ⟨tok, -, hentry⟩ := List.mem_filterMap.1 he
  rw [entry] at hentry
  split_ifs at hentry with hmember
  split at hentry
  · rename_i key value htext hvalue
    obtain ⟨token, htoken, htext⟩ := Option.map_eq_some_iff.1 htext
    rw [isMember, htoken, Option.any_some, Bool.and_eq_true, decide_eq_true_eq] at hmember
    obtain rfl := Option.some.inj hentry
    exact nul_not_mem_tokenText h (List.mem_of_getElem? htoken) hmember.1 htext
  · cases hentry

/-- The direct children of the object at a position. -/
def directChildren (tokens : List Token) (i : ℕ) : List ℕ :=
  subtrees tokens (i + 1) ((tokens[i]?.map Token.size).getD 0)

/-- The members are the entries of the children in front of the first one that is no member. -/
theorem parseObject_eq (h : Jsmn.parse numTokens buf = .ok tokens) {i : ℕ} {obj : Token}
    (hobj : tokens[i]? = some obj) (htype : obj.type = .object) :
    parseObject tokens buf i = .ok (some (membersOf
      (((directChildren tokens i).takeWhile (isMember tokens)).filterMap (entry tokens buf)))) := by
  obtain ⟨hforest, hbuf, -⟩ := sound_jsmnParse h
  have hlt := (List.getElem?_eq_some_iff.1 hobj).1
  have hfits : Fits (sizes tokens) i 1 := by
    have := hforest i (by rwa [length_sizes])
    rw [Fits]
    omega
  obtain ⟨token, hread, -, hchildren⟩ := readToken_of_fits hfits
  obtain rfl : obj = token := Option.some.inj (hobj.symm.trans (readToken_eq_ok_iff.1 hread))
  rw [parseObject, hread]
  simp only [bind, Except.bind, htype, ne_eq, not_true_eq_false, if_false]
  rw [Nat.add_zero obj.size] at hchildren
  rw [parseObjectLoop_eq hbuf hchildren, directChildren, hobj]
  rfl

/-- **`parse_object` skips only what is malformed** exactly when every key that a direct child
behind the first malformed one sets ends up there with the value that it has in front of it. -/
theorem parseObject_children_iff (h : Jsmn.parse numTokens buf = .ok tokens) {i : ℕ} {obj : Token}
    (hobj : tokens[i]? = some obj) (htype : obj.type = .object) :
    let children := directChildren tokens i
    let before := (children.takeWhile (isMember tokens)).filterMap (entry tokens buf)
    let behind := (children.dropWhile (isMember tokens)).filterMap (entry tokens buf)
    parseObject tokens buf i =
        .ok (some (membersOf (children.filterMap (entry tokens buf)))) ↔
      ∀ name value, lastValue behind name = some value → lastValue before name = some value := by
  intro children before behind
  have hall : children.filterMap (entry tokens buf) = before ++ behind := by
    rw [← List.filterMap_append, List.takeWhile_append_dropWhile]
  rw [parseObject_eq h hobj htype, Except.ok.injEq, Option.some.injEq, hall]
  exact membersOf_append_eq_iff (fun _ => nul_not_mem_entry h) (fun _ => nul_not_mem_entry h)

end Children

theorem countTokSize_leaf {tokens : List Token} {i : ℕ} {token : Token}
    (h : tokens[i]? = some token)
    (hsize : token.size = 0) : countTokSize tokens i = .ok 1 := by
  rw [countTokSize_of_read (readToken_eq_ok_iff.2 h), hsize, countTokSizeLoop, Except.map,
    Nat.add_sub_cancel_left]

/-- A child with one child of its own that has none. -/
theorem subtreeSize_pair {tokens : List Token} {i : ℕ} {key value : Token}
    (hkey : tokens[i]? = some key) (hone : key.size = 1) (hvalue : tokens[i + 1]? = some value)
    (hnone : value.size = 0) : subtreeSize tokens i = 2 := by
  rw [subtreeSize, countTokSize_of_read (readToken_eq_ok_iff.2 hkey), hone, countTokSizeLoop,
    countTokSize_leaf hvalue hnone]
  simp only [countTokSizeLoop, Except.map]
  omega

/-- The tokens of `{1:2,"a":"b"}`. -/
def malformedFirst : List Token :=
  [⟨.object, 0, 13, 2⟩, ⟨.primitive, 1, 2, 1⟩, ⟨.primitive, 3, 4, 0⟩, ⟨.string, 6, 7, 1⟩,
    ⟨.string, 10, 11, 0⟩]

theorem directChildren_malformedFirst : directChildren malformedFirst 0 = [1, 3] := by
  rw [directChildren, show (malformedFirst[0]?.map Token.size).getD 0 = 2 from rfl, subtrees,
    subtreeSize_pair (i := 1) rfl rfl rfl rfl, subtrees]
  rfl

/-- A member behind a malformed child is lost. -/
theorem parseObject_loses_member :
    Jsmn.parse 32 (literal "\x7b1:2,\"a\":\"b\"\x7d") = .ok malformedFirst ∧
    parseObject malformedFirst (literal "\x7b1:2,\"a\":\"b\"\x7d") 0 = .ok (some []) ∧
    membersOf ((directChildren malformedFirst 0).filterMap
      (entry malformedFirst (literal "\x7b1:2,\"a\":\"b\"\x7d"))) = [⟨[97], .string [98]⟩] := by
  have hparse : Jsmn.parse 32 (literal "\x7b1:2,\"a\":\"b\"\x7d") = .ok malformedFirst := by
    decide +kernel
  refine ⟨hparse, ?_, ?_⟩
  · rw [parseObject_eq hparse rfl rfl, directChildren_malformedFirst]
    rfl
  · have hvalue : parseValue malformedFirst (literal "\x7b1:2,\"a\":\"b\"\x7d") 4 =
        .ok (some (.string [98])) := by
      have hread : readToken malformedFirst 4 = .ok ⟨.string, 10, 11, 0⟩ := rfl
      rw [parseValue_of_read hread]
      rfl
    have hfirst : entry malformedFirst (literal "\x7b1:2,\"a\":\"b\"\x7d") 1 = none := rfl
    have hsecond : entry malformedFirst (literal "\x7b1:2,\"a\":\"b\"\x7d") 3 =
        some ([97], .string [98]) := by
      rw [entry, if_pos (show isMember malformedFirst 3 = true from rfl), hvalue]
      rfl
    rw [directChildren_malformedFirst]
    simp only [List.filterMap_cons, List.filterMap_nil, hfirst, hsecond]
    have hwf : WellFormed ([] ++ [⟨[97], .string [98]⟩] : List (Member Value)) :=
      ⟨List.pairwise_singleton _ _, by simp, by simp [keyLimit]⟩
    exact set_append hwf

/-- The tokens of `{"a":"b",1:2}`. -/
def malformedLast : List Token :=
  [⟨.object, 0, 13, 2⟩, ⟨.string, 2, 3, 1⟩, ⟨.string, 6, 7, 0⟩, ⟨.primitive, 9, 10, 1⟩,
    ⟨.primitive, 11, 12, 0⟩]

theorem parseObject_children_malformedLast :
    parseObject malformedLast (literal "\x7b\"a\":\"b\",1:2\x7d") 0 =
      .ok (some (membersOf ((directChildren malformedLast 0).filterMap
        (entry malformedLast (literal "\x7b\"a\":\"b\",1:2\x7d"))))) := by
  have hparse : Jsmn.parse 32 (literal "\x7b\"a\":\"b\",1:2\x7d") = .ok malformedLast := by
    decide +kernel
  refine (parseObject_children_iff hparse rfl rfl).2 ?_
  have hchildren : directChildren malformedLast 0 = [1, 3] := by
    rw [directChildren, show (malformedLast[0]?.map Token.size).getD 0 = 2 from rfl, subtrees,
      subtreeSize_pair (i := 1) rfl rfl rfl rfl, subtrees]
    rfl
  intro name value hvalue
  rw [hchildren] at hvalue
  cases hvalue

end RbProtocol.Json
