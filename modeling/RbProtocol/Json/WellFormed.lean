import RbProtocol.Json.Children
import RbProtocol.Json.Strings

/-!
# What the parser builds

An object that `rbjson::parse` returns could have been made with the operations of `Object`: at any
depth the names of the members are sorted, distinct, of at most 254 bytes and without NUL, and no
string has a NUL. It has no more values and keys than there were tokens, so its own text is parsed
again (`parse_wellFormed`). Both are kept along the walk over the tokens: what a subtree gives
needs at most as many tokens as `count_tok_size` counts for it (`parseValue_within`).
-/

namespace RbProtocol.Json

open Library Jsmn

/-! ## Well-formed values -/

/-- At any depth the objects are well formed, and the strings have no NUL. -/
inductive Value.WellFormed : Value → Prop
  | object {members} (hwf : Object.WellFormed members)
      (hvalues : ∀ member ∈ members, member.value.WellFormed) : WellFormed (.object members)
  | array {items} (hitems : ∀ item ∈ items, item.WellFormed) : WellFormed (.array items)
  | string {value} (hvalue : 0 ∉ value) : WellFormed (.string value)
  | number (value) : WellFormed (.number value)
  | bool (value) : WellFormed (.bool value)
  | nil : WellFormed .nil

/-- A well-formed value of at most `n` tokens. -/
structure Value.Within (n : ℕ) (v : Value) : Prop where
  wellFormed : v.WellFormed
  tokenCount_le : v.tokenCount ≤ n

/-- The members of a well-formed object, of at most `n` tokens. -/
structure MembersWithin (n : ℕ) (members : List (Member Value)) : Prop where
  wellFormed : Object.WellFormed members
  values : ∀ member ∈ members, member.value.WellFormed
  memberTokens_le : memberTokens members ≤ n

/-- Well-formed items, of at most `n` tokens. -/
structure ItemsWithin (n : ℕ) (items : List Value) : Prop where
  values : ∀ item ∈ items, item.WellFormed
  itemTokens_le : itemTokens items ≤ n

theorem memberTokens_append (l₁ l₂ : List (Member Value)) :
    memberTokens (l₁ ++ l₂) = memberTokens l₁ + memberTokens l₂ := by
  induction l₁ with
  | nil => rw [List.nil_append, memberTokens, Nat.zero_add]
  | cons member l₁ ih => rw [List.cons_append, memberTokens, memberTokens, ih, Nat.add_assoc]

theorem itemTokens_append (l₁ l₂ : List Value) :
    itemTokens (l₁ ++ l₂) = itemTokens l₁ + itemTokens l₂ := by
  induction l₁ with
  | nil => rw [List.nil_append, itemTokens, Nat.zero_add]
  | cons item l₁ ih => rw [List.cons_append, itemTokens, itemTokens, ih, Nat.add_assoc]

section Within

variable {n m k : ℕ} {members : List (Member Value)} {items : List Value} {value : Value}
  {key : Bytes}

theorem MembersWithin.mono (h : MembersWithin n members) (hle : n ≤ m) : MembersWithin m members :=
  ⟨h.wellFormed, h.values, h.memberTokens_le.trans hle⟩

theorem ItemsWithin.mono (h : ItemsWithin n items) (hle : n ≤ m) : ItemsWithin m items :=
  ⟨h.values, h.itemTokens_le.trans hle⟩

theorem membersWithin_nil : MembersWithin 0 [] :=
  ⟨Object.wellFormed_nil, fun _ h => absurd h List.not_mem_nil, by rw [memberTokens]⟩

theorem itemsWithin_nil : ItemsWithin 0 [] :=
  ⟨fun _ h => absurd h List.not_mem_nil, by rw [itemTokens]⟩

theorem MembersWithin.object (h : MembersWithin n members) :
    (Value.object members).Within (n + 1) where
  wellFormed := .object h.wellFormed h.values
  tokenCount_le := by
    rw [Value.tokenCount]
    exact Nat.succ_le_succ h.memberTokens_le

theorem ItemsWithin.array (h : ItemsWithin n items) : (Value.array items).Within (n + 1) where
  wellFormed := .array h.values
  tokenCount_le := by
    rw [Value.tokenCount]
    exact Nat.succ_le_succ h.itemTokens_le

/-- `Object::set` adds at most the tokens of a key and of the value. -/
theorem MembersWithin.set (h : MembersWithin n members) (hkey : 0 ∉ key) (hvalue : value.Within k) :
    MembersWithin (n + (k + 1)) (Object.set members key value) := by
  have hwf : Object.WellFormed (Object.set members key value) :=
    (Object.apply_spec (.set key value) h.wellFormed hkey).1
  obtain ⟨l₁, mid, l₂, rfl, hs⟩ := h.wellFormed.exists_splitAt key
  have hset := Object.set_split hs h.wellFormed.nulFree hkey value
  refine ⟨hwf, ?_, ?_⟩
  · intro member hmember
    rw [hset] at hmember
    simp only [Option.toList_some, List.mem_append, List.mem_singleton] at hmember
    rcases hmember with hmember | rfl | hmember
    · exact h.values member (by simp [hmember])
    · exact hvalue.wellFormed
    · exact h.values member (by simp [hmember])
  · have hle := h.memberTokens_le
    have hv := hvalue.tokenCount_le
    rw [hset]
    simp only [memberTokens_append, Option.toList_some, memberTokens, Member.tokenCount] at hle ⊢
    omega

/-- `push_back` adds the tokens of the item. -/
theorem ItemsWithin.pushBack (h : ItemsWithin n items) (hvalue : value.Within k) :
    ItemsWithin (n + k) (items ++ [value]) where
  values item hitem := by
    rcases List.mem_append.1 hitem with hitem | hitem
    · exact h.values item hitem
    · obtain rfl := List.mem_singleton.1 hitem
      exact hvalue.wellFormed
  itemTokens_le := by
    have hle := h.itemTokens_le
    have hv := hvalue.tokenCount_le
    simp only [itemTokens_append, itemTokens]
    omega

end Within

/-! ## The count of the tokens -/

section Walk

variable {tokens : List Token} {buf : Bytes}

/-- `count_tok_size` reads the token it counts from. -/
theorem countTokSize_inv {i n : ℕ} (h : countTokSize tokens i = .ok n) :
    ∃ token r, readToken tokens i = .ok token ∧
      countTokSizeLoop tokens (i + 1) token.size = .ok r ∧ n = r - i := by
  cases hread : readToken tokens i with
  | error fault =>
    rw [countTokSize] at h
    split at h
    · cases h
    · rename_i token hok
      rw [hread] at hok
      cases hok
  | ok token =>
    rw [countTokSize_of_read hread] at h
    cases hloop : countTokSizeLoop tokens (i + 1) token.size with
    | error fault =>
      rw [hloop] at h
      cases h
    | ok r =>
      rw [hloop] at h
      exact ⟨token, r, rfl, hloop, (Except.ok.inj h).symm⟩

/-- A round of the loop of `count_tok_size`. -/
theorem countTokSizeLoop_inv {itr k r : ℕ} (h : countTokSizeLoop tokens itr (k + 1) = .ok r) :
    ∃ n, countTokSize tokens itr = .ok n ∧ countTokSizeLoop tokens (itr + n) k = .ok r := by
  rw [countTokSizeLoop] at h
  cases hcount : countTokSize tokens itr with
  | error fault =>
    rw [hcount] at h
    cases h
  | ok n =>
    rw [hcount] at h
    exact ⟨n, rfl, h⟩

theorem le_of_countTokSizeLoop {itr k r : ℕ} (h : countTokSizeLoop tokens itr k = .ok r) :
    itr ≤ r := by
  induction k generalizing itr with
  | zero =>
    rw [countTokSizeLoop] at h
    exact (Except.ok.inj h).le
  | succ k ih =>
    obtain ⟨n, -, hloop⟩ := countTokSizeLoop_inv h
    exact (Nat.le_add_right itr n).trans (ih hloop)

/-- A subtree has a token. -/
theorem pos_of_countTokSize {i n : ℕ} (h : countTokSize tokens i = .ok n) : 0 < n := by
  obtain ⟨token, r, -, hloop, rfl⟩ := countTokSize_inv h
  have hle := le_of_countTokSizeLoop hloop
  omega

/-- One subtree less ends no later. -/
theorem countTokSizeLoop_init {itr k r : ℕ} (h : countTokSizeLoop tokens itr (k + 1) = .ok r) :
    ∃ s, countTokSizeLoop tokens itr k = .ok s ∧ s ≤ r := by
  induction k generalizing itr with
  | zero => exact ⟨itr, by rw [countTokSizeLoop], le_of_countTokSizeLoop h⟩
  | succ k ih =>
    obtain ⟨n, hcount, hloop⟩ := countTokSizeLoop_inv h
    obtain ⟨s, hs, hle⟩ := ih hloop
    refine ⟨s, ?_, hle⟩
    rw [countTokSizeLoop, hcount]
    exact hs

/-- The subtree of a key with one child is the key and the subtree of the child. -/
theorem countTokSize_key {i n : ℕ} {key : Token} (hread : readToken tokens i = .ok key)
    (hsize : key.size = 1) (h : countTokSize tokens i = .ok n) :
    ∃ m, countTokSize tokens (i + 1) = .ok m ∧ n = m + 1 := by
  obtain ⟨key', r, hread', hloop, rfl⟩ := countTokSize_inv h
  obtain rfl := Except.ok.inj (hread.symm.trans hread')
  rw [hsize] at hloop
  obtain ⟨m, hcount, hend⟩ := countTokSizeLoop_inv hloop
  rw [countTokSizeLoop] at hend
  obtain rfl := Except.ok.inj hend
  exact ⟨m, hcount, by omega⟩

/-! ## The walk -/

/-- No text of a string has a NUL. -/
def NulFreeTexts (tokens : List Token) (buf : Bytes) : Prop :=
  ∀ token ∈ tokens, token.type = .string → ∀ text, tokenText buf token = .ok text → 0 ∉ text

theorem mem_of_readToken {i : ℕ} {token : Token} (h : readToken tokens i = .ok token) :
    token ∈ tokens :=
  List.mem_of_getElem? (readToken_eq_ok_iff.1 h)

/-- A member that is set. -/
theorem MembersWithin.setMember {key : Token} {val : Option Value} {m k : ℕ}
    {res res' : List (Member Value)} (htexts : NulFreeTexts tokens buf) (hmem : key ∈ tokens)
    (htype : key.type = .string) (hres : MembersWithin m res) (hval : ∀ v ∈ val, v.Within k)
    (h : setMember buf key val res = .ok res') : MembersWithin (m + (k + 1)) res' := by
  cases val with
  | none =>
    obtain rfl := Except.ok.inj h
    exact hres.mono (Nat.le_add_right ..)
  | some v =>
    rw [Json.setMember] at h
    cases htext : tokenText buf key with
    | error fault =>
      rw [htext] at h
      cases h
    | ok text =>
      rw [htext] at h
      obtain rfl := Except.ok.inj h
      exact hres.set (htexts key hmem htype text htext) (hval v rfl)

/-- The round of `parse_object` at a key with one child. -/
theorem parseObjectLoop_key_inv {tok k n : ℕ} {key : Token} {res res' : List (Member Value)}
    (hread : readToken tokens tok = .ok key) (hkey : key.type = .string ∧ key.size = 1)
    (hcount : countTokSize tokens tok = .ok n)
    (h : parseObjectLoop tokens buf tok (k + 1) res = .ok res') :
    ∃ val res₁, parseValue tokens buf (tok + 1) = .ok val ∧ setMember buf key val res = .ok res₁ ∧
      parseObjectLoop tokens buf (tok + n) k res₁ = .ok res' := by
  rw [parseObjectLoop] at h
  split at h
  · cases h
  · rename_i key' hok
    rw [hread] at hok
    obtain rfl := Except.ok.inj hok
    rw [if_neg (by simp [hkey])] at h
    cases hval : parseValue tokens buf (tok + 1) with
    | error fault =>
      rw [hval] at h
      cases h
    | ok val =>
      simp only [hval, hcount] at h
      cases hset : setMember buf key val res with
      | error fault =>
        rw [hset] at h
        cases h
      | ok res₁ =>
        rw [hset] at h
        exact ⟨val, res₁, rfl, hset, h⟩

/-- A round of `parse_array`. -/
theorem parseArrayLoop_inv {tok k n : ℕ} {res res' : List Value}
    (hcount : countTokSize tokens tok = .ok n)
    (h : parseArrayLoop tokens buf tok (k + 1) res = .ok res') :
    ∃ val, parseValue tokens buf tok = .ok val ∧
      parseArrayLoop tokens buf (tok + n) k (res ++ val.toList) = .ok res' := by
  rw [parseArrayLoop] at h
  cases hval : parseValue tokens buf tok with
  | error fault =>
    rw [hval] at h
    cases h
  | ok val =>
    rw [hval, hcount] at h
    exact ⟨val, rfl, h⟩

/-- A text that is not a string gives one token. -/
theorem within_parsePrimitive {text : Bytes} {v : Value} (h : parsePrimitive text = some v) :
    v.Within 1 := by
  cases text with
  | nil => cases h
  | cons c text =>
    rw [parsePrimitive] at h
    split_ifs at h
    · obtain rfl := Option.some.inj h
      exact ⟨.bool true, le_rfl⟩
    · obtain rfl := Option.some.inj h
      exact ⟨.bool false, le_rfl⟩
    · obtain rfl := Option.some.inj h
      exact ⟨.nil, le_rfl⟩
    · obtain ⟨number, -, rfl⟩ := Option.map_eq_some_iff.1 h
      exact ⟨.number _, le_rfl⟩

mutual

/-- **A value is well formed**, and needs at most the tokens that are counted for its subtree. -/
theorem parseValue_within (htexts : NulFreeTexts tokens buf) {i n : ℕ} {v : Value}
    (hcount : countTokSize tokens i = .ok n) (h : parseValue tokens buf i = .ok (some v)) :
    v.Within n := by
  obtain ⟨token, r, hread, hloop, rfl⟩ := countTokSize_inv hcount
  have hlt := readToken_lt hread
  have hle := le_of_countTokSizeLoop hloop
  have hback : r - (i + 1) + 1 = r - i := by omega
  rw [parseValue_of_read hread] at h
  cases htype : token.type with
  | object =>
    rw [htype] at h
    obtain ⟨members, hmembers, hv⟩ := exists_of_map_ok h
    obtain rfl := Option.some.inj hv
    have hwithin := parseObjectLoop_within htexts hloop membersWithin_nil hmembers
    rw [Nat.zero_add] at hwithin
    exact hback ▸ hwithin.object
  | array =>
    rw [htype] at h
    obtain ⟨items, hitems, hv⟩ := exists_of_map_ok h
    obtain rfl := Option.some.inj hv
    have hwithin := parseArrayLoop_within htexts hloop itemsWithin_nil hitems
    rw [Nat.zero_add] at hwithin
    exact hback ▸ hwithin.array
  | string =>
    rw [htype] at h
    obtain ⟨text, htext, hv⟩ := exists_of_map_ok h
    obtain rfl := Option.some.inj hv
    have hone : (Value.string text).tokenCount = 1 := rfl
    exact ⟨.string (htexts token (mem_of_readToken hread) htype text htext), by omega⟩
  | primitive =>
    rw [htype] at h
    obtain ⟨text, -, hv⟩ := exists_of_map_ok h
    have hone := within_parsePrimitive hv
    exact ⟨hone.wellFormed, hone.tokenCount_le.trans (by omega)⟩
termination_by (tokens.length - i, 0, 0)
decreasing_by all_goals exact Prod.Lex.left _ _ (by omega)

theorem parseObjectLoop_within (htexts : NulFreeTexts tokens buf) {tok k r m : ℕ}
    {res res' : List (Member Value)} (hcount : countTokSizeLoop tokens tok k = .ok r)
    (hres : MembersWithin m res) (h : parseObjectLoop tokens buf tok k res = .ok res') :
    MembersWithin (m + (r - tok)) res' := by
  match k with
  | 0 =>
    rw [parseObjectLoop] at h
    obtain rfl := Except.ok.inj h
    exact hres.mono (Nat.le_add_right ..)
  | k + 1 =>
    obtain ⟨n, hn, hrest⟩ := countTokSizeLoop_inv hcount
    obtain ⟨key, -, hread, -, -⟩ := countTokSize_inv hn
    have hlt := readToken_lt hread
    by_cases hskip : key.type ≠ .string ∨ key.size ≠ 1
    · -- the walk stays where it is
      rw [parseObjectLoop_skip hread hskip] at h
      obtain ⟨s, hs, hle⟩ := countTokSizeLoop_init hcount
      exact (parseObjectLoop_within htexts hs hres h).mono (by omega)
    · rw [not_or, not_not, not_not] at hskip
      obtain ⟨val, res₁, hval, hset, hloop⟩ := parseObjectLoop_key_inv hread hskip hn h
      obtain ⟨j, hj, rfl⟩ := countTokSize_key hread hskip.2 hn
      have hvalue : ∀ v ∈ val, v.Within j := by
        rintro v rfl
        exact parseValue_within htexts hj hval
      have hres₁ := hres.setMember htexts (mem_of_readToken hread) hskip.1 hvalue hset
      have hle := le_of_countTokSizeLoop hrest
      exact (parseObjectLoop_within htexts hrest hres₁ hloop).mono (by omega)
termination_by (tokens.length - tok, 1, k)
decreasing_by
  · exact Prod.Lex.right _ (Prod.Lex.right _ (by omega))
  · exact Prod.Lex.left _ _ (by omega)
  · exact Prod.Lex.left _ _ (by omega)

theorem parseArrayLoop_within (htexts : NulFreeTexts tokens buf) {tok k r m : ℕ}
    {res res' : List Value} (hcount : countTokSizeLoop tokens tok k = .ok r)
    (hres : ItemsWithin m res) (h : parseArrayLoop tokens buf tok k res = .ok res') :
    ItemsWithin (m + (r - tok)) res' := by
  match k with
  | 0 =>
    rw [parseArrayLoop] at h
    obtain rfl := Except.ok.inj h
    exact hres.mono (Nat.le_add_right ..)
  | k + 1 =>
    obtain ⟨n, hn, hrest⟩ := countTokSizeLoop_inv hcount
    obtain ⟨token, -, hread, -, -⟩ := countTokSize_inv hn
    have hlt := readToken_lt hread
    have hpos := pos_of_countTokSize hn
    obtain ⟨val, hval, hloop⟩ := parseArrayLoop_inv hn h
    have hres₁ : ItemsWithin (m + n) (res ++ val.toList) := by
      cases val with
      | none =>
        rw [Option.toList_none, List.append_nil]
        exact hres.mono (Nat.le_add_right ..)
      | some v => exact hres.pushBack (parseValue_within htexts hn hval)
    have hle := le_of_countTokSizeLoop hrest
    exact (parseArrayLoop_within htexts hrest hres₁ hloop).mono (by omega)
termination_by (tokens.length - tok, 1, k)
decreasing_by
  · exact Prod.Lex.right _ (Prod.Lex.left _ _ (by omega))
  · exact Prod.Lex.left _ _ (by omega)

end

end Walk

/-! ## `rbjson::parse` -/

/-- The tokens that `parse` works on. -/
theorem length_parseTokens_le {buf : Bytes} {tokens : List Token}
    (h : parseTokens buf 32 = some tokens) : tokens.length ≤ 64 := by
  obtain ⟨numTokens, hparse⟩ := exists_jsmnParse h
  have hlimit := parseTokens_of_parse hparse
  by_contra hlong
  rw [h, if_neg hlong] at hlimit
  cases hlimit

/-- An object that is parsed is well formed, and has at most 64 tokens. -/
theorem within_parse {buf : Bytes} {members : List (Member Value)}
    (h : parse buf = .ok (some members)) : (Value.object members).Within 64 := by
  rw [parse] at h
  cases htokens : parseTokens buf 32 with
  | none =>
    rw [htokens] at h
    cases Except.ok.inj h
  | some tokens =>
    rw [htokens] at h
    have hlen := length_parseTokens_le htokens
    obtain ⟨numTokens, hparse⟩ := exists_jsmnParse htokens
    obtain ⟨hforest, htexts, hnil⟩ := sound_jsmnParse hparse
    have hnul : NulFreeTexts tokens buf := fun token hmem htype text htext =>
      nul_not_mem_tokenText hparse hmem htype htext
    cases hread : readToken tokens 0 with
    | error fault =>
      simp only [parseObject, hread, bind, Except.bind] at h
      cases h
    | ok obj =>
      have hlt := readToken_lt hread
      have hne : sizes tokens ≠ [] := List.length_pos_iff.1 (by rwa [length_sizes])
      obtain ⟨n, hcount, -, hfits⟩ := countTokSize_fits (hforest.fits hne)
      have hn : n ≤ tokens.length := by
        rw [Fits, length_sizes] at hfits
        omega
      obtain ⟨obj', r, hread', hloop, rfl⟩ := countTokSize_inv hcount
      obtain rfl := Except.ok.inj (hread.symm.trans hread')
      simp only [parseObject, hread, bind, Except.bind] at h
      split_ifs at h
      · cases Except.ok.inj h
      · cases hmembers : parseObjectLoop tokens buf (0 + 1) obj.size [] with
        | error fault =>
          rw [hmembers] at h
          cases h
        | ok members' =>
          rw [hmembers] at h
          obtain rfl := Option.some.inj (Except.ok.inj h)
          have hobject := (parseObjectLoop_within hnul hloop membersWithin_nil hmembers).object
          have hle := le_of_countTokSizeLoop hloop
          exact ⟨hobject.wellFormed, hobject.tokenCount_le.trans (by omega)⟩

theorem packet_wellFormed_of_parse {buf : Bytes} {members : List (Member Value)}
    (h : parse buf = .ok (some members)) : Object.WellFormed members := by
  cases (within_parse h).wellFormed with
  | object hwf => exact hwf

instance (members : List (Member Value)) : Decidable (Object.WellFormed members) :=
  decidable_of_iff ((members.Pairwise fun a b : Member Value => a.name < b.name) ∧
      (∀ member ∈ members, 0 ∉ member.name) ∧ ∀ member ∈ members, member.name.length ≤ keyLimit)
    ⟨fun h => ⟨h.1, h.2.1, h.2.2⟩, fun h => ⟨h.sorted, h.nulFree, h.length_le⟩⟩

/-- An object as a packet; `rbjson::parse` returns no others (`members_ofMembers`). -/
def Packet.ofMembers (members : List (Member Value)) : Packet :=
  if h : Object.WellFormed members then ⟨members, h⟩ else Packet.empty

theorem members_ofMembers {buf : Bytes} {members : List (Member Value)}
    (h : parse buf = .ok (some members)) : (Packet.ofMembers members).members = members := by
  rw [Packet.ofMembers, dif_pos (packet_wellFormed_of_parse h)]

@[simp] theorem ofMembers_members (pkt : Packet) : Packet.ofMembers pkt.members = pkt := by
  rw [Packet.ofMembers, dif_pos pkt.wellFormed]

/-- A plain packet is read back as it is. -/
theorem readBack_plain (outOfRange : BinaryFloat → ℤ) {pkt : Packet}
    (h : (Value.object pkt.members).Plain) : pkt.readBack outOfRange = pkt := by
  have hmembers : readMembers outOfRange pkt.members [] = pkt.members :=
    Value.object.inj (Option.some.inj (read_plain outOfRange (.object pkt.members) h))
  cases pkt
  simpa [Packet.readBack] using hmembers

/-- The packet that a text is parsed to, if `rbjson::parse` returns an object. -/
def packetOf (text : Bytes) : Option Packet :=
  match parse text with
  | .ok (some members) => some (.ofMembers members)
  | _ => none

/-- A plain packet of at most 64 tokens is parsed to itself. -/
theorem parse_str_plain (outOfRange : BinaryFloat → ℤ) {pkt : Packet}
    (h : (Value.object pkt.members).Plain) (hcount : (Value.object pkt.members).tokenCount ≤ 64) :
    parse (pkt.str outOfRange) = .ok (some pkt.members) := by
  rw [parse_str, if_pos hcount, readBack_plain outOfRange h]

end RbProtocol.Json
