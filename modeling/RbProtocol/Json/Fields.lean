import RbProtocol.Json.Grammar
import RbProtocol.Json.WellFormed

/-!
# The fields of a JSON text

What the getters find under a key when an object has come as a JSON text without escapes: what the
last member with this key denotes, wherever it is among the others (`fields_sentence`).
-/

namespace RbProtocol.Json

open Ascii Library JsonText

/-! ## The keys of a text -/

theorem nul_not_mem_chars {s text rest : Bytes} (h : Chars s text rest)
    (hplain : backslash ∉ text) : nul ∉ s := by
  induction h with
  | close => exact List.not_mem_nil
  | plain hc _ ih =>
    exact List.not_mem_cons_of_ne_of_not_mem (ne_nul_of_isUnescaped hc).symm
      (ih fun hmem => hplain (List.mem_cons_of_mem _ hmem))
  | short => exact absurd List.mem_cons_self hplain
  | unicode => exact absurd List.mem_cons_self hplain

theorem suffix_of_reads {phrase : Phrase} {text rest : Bytes} (h : Reads phrase text rest) :
    rest <:+ text := by
  obtain ⟨_, _, htokens⟩ := exists_tokens h List.suffix_rfl
  exact htokens.suffix

theorem nul_not_mem_keys {phrase : Phrase} {text rest : Bytes} (h : Reads phrase text rest) :
    backslash ∉ text → ∀ members, phrase = .members members → ∀ member ∈ members,
      nul ∉ member.1 := by
  induction h with
  | lastMember hkey _ _ _ _ _ =>
    rintro hplain _ ⟨⟩ member hmem
    obtain rfl := List.mem_singleton.1 hmem
    exact nul_not_mem_chars hkey fun h => hplain (List.mem_cons_of_mem _ h)
  | member hkey hcolon hfront hv hspace hspace' _ _ ih =>
    rintro hplain _ ⟨⟩ member hmem
    have hnext := (suffix_of_comma hspace hspace').trans
      ((suffix_of_reads hv).trans (suffix_of_member hkey hcolon hfront))
    rcases List.mem_cons.1 hmem with rfl | hmem
    · exact nul_not_mem_chars hkey fun h => hplain (List.mem_cons_of_mem _ h)
    · exact ih (fun h => hplain (hnext.subset h)) _ rfl member hmem
  | _ => rintro _ _ ⟨⟩

theorem Unescaped.nul_not_mem_keys {text : Bytes} {members : List (Bytes × RbProtocol.Json)}
    (hplain : Unescaped text) (h : Sentence text (.object members)) :
    ∀ member ∈ members, nul ∉ member.1 := by
  obtain ⟨front, behind, hfront, hv, -⟩ := h
  have hobject := (hplain.behind (.space hfront)).noBackslash
  cases hv with
  | emptyObject => exact List.forall_mem_nil _
  | object hspace hmembers =>
    exact Json.nul_not_mem_keys hmembers
      (fun h => hobject (List.mem_cons_of_mem _ ((suffix_of_space hspace).subset h))) _ rfl

/-! ## Parts of a text -/

/-- A number of one digit. -/
theorem reads_digit {d : UInt8} {q : ℚ} (hd : isDigit d = true) (hq : q = digitValue d)
    (rest : Bytes) : Reads (.value (.number q)) (d :: rest) rest := by
  have hdigits : Digits [d] := ⟨List.cons_ne_nil _ _, List.forall_mem_singleton.2 hd⟩
  have hvalue : digitsValue 10 [d] = digitValue d := Nat.zero_add _
  have hreads : Reads (.value (.number (1 * (digitsValue 10 [d] + 0) * 1)))
      ([] ++ [d] ++ [] ++ [] ++ rest) rest := .number .none (.mk hdigits fun _ => rfl) .none .none
  rwa [one_mul, add_zero, mul_one, hvalue, ← hq] at hreads

/-- A string of characters that stand for themselves. -/
theorem chars_of_isUnescaped {s : Bytes} (h : ∀ c ∈ s, isUnescaped c = true) (rest : Bytes) :
    Chars s (s ++ quote :: rest) rest := by
  induction s with
  | nil => exact .close
  | cons c s ih =>
    obtain ⟨hc, hs⟩ := List.forall_mem_cons.1 h
    exact .plain hc (ih hs)

theorem unescaped_of_length {text : Bytes} (hplain : backslash ∉ text) (hlen : text.length < 32) :
    Unescaped text where
  noBackslash := hplain
  short _ hrun _ := (hrun.length_le.trans (length_emptyStrings_le false text)).trans_lt hlen

/-! ## The getters -/

/-- What the last member with a key denotes. -/
def lastMember (members : List (Bytes × RbProtocol.Json)) (key : Key) : Option RbProtocol.Json :=
  (members.reverse.find? fun member => storedName member.1 = storedName key.bytes).map Prod.snd

theorem entriesOf_eq_map (members : List (Bytes × RbProtocol.Json)) :
    entriesOf members = members.map fun member => (member.1, valueOf member.2) := by
  induction members with
  | nil => rfl
  | cons member members ih =>
    obtain ⟨key, v⟩ := member
    exact congrArg ((key, valueOf v) :: ·) ih

theorem lastValue_entriesOf (members : List (Bytes × RbProtocol.Json)) (key : Key) :
    lastValue (entriesOf members) (storedName key.bytes) =
      (lastMember members key).map valueOf := by
  rw [lastValue, entriesOf_eq_map, ← List.map_reverse, List.find?_map, lastMember, Option.map_map,
    Option.map_map]
  rfl

/-- What `get` finds in the object that is read. -/
theorem get_ofMembers {text : Bytes} {members : List (Bytes × RbProtocol.Json)}
    (h : Sentence text (.object members)) (hcount : tokenCountOf (.object members) ≤ 64)
    (hplain : Unescaped text) (key : Key) :
    (Packet.ofMembers (membersOf (entriesOf members))).get key =
      (lastMember members key).map valueOf := by
  have hnul : ∀ entry ∈ entriesOf members, 0 ∉ entry.1 := by
    rw [entriesOf_eq_map]
    intro entry hentry
    obtain ⟨member, hmember, rfl⟩ := List.mem_map.1 hentry
    exact hplain.nul_not_mem_keys h member hmember
  obtain ⟨hwf, hmap⟩ := membersOf_spec hnul
  rw [Packet.get, members_ofMembers (parse_unescaped h hcount hplain),
    Object.get_eq_fieldMap hwf key.nulFree, hmap, lastValue_entriesOf]

/-- **What is read under a key** of a text without escapes. -/
theorem fields_sentence (outOfRange : BinaryFloat → ℤ) {text : Bytes}
    {members : List (Bytes × RbProtocol.Json)} (h : Sentence text (.object members))
    (hcount : tokenCountOf (.object members) ≤ 64) (hplain : Unescaped text) :
    ∃ pkt, packetOf text = some pkt ∧ ∀ key,
      pkt.get key = (lastMember members key).map valueOf ∧
      pkt.contains key = (lastMember members key).isSome ∧
      (∀ s, lastMember members key = some (.string s) → pkt.getString key = s) ∧
      ∀ n : ℤ, |n| ≤ 2 ^ 24 → lastMember members key = some (.number n) →
        pkt.getInt outOfRange key = n := by
  have hpacket : packetOf text = some (.ofMembers (membersOf (entriesOf members))) := by
    rw [packetOf, parse_unescaped h hcount hplain]
  refine ⟨_, hpacket, fun key => ?_⟩
  have hget := get_ofMembers h hcount hplain key
  refine ⟨hget, ?_, fun s hs => ?_, fun n hn hs => ?_⟩
  · rw [Packet.contains_eq_isSome_get, hget, Option.isSome_map]
  · rw [Packet.getString, hget, hs]
    rfl
  · have hvalue : valueOf (.number n) = .number (.finite n) := intNumber_eq hn
    rw [Packet.getInt, hget, hs, Option.map_some, hvalue]
    exact toLongLong_intCast outOfRange hn

/-- The second `c` counts. -/
theorem fields_sentence_twice :
    ∃ pkt, packetOf (literal "\x7b\"n\":1,\"c\":\"x\" ,\"c\":\"fire\"\x7d") = some pkt ∧
      pkt.getString ⟨[99], by decide⟩ = literal "fire" ∧
      pkt.getInt (fun _ => 0) ⟨[110], by decide⟩ = 1 := by
  have hone : ∀ rest, Reads (.value (.number (1 : ℤ))) (49 :: rest) rest :=
    reads_digit rfl (show ((1 : ℤ) : ℚ) = (1 : ℕ) by rw [Int.cast_one, Nat.cast_one])
  have hfire : Chars (literal "fire") (literal "fire\"\x7d") (literal "\x7d") :=
    chars_of_isUnescaped (by decide +kernel) _
  have hlast : Reads (.members [([99], .string (literal "fire"))])
      (literal "\"c\":\"fire\"\x7d") [] :=
    .lastMember (.plain rfl .close) .nil .nil (.string hfire) .nil
  have hfirst : Reads (.members [([99], .string (literal "x")), ([99], .string (literal "fire"))])
      (literal "\"c\":\"x\" ,\"c\":\"fire\"\x7d") [] :=
    .member (.plain rfl .close) .nil .nil (.string (.plain rfl .close)) (.cons rfl .nil) .nil hlast
  have hmembers : Reads (.members [([110], .number (1 : ℤ)), ([99], .string (literal "x")),
      ([99], .string (literal "fire"))])
      (literal "\"n\":1,\"c\":\"x\" ,\"c\":\"fire\"\x7d") [] :=
    .member (.plain rfl .close) .nil .nil (hone _) .nil .nil hfirst
  obtain ⟨pkt, hpkt, hfields⟩ := fields_sentence (fun _ => 0)
    ⟨_, [], .nil, .object .nil hmembers, .nil⟩ (by decide)
    (unescaped_of_length (by decide +kernel) (by decide +kernel))
  exact ⟨pkt, hpkt, (hfields _).2.2.1 _ rfl, (hfields _).2.2.2 1 (by decide) rfl⟩

end RbProtocol.Json
