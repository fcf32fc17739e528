import RbProtocol.Json.Packet
import RbProtocol.Json.RoundTrip

/-!
# Strings on the round trip

`write_string_escaped` puts a backslash before seven characters, and neither the tokenizer nor
`parse_value` takes it out again. So a string that is read back is the string as it was written
(`getString_readBack_plain`), and it is the string that was put in exactly when it has none of the
seven characters (`escapedText_eq_iff`). The same holds of keys: a member is set under its key as it
was written.

The member under a key without such characters reads back exactly when its string has none of them
and the object does not need more tokens than there are (`readsBack_iff`).
-/

namespace RbProtocol.Json

open Ascii Library

variable (outOfRange : BinaryFloat → ℤ)

/-! ## Escaped texts -/

/-- A text is no longer than it is written. -/
theorem length_le_flatMap_escapeChar (text : Bytes) :
    text.length ≤ (text.flatMap escapeChar).length := by
  induction text with
  | nil => rfl
  | cons c text ih =>
    have hchar : 1 ≤ (escapeChar c).length := by
      rw [escapeChar]
      split <;> simp
    rw [List.flatMap_cons, List.length_append, List.length_cons]
    omega

/-- A text with a special character is written with a backslash at the first one, and is longer than
before. -/
theorem exists_backslash {text : Bytes} (hnul : 0 ∉ text) (h : ¬ PlainText text) :
    ∃ before behind, text.flatMap escapeChar = before ++ backslash :: behind ∧
      before.length < text.length ∧ text.length ≤ before.length + behind.length := by
  induction text with
  | nil => exact absurd (by simp [PlainText]) h
  | cons c text ih =>
    rw [List.flatMap_cons, escapeChar]
    cases hlookup : escapes.lookup c with
    | some e =>
      refine ⟨[], e :: text.flatMap escapeChar, rfl, Nat.succ_pos _, ?_⟩
      simpa using length_le_flatMap_escapeChar text
    | none =>
      have hrest : ¬ PlainText text := by
        intro hplain
        refine h (List.forall_mem_cons.2 ⟨⟨?_, hlookup⟩, hplain⟩)
        rintro rfl
        exact hnul (List.mem_cons_self ..)
      obtain ⟨before, behind, heq, hlt, hle⟩ :=
        ih (fun hmem => hnul (List.mem_cons_of_mem _ hmem)) hrest
      refine ⟨c :: before, behind, by rw [heq]; rfl, Nat.succ_lt_succ hlt, ?_⟩
      simp only [List.length_cons]
      omega

theorem not_plainText_of_backslash {text : Bytes} (h : backslash ∈ text) : ¬ PlainText text := by
  intro hplain
  obtain ⟨-, hlookup⟩ := hplain _ h
  cases hlookup

/-- **A text is written as it is exactly when it is plain.** -/
theorem escapedText_eq_iff {text : Bytes} (hnul : 0 ∉ text) :
    escapedText text = text ↔ PlainText text := by
  refine ⟨fun heq => ?_, escapedText_plain⟩
  by_contra hplain
  obtain ⟨before, behind, hwritten, -, hle⟩ := exists_backslash hnul hplain
  rw [escapedText, cstr_eq_self hnul, hwritten] at heq
  have hlen := congrArg List.length heq
  rw [List.length_append, List.length_cons] at hlen
  omega

theorem nul_not_mem_escapedText (text : Bytes) : 0 ∉ escapedText text := by
  intro hmem
  obtain ⟨c, hc, hzero⟩ := List.mem_flatMap.1 hmem
  have hnul : c ≠ nul := by simpa using List.mem_takeWhile_imp hc
  rw [escapeChar] at hzero
  cases hlookup : escapes.lookup c with
  | none =>
    rw [hlookup] at hzero
    exact hnul (List.mem_singleton.1 hzero).symm
  | some e =>
    rw [hlookup] at hzero
    have hall : ∀ p ∈ escapes, p.2 ≠ 0 := by simp [escapes, quote, backslash]
    rcases List.mem_cons.1 hzero with heq | hzero
    · cases heq
    · exact hall _ (mem_escapes hlookup) (List.mem_singleton.1 hzero).symm

/-- Only the name itself is written like a plain name. -/
theorem eq_of_storedName_escapedText {name plain : Bytes} (hnul : 0 ∉ name)
    (hlen : name.length ≤ keyLimit) (hplain : PlainText plain)
    (h : storedName (escapedText name) = plain) : name = plain := by
  by_cases hname : PlainText name
  · rw [escapedText_plain hname, storedName, List.take_of_length_le hlen] at h
    exact h
  · -- the backslash in front of the first special character is within the limit
    obtain ⟨before, behind, hwritten, hlt, -⟩ := exists_backslash hnul hname
    rw [escapedText, cstr_eq_self hnul, hwritten, storedName] at h
    refine absurd hplain (not_plainText_of_backslash ?_)
    rw [← h, List.take_append, List.mem_append]
    refine .inr ?_
    obtain ⟨k, hk⟩ : ∃ k, keyLimit - before.length = k + 1 :=
      ⟨keyLimit - before.length - 1, by omega⟩
    rw [hk, List.take_succ_cons]
    exact List.mem_cons_self

/-! ## Every value is read -/

/-- The text of a number starts with one, but for NaN, which is read as `null`. -/
theorem isSome_parsePrimitive {text : Bytes} (h : StartsNumber text) :
    (parsePrimitive text).isSome := by
  have hnumber := h.snprintfPrefix.isSome_strtod
  obtain ⟨c, rest, -, rfl | rfl⟩ := h
  all_goals
    rw [parsePrimitive]
    split_ifs
    · rfl
    · rfl
    · rfl
    · rwa [Option.isSome_map]

/-- **Whatever is written is read back as some value.** -/
theorem isSome_read (value : Value) : (value.read outOfRange).isSome := by
  cases value with
  | number value =>
    rw [Value.read]
    cases value with
    | finite q =>
      rw [serializeNumber]
      split_ifs
      · exact isSome_parsePrimitive (startsNumber_formatLongLong _)
      · exact isSome_parsePrimitive (startsNumber_ftoa q)
    | infinite negative => exact isSome_parsePrimitive (startsNumber_formatLongLong _)
    | nan => rfl
  | object | array | string | bool | nil => rfl

/-! ## What is read under a key -/

section Members

open Object

/-- What a member gives under a name. -/
def Member.readAs (name : Bytes) (member : Member Value) : Option Value :=
  if storedName (escapedText member.name) = name then member.value.read outOfRange else none

/-- The value that is read under a name: that of the last member which is written so. -/
def readUnder (members : List (Member Value)) (name : Bytes) : Option Value :=
  members.reverse.findSome? (Member.readAs outOfRange name)

variable {outOfRange}

theorem readInto_spec {res : List (Member Value)} (hres : WellFormed res) (member : Member Value) :
    WellFormed (member.readInto outOfRange res) ∧ ∀ name,
      fieldMap (member.readInto outOfRange res) name =
        (member.readAs outOfRange name).or (fieldMap res name) := by
  obtain ⟨key, value⟩ := member
  rw [Member.readInto]
  cases hread : value.read outOfRange with
  | none => exact ⟨hres, fun name => by simp [Member.readAs, hread]⟩
  | some val =>
    obtain ⟨hwf, hmap⟩ := apply_spec (.set (escapedText key) val) hres (nul_not_mem_escapedText key)
    refine ⟨hwf, fun name => (congrFun hmap name).trans ?_⟩
    rw [Op.applyMap, Function.update_apply, Member.readAs]
    by_cases hname : name = storedName (escapedText key)
    · simp [hname, hread]
    · simp [hname, Ne.symm hname]

theorem readMembers_spec {res : List (Member Value)} (hres : WellFormed res)
    (members : List (Member Value)) : WellFormed (readMembers outOfRange members res) ∧ ∀ name,
      fieldMap (readMembers outOfRange members res) name =
        (readUnder outOfRange members name).or (fieldMap res name) := by
  induction members generalizing res with
  | nil => exact ⟨hres, fun name => rfl⟩
  | cons member members ih =>
    obtain ⟨hwf, hmap⟩ := @readInto_spec outOfRange _ hres member
    obtain ⟨hwf', hmap'⟩ := ih hwf
    refine ⟨hwf', fun name => ?_⟩
    rw [readMembers, hmap', hmap, readUnder, readUnder, List.reverse_cons, List.findSome?_append,
      Option.or_assoc]
    simp

/-- The member under a plain name is read under this name. -/
theorem readUnder_plain {members : List (Member Value)} (hwf : WellFormed members) {name : Bytes}
    (hplain : PlainText name) {value : Value} (hvalue : fieldMap members name = some value) :
    readUnder outOfRange members name = value.read outOfRange := by
  obtain ⟨l₁, mid, l₂, rfl, hs⟩ := hwf.sorted.exists_splitAt name
  rw [fieldMap, hs.toMap_self] at hvalue
  obtain ⟨member, rfl, rfl⟩ := Option.map_eq_some_iff.1 hvalue
  have hname : member.name = name := hs.at_mid member rfl
  -- no other member is written like the name
  have hother : ∀ other ∈ l₁ ++ l₂, other.readAs outOfRange name = none := by
    intro other hmem
    have hne : other.name ≠ name := by
      rcases List.mem_append.1 hmem with hmem | hmem
      · exact ne_of_key_lt (hs.below other hmem)
      · exact (ne_of_key_lt (hs.above other hmem)).symm
    have hmem' : other ∈ l₁ ++ ((some member).toList ++ l₂) := by
      rcases List.mem_append.1 hmem with hmem | hmem
      · exact List.mem_append_left _ hmem
      · exact List.mem_append_right _ (List.mem_append_right _ hmem)
    rw [Member.readAs, if_neg]
    intro hwritten
    exact hne (eq_of_storedName_escapedText (hwf.nulFree other hmem') (hwf.length_le other hmem')
      hplain hwritten)
  have hself : member.readAs outOfRange name = member.value.read outOfRange := by
    have hlen := hwf.length_le member (by simp)
    rw [Member.readAs, hname, escapedText_plain hplain, storedName,
      List.take_of_length_le (hname ▸ hlen), if_pos rfl]
  have hright : l₂.reverse.findSome? (Member.readAs outOfRange name) = none := by
    refine List.findSome?_eq_none_iff.2 fun other hmem => ?_
    exact hother other (List.mem_append_right _ (List.mem_reverse.1 hmem))
  rw [readUnder, Option.toList_some, List.reverse_append, List.reverse_append,
    List.findSome?_append, List.findSome?_append, hright, Option.none_or, List.reverse_singleton,
    List.findSome?_singleton, hself]
  obtain ⟨val, hval⟩ := Option.isSome_iff_exists.1 (isSome_read outOfRange member.value)
  rw [hval]
  rfl

end Members

/-! ## The round trip of a string -/

/-- The packet that the text of a packet is parsed to. -/
def Packet.readBack (pkt : Packet) : Packet :=
  ⟨readMembers outOfRange pkt.members [], (readMembers_spec Object.wellFormed_nil pkt.members).1⟩

theorem parse_str (pkt : Packet) : parse (pkt.str outOfRange) =
    .ok (if (Value.object pkt.members).tokenCount ≤ 64 then some (pkt.readBack outOfRange).members
      else none) := parse_object_serialize outOfRange pkt.members

/-- What `getString` makes of a value. -/
def stringOr (dflt : Bytes) : Option Value → Bytes
  | some (.string value) => value
  | _ => dflt

theorem getString_readBack (pkt : Packet) (key : Key) : (pkt.readBack outOfRange).getString key =
    stringOr [] (readUnder outOfRange pkt.members (storedName key.bytes)) := by
  have hspec := @readMembers_spec outOfRange _ Object.wellFormed_nil pkt.members
  have hget : (pkt.readBack outOfRange).get key =
      readUnder outOfRange pkt.members (storedName key.bytes) := by
    rw [Packet.get, Packet.readBack, Object.get_eq_fieldMap hspec.1 key.nulFree, hspec.2]
    exact Option.or_none
  rw [Packet.getString, hget]
  rfl

/-- The value of the last member that is written under a name. -/
def lastWritten (members : List (Member Value)) (name : Bytes) : Option Value :=
  (members.reverse.find? fun member => storedName (escapedText member.name) = name).map Member.value

/-- The text that a string is written as. -/
def writtenString : Option Value → Bytes
  | some (.string value) => escapedText value
  | _ => []

/-- A text that is not a string does not become one. -/
theorem parsePrimitive_ne_string (text s : Bytes) : parsePrimitive text ≠ some (.string s) := by
  intro h
  cases text with
  | nil => cases h
  | cons c text =>
    rw [parsePrimitive] at h
    split_ifs at h
    · cases h
    · cases h
    · cases h
    · obtain ⟨number, -, hnumber⟩ := Option.map_eq_some_iff.1 h
      cases hnumber

theorem stringOr_read (value : Value) :
    stringOr [] (value.read outOfRange) = writtenString (some value) := by
  cases value with
  | number value =>
    rw [Value.read]
    cases hparse : parsePrimitive (serializeNumber outOfRange value) with
    | none => rfl
    | some val =>
      cases val with
      | string s => exact absurd hparse (parsePrimitive_ne_string _ s)
      | _ => rfl
  | _ => rfl

theorem stringOr_readUnder (members : List (Member Value)) (name : Bytes) :
    stringOr [] (readUnder outOfRange members name) =
      writtenString (lastWritten members name) := by
  rw [readUnder, lastWritten]
  induction members.reverse with
  | nil => rfl
  | cons member rest ih =>
    rw [List.findSome?_cons, Member.readAs, List.find?_cons]
    by_cases hname : storedName (escapedText member.name) = name
    · obtain ⟨val, hread⟩ := Option.isSome_iff_exists.1 (isSome_read outOfRange member.value)
      rw [if_pos hname, decide_eq_true hname, hread]
      simp only [Option.map_some]
      rw [← stringOr_read outOfRange, hread]
    · rw [if_neg hname, decide_eq_false hname]
      exact ih

/-- The text of a packet is parsed, and the string under a key is the one that was put in. -/
def ReadsBack (pkt : Packet) (key : Key) (s : Bytes) : Prop :=
  ∃ parsed : Packet, parse (pkt.str outOfRange) = .ok (some parsed.members) ∧
    parsed.getString key = s

theorem readsBack_iff_getString (pkt : Packet) (key : Key) (s : Bytes) :
    ReadsBack outOfRange pkt key s ↔ (Value.object pkt.members).tokenCount ≤ 64 ∧
      (pkt.readBack outOfRange).getString key = s := by
  rw [ReadsBack, parse_str]
  constructor
  · rintro ⟨parsed, hparse, hstring⟩
    split_ifs at hparse with hcount
    · have hmembers := Option.some.inj (Except.ok.inj hparse)
      have heq : pkt.readBack outOfRange = parsed := by
        cases parsed
        simpa [Packet.readBack] using hmembers
      exact ⟨hcount, heq ▸ hstring⟩
    · cases hparse
  · rintro ⟨hcount, hstring⟩
    exact ⟨pkt.readBack outOfRange, by rw [if_pos hcount], hstring⟩

/-- A string under a plain key is read back as it was written. -/
theorem getString_readBack_plain {pkt : Packet} {key : Key} {s : Bytes}
    (hplain : PlainText (storedName key.bytes)) (hget : pkt.get key = some (.string s)) :
    (pkt.readBack outOfRange).getString key = escapedText s := by
  rw [Packet.get, Object.get_eq_fieldMap pkt.wellFormed key.nulFree] at hget
  rw [getString_readBack, readUnder_plain pkt.wellFormed hplain hget]
  rfl

/-- **A string reads back** exactly when the packet needs at most 64 tokens and, under a plain key,
the string is plain. Under a key that is not plain, it is the text of the string of the last member
that is written under this key. -/
theorem readsBack_iff (pkt : Packet) (key : Key) {s : Bytes} (hs : 0 ∉ s)
    (hget : pkt.get key = some (.string s)) :
    ReadsBack outOfRange pkt key s ↔ (Value.object pkt.members).tokenCount ≤ 64 ∧
      if PlainText (storedName key.bytes) then PlainText s
      else writtenString (lastWritten pkt.members (storedName key.bytes)) = s := by
  rw [readsBack_iff_getString]
  refine and_congr_right fun _ => ?_
  split_ifs with hplain
  · rw [getString_readBack_plain outOfRange hplain hget]
    exact escapedText_eq_iff hs
  · rw [getString_readBack, stringOr_readUnder]

/-- The key of a command. -/
def commandKey : Key := ⟨literal "c", by decide⟩

/-- The packet of one command. -/
def commandPacket (command : Bytes) : Packet := Packet.empty.set commandKey (.string command)

theorem get_commandPacket (command : Bytes) :
    (commandPacket command).get commandKey = some (.string command) := by
  rw [commandPacket, Packet.get_set, if_pos rfl]

/-- The command `discover` reads back. -/
theorem readsBack_discover : ReadsBack (fun _ => 0) (commandPacket (literal "discover")) commandKey
    (literal "discover") :=
  (readsBack_iff (fun _ => 0) (commandPacket (literal "discover")) commandKey (by decide)
    (get_commandPacket _)).2 (by decide +kernel)

/-- A command that is a quote reads back as a backslash and a quote. -/
theorem not_readsBack_quote : ¬ ∀ (outOfRange : BinaryFloat → ℤ) (pkt : Packet) (key : Key)
    (s : Bytes), 0 ∉ s → pkt.get key = some (.string s) → ReadsBack outOfRange pkt key s := by
  intro h
  have hreads := h (fun _ => 0) (commandPacket [quote]) commandKey [quote] (by decide)
    (get_commandPacket _)
  obtain ⟨-, hstring⟩ := (readsBack_iff_getString ..).1 hreads
  rw [getString_readBack_plain _ (by decide +kernel) (get_commandPacket _)] at hstring
  revert hstring
  decide +kernel

end RbProtocol.Json
