import RbProtocol.Json.Value

/-!
# Canonical values

`Value::equals` walks the members of two objects side by side, and `Value::serialize` writes them in
the order in which they are kept. Both respect what the trees denote, where an object is a map from
keys to values, as the operations leave only one tree for each denotation.

* `Built v j`: the tree `v` can be built by the operations, so that it denotes `j`.
* `Value.Canonical`: what every tree that can be built satisfies (`Built.canonical`).
* `Value.Canonical.ext`: a canonical tree is determined by what it denotes.
-/

namespace RbProtocol.Json

open Library

/-! ## Copies -/

mutual

/-- `Value::copy`. -/
def Value.copy : Value → Value
  | .object members => .object (copyMembers members)
  | .array items => .array (copyItems items)
  | .string value => .string value
  | .number value => mkNumber value
  | .bool value => .bool value
  | .nil => .nil
termination_by structural v => v

/-- The loop of `Object::copy`. -/
def copyMembers : List (Member Value) → List (Member Value)
  | [] => []
  | member :: members => member.copy :: copyMembers members
termination_by structural members => members

/-- A copied member, with the name from `strdup`. -/
def Member.copy : Member Value → Member Value
  | ⟨name, value⟩ => ⟨cstr name, value.copy⟩
termination_by structural member => member

/-- The loop of `Array::copy`. -/
def copyItems : List Value → List Value
  | [] => []
  | item :: items => item.copy :: copyItems items
termination_by structural items => items

end

/-! ## Items of arrays -/

namespace Items

/-- `Array::insert`. The index is at most the size. -/
def insert (items : List Value) (idx : ℕ) (value : Value) : List Value := items.insertIdx idx value

/-- `Array::push_back`. -/
def pushBack (items : List Value) (value : Value) : List Value := insert items items.length value

/-- `Array::set`. -/
def set (items : List Value) (idx : ℕ) (value : Value) : List Value :=
  if idx < items.length then List.set items idx value else items

/-- `Array::remove`. -/
def remove (items : List Value) (idx : ℕ) : List Value :=
  if idx < items.length then items.eraseIdx idx else items

theorem pushBack_eq (items : List Value) (value : Value) :
    pushBack items value = items ++ [value] := List.insertIdx_length_self

/-- An index that is not below the size changes nothing. -/
theorem set_eq (items : List Value) (idx : ℕ) (value : Value) :
    set items idx value = List.set items idx value := by
  rw [set]
  split_ifs with h
  · rfl
  · exact (List.set_eq_of_length_le (not_lt.1 h)).symm

theorem remove_eq (items : List Value) (idx : ℕ) : remove items idx = items.eraseIdx idx := by
  rw [remove]
  split_ifs with h
  · rfl
  · exact (List.eraseIdx_of_length_le (not_lt.1 h)).symm

end Items

/-! ## Denotations -/

/-- A JSON value, with the objects as maps. -/
inductive Denotation
  | object (fields : Bytes → Option Denotation)
  | array (items : List Denotation)
  | string (text : Bytes)
  | number (value : BinaryFloat)
  | bool (value : Bool)
  | null

mutual

/-- What a tree denotes. -/
def Value.denote : Value → Denotation
  | .object members => .object (denoteFields members)
  | .array items => .array (denoteItems items)
  | .string value => .string value
  | .number value => .number value
  | .bool value => .bool value
  | .nil => .null
termination_by structural v => v

/-- The map of the members of an object. -/
def denoteFields : List (Member Value) → Bytes → Option Denotation
  | [] => fun _ => none
  | member :: members => member.denoteInto (denoteFields members)
termination_by structural members => members

/-- A member in front of others. -/
def Member.denoteInto : Member Value → (Bytes → Option Denotation) → Bytes → Option Denotation
  | ⟨name, value⟩, fields => Function.update fields name (some value.denote)
termination_by structural member => member

/-- The items of an array. -/
def denoteItems : List Value → List Denotation
  | [] => []
  | item :: items => item.denote :: denoteItems items
termination_by structural items => items

end

/-- A tree and what it denotes, by the operations that have built it. Numbers are made from finite
values of type `double`, keys have no NUL and indices of `insert` are at most the size. -/
inductive Built : Value → Denotation → Prop
  | object : Built (.object []) (.object fun _ => none)
  | set {members fields key value meaning} (hobject : Built (.object members) (.object fields))
      (hkey : 0 ∉ key) (hvalue : Built value meaning) :
      Built (.object (Object.set members key value))
        (.object (Function.update fields (storedName key) (some meaning)))
  | remove {members fields key} (hobject : Built (.object members) (.object fields))
      (hkey : 0 ∉ key) :
      Built (.object (Object.remove members key))
        (.object (Function.update fields (storedName key) none))
  | array : Built (.array []) (.array [])
  | insert {items meanings idx value meaning} (harray : Built (.array items) (.array meanings))
      (hidx : idx ≤ items.length) (hvalue : Built value meaning) :
      Built (.array (Items.insert items idx value)) (.array (meanings.insertIdx idx meaning))
  | pushBack {items meanings value meaning} (harray : Built (.array items) (.array meanings))
      (hvalue : Built value meaning) :
      Built (.array (Items.pushBack items value)) (.array (meanings ++ [meaning]))
  | setItem {items meanings idx value meaning} (harray : Built (.array items) (.array meanings))
      (hvalue : Built value meaning) :
      Built (.array (Items.set items idx value)) (.array (meanings.set idx meaning))
  | removeItem {items meanings idx} (harray : Built (.array items) (.array meanings)) :
      Built (.array (Items.remove items idx)) (.array (meanings.eraseIdx idx))
  | string (value : Bytes) : Built (.string value) (.string value)
  | number (q : ℚ) : Built (mkNumber (.finite q)) (.number (.round binary32 q))
  | bool (value : Bool) : Built (.bool value) (.bool value)
  | nil : Built .nil .null
  | copy {value meaning} (hvalue : Built value meaning) : Built value.copy meaning

/-! ## The trees that can be built -/

/-- The objects in the tree are well formed, and its numbers are values of type `float`. -/
inductive Value.Canonical : Value → Prop
  | object {members} (hwf : Object.WellFormed members)
      (hvalues : ∀ member ∈ members, member.value.Canonical) : Canonical (.object members)
  | array {items} (hitems : ∀ item ∈ items, item.Canonical) : Canonical (.array items)
  | string (value) : Canonical (.string value)
  | number {value} (hnan : value ≠ .nan) (hfloat : value.convert binary32 = value) :
      Canonical (.number value)
  | bool (value) : Canonical (.bool value)
  | nil : Canonical .nil

/-- The map that the members denote. -/
theorem denoteFields_eq (members : List (Member Value)) (name : Bytes) :
    denoteFields members name = (Object.fieldMap members name).map Value.denote := by
  induction members with
  | nil => rfl
  | cons member members ih =>
    obtain ⟨name', value⟩ := member
    rw [denoteFields, Member.denoteInto, Function.update_apply, Object.fieldMap, toMap]
    split_ifs with hname
    · rw [List.find?_cons_of_pos (by simpa using hname.symm)]
      rfl
    · rw [List.find?_cons_of_neg (by simpa using fun h : name' = name => hname h.symm)]
      exact ih

theorem denoteItems_eq (items : List Value) : denoteItems items = items.map Value.denote := by
  induction items with
  | nil => rfl
  | cons item items ih => rw [denoteItems, ih, List.map_cons]

theorem copyItems_eq (items : List Value) : copyItems items = items.map Value.copy := by
  induction items with
  | nil => rfl
  | cons item items ih => rw [copyItems, ih, List.map_cons]

theorem copyMembers_eq (members : List (Member Value)) :
    copyMembers members = members.map fun m => ⟨cstr m.name, m.value.copy⟩ := by
  induction members with
  | nil => rfl
  | cons member members ih => rw [copyMembers, ih, List.map_cons, Member.copy]

/-- **A canonical tree is copied as it is.** -/
theorem Value.Canonical.copy_eq {v : Value} (h : v.Canonical) : v.copy = v := by
  induction h with
  | @object members hwf hvalues ih =>
    have hcopy : ∀ m ∈ members, (⟨cstr m.name, m.value.copy⟩ : Member Value) = m := fun m hm => by
      rw [ih m hm, cstr_eq_self (hwf.nulFree m hm)]
    rw [Value.copy, copyMembers_eq, List.map_congr_left hcopy, List.map_id']
  | array hitems ih => rw [Value.copy, copyItems_eq, List.map_congr_left ih, List.map_id']
  | number hnan hfloat => rw [Value.copy, mkNumber, hfloat]
  | string | bool | nil => rfl

/-- **A canonical tree is equal to itself and to no other.** -/
theorem Value.Canonical.equals_iff {v : Value} (h : v.Canonical) (w : Value) :
    v.equals w = true ↔ v = w := by
  induction h generalizing w with
  | @object members hwf hvalues ih =>
    cases w with
    | object members' =>
      rw [Value.equals, Value.object.injEq]
      clear hwf hvalues
      induction members generalizing members' with
      | nil => cases members' <;> simp [equalMembers]
      | cons m members ihms =>
        obtain ⟨hm, hms⟩ := List.forall_mem_cons.1 ih
        cases members' with
        | nil => simp [equalMembers]
        | cons m' members' =>
          obtain ⟨name, value⟩ := m
          obtain ⟨name', value'⟩ := m'
          rw [equalMembers, Member.equals, Bool.and_eq_true, Bool.and_eq_true, decide_eq_true_iff,
            hm, ihms hms, List.cons.injEq, Member.mk.injEq]
    | array | string | number | bool | nil => simp [Value.equals]
  | @array items hitems ih =>
    cases w with
    | array items' =>
      rw [Value.equals, Value.array.injEq]
      clear hitems
      induction items generalizing items' with
      | nil => cases items' <;> simp [equalItems]
      | cons v items ihvs =>
        obtain ⟨hv, hvs⟩ := List.forall_mem_cons.1 ih
        cases items' with
        | nil => simp [equalItems]
        | cons v' items' =>
          rw [equalItems, Bool.and_eq_true, hv, ihvs hvs, List.cons.injEq]
    | object | string | number | bool | nil => simp [Value.equals]
  | string value =>
    cases w with
    | string value' => simp [Value.equals]
    | object | array | number | bool | nil => simp [Value.equals]
  | @number value hnan hfloat =>
    cases w with
    | number value' =>
      rw [Value.equals, Value.number.injEq]
      cases value <;> cases value' <;> simp_all [BinaryFloat.eq]
    | object | array | string | bool | nil => simp [Value.equals]
  | bool value =>
    cases w with
    | bool value' => simp [Value.equals]
    | object | array | string | number | nil => simp [Value.equals]
  | nil => cases w <;> simp [Value.equals]

/-- What the map of an object holds is the value of a member. -/
theorem exists_mem_of_fieldMap {members : List (Member Value)} {name : Bytes} {value : Value}
    (h : Object.fieldMap members name = some value) : ∃ m ∈ members, m.value = value := by
  obtain ⟨m, hfind, hvalue⟩ := Option.map_eq_some_iff.1 h
  exact ⟨m, List.mem_of_find?_eq_some hfind, hvalue⟩

/-- **A canonical tree is determined by what it denotes.** -/
theorem Value.Canonical.ext {v : Value} (h : v.Canonical) {w : Value} (hw : w.Canonical)
    (hdenote : v.denote = w.denote) : v = w := by
  induction h generalizing w with
  | @object members hwf hvalues ih =>
    cases hw with
    | @object members' hwf' hvalues' =>
      have hfields := Denotation.object.inj hdenote
      have hmap : Object.fieldMap members = Object.fieldMap members' := by
        funext name
        have hname := congrFun hfields name
        rw [denoteFields_eq, denoteFields_eq] at hname
        cases hv : Object.fieldMap members name with
        | none =>
          rw [hv] at hname
          exact (Option.map_eq_none_iff.1 hname.symm).symm
        | some v =>
          rw [hv] at hname
          obtain ⟨v', hv', hdenote⟩ := Option.map_eq_some_iff.1 hname.symm
          obtain ⟨m, hm, rfl⟩ := exists_mem_of_fieldMap hv
          obtain ⟨m', hm', rfl⟩ := exists_mem_of_fieldMap hv'
          rw [hv', ih m hm (hvalues' m' hm') hdenote.symm]
      rw [hwf.ext hwf' hmap]
    | array | string | number | bool | nil => cases hdenote
  | @array items hitems ih =>
    cases hw with
    | @array items' hitems' =>
      have hmap := Denotation.array.inj hdenote
      rw [denoteItems_eq, denoteItems_eq] at hmap
      rw [eq_of_map_eq_map hmap fun v hv v' hv' => ih v hv (hitems' v' hv')]
    | object | string | number | bool | nil => cases hdenote
  | string value =>
    cases hw with
    | string value' =>
      have hsame := Denotation.string.inj hdenote
      rw [hsame]
    | object | array | number | bool | nil => cases hdenote
  | number hnan hfloat =>
    cases hw with
    | number hnan' hfloat' =>
      have hsame := Denotation.number.inj hdenote
      rw [hsame]
    | object | array | string | bool | nil => cases hdenote
  | bool value =>
    cases hw with
    | bool value' =>
      have hsame := Denotation.bool.inj hdenote
      rw [hsame]
    | object | array | string | number | nil => cases hdenote
  | nil =>
    cases hw with
    | nil => rfl
    | object | array | string | number | bool => cases hdenote

/-! ## Histories -/

section Histories

variable {members : List (Member Value)} {op : Object.Op Value}

/-- A call keeps an object canonical. -/
theorem canonical_apply (h : (Value.object members).Canonical) (hkey : 0 ∉ op.key)
    (hop : ∀ key value, op = .set key value → value.Canonical) :
    (Value.object (op.apply members)).Canonical := by
  cases h with
  | object hwf hvalues =>
    obtain ⟨hwf', hmap⟩ := Object.apply_spec op hwf hkey
    refine .object hwf' fun m hm => ?_
    have hfield : Object.fieldMap (op.apply members) m.name = some m.value := by
      rw [Object.fieldMap, hwf'.sorted.toMap_of_mem hm, Option.map_some]
    rw [hmap] at hfield
    -- a member is the one of the call, or it was there before
    cases op with
    | set key value =>
      rw [Object.Op.applyMap, Function.update_apply] at hfield
      split_ifs at hfield
      · exact Option.some.inj hfield ▸ hop key value rfl
      · obtain ⟨m', hm', hvalue⟩ := exists_mem_of_fieldMap hfield
        exact hvalue ▸ hvalues m' hm'
    | remove key =>
      rw [Object.Op.applyMap, Function.update_apply] at hfield
      split_ifs at hfield
      obtain ⟨m', hm', hvalue⟩ := exists_mem_of_fieldMap hfield
      exact hvalue ▸ hvalues m' hm'

/-- The map that the members denote, as a composition. -/
theorem denoteFields_eq_comp (members : List (Member Value)) :
    denoteFields members = Option.map Value.denote ∘ Object.fieldMap members :=
  funext (denoteFields_eq members)

theorem denoteFields_set {key : Bytes} (hwf : Object.WellFormed members) (hkey : 0 ∉ key)
    (value : Value) : denoteFields (Object.set members key value) =
      Function.update (denoteFields members) (storedName key) (some value.denote) := by
  obtain ⟨-, hmap⟩ := Object.apply_spec (.set key value) hwf hkey
  rw [Object.Op.apply, Object.Op.applyMap] at hmap
  rw [denoteFields_eq_comp, hmap, Function.comp_update, ← denoteFields_eq_comp]
  rfl

theorem denoteFields_remove {key : Bytes} (hwf : Object.WellFormed members) (hkey : 0 ∉ key) :
    denoteFields (Object.remove members key) =
      Function.update (denoteFields members) (storedName key) none := by
  obtain ⟨-, hmap⟩ := Object.apply_spec (.remove key) hwf hkey
  rw [Object.Op.apply, Object.Op.applyMap] at hmap
  rw [denoteFields_eq_comp, hmap, Function.comp_update, ← denoteFields_eq_comp]
  rfl

/-- An array is canonical and denotes the list of what its items denote. -/
theorem array_spec_iff {items : List Value} {meanings : List Denotation} :
    (Value.array items).Canonical ∧ (Value.array items).denote = .array meanings ↔
      (∀ item ∈ items, item.Canonical) ∧ items.map Value.denote = meanings := by
  rw [Value.denote, denoteItems_eq, Denotation.array.injEq]
  refine and_congr_left fun _ => ⟨fun h => ?_, .array⟩
  cases h with
  | array hitems => exact hitems

/-- **A tree that can be built** is canonical and denotes what its operations give. -/
theorem Built.canonical {v : Value} {meaning : Denotation} (h : Built v meaning) :
    v.Canonical ∧ v.denote = meaning := by
  induction h with
  | object => exact ⟨.object Object.wellFormed_nil (List.forall_mem_nil _), rfl⟩
  | @set members fields key value meaning hobject hkey hvalue ihobject ihvalue =>
    obtain ⟨hcanonical, hdenote⟩ := ihobject
    obtain ⟨hval, rfl⟩ := ihvalue
    obtain rfl := Denotation.object.inj hdenote
    have hset : (Value.object (Object.Op.apply members (.set key value))).Canonical :=
      canonical_apply hcanonical hkey fun _ _ heq => by
        cases heq
        exact hval
    refine ⟨hset, ?_⟩
    cases hcanonical with
    | object hwf hvalues => rw [Value.denote, denoteFields_set hwf hkey]
  | @remove members fields key hobject hkey ihobject =>
    obtain ⟨hcanonical, hdenote⟩ := ihobject
    obtain rfl := Denotation.object.inj hdenote
    have hremove : (Value.object (Object.Op.apply members (.remove key))).Canonical :=
      canonical_apply hcanonical hkey fun _ _ heq => by cases heq
    refine ⟨hremove, ?_⟩
    cases hcanonical with
    | object hwf hvalues => rw [Value.denote, denoteFields_remove hwf hkey]
  | array => exact ⟨.array (List.forall_mem_nil _), rfl⟩
  | @insert items meanings idx value meaning harray hidx hvalue iharray ihvalue =>
    obtain ⟨hitems, rfl⟩ := array_spec_iff.1 iharray
    obtain ⟨hval, rfl⟩ := ihvalue
    rw [Items.insert, ← List.map_insertIdx]
    refine array_spec_iff.2 ⟨fun v hv => ?_, rfl⟩
    rcases (List.mem_insertIdx hidx).1 hv with rfl | hv
    · exact hval
    · exact hitems v hv
  | @pushBack items meanings value meaning harray hvalue iharray ihvalue =>
    obtain ⟨hitems, rfl⟩ := array_spec_iff.1 iharray
    obtain ⟨hval, rfl⟩ := ihvalue
    rw [Items.pushBack_eq, ← List.map_singleton, ← List.map_append]
    refine array_spec_iff.2 ⟨fun v hv => ?_, rfl⟩
    rcases List.mem_append.1 hv with hv | hv
    · exact hitems v hv
    · exact List.mem_singleton.1 hv ▸ hval
  | @setItem items meanings idx value meaning harray hvalue iharray ihvalue =>
    obtain ⟨hitems, rfl⟩ := array_spec_iff.1 iharray
    obtain ⟨hval, rfl⟩ := ihvalue
    rw [Items.set_eq, ← List.map_set]
    refine array_spec_iff.2 ⟨fun v hv => ?_, rfl⟩
    rcases List.mem_or_eq_of_mem_set hv with hv | rfl
    · exact hitems v hv
    · exact hval
  | @removeItem items meanings idx harray iharray =>
    obtain ⟨hitems, rfl⟩ := array_spec_iff.1 iharray
    rw [Items.remove_eq, List.eraseIdx_map]
    exact array_spec_iff.2 ⟨fun v hv => hitems v (List.mem_of_mem_eraseIdx hv), rfl⟩
  | string value => exact ⟨.string value, rfl⟩
  | number q =>
    refine ⟨.number ?_ (BinaryFloat.convert_convert _ _), rfl⟩
    rw [BinaryFloat.convert_finite, BinaryFloat.round]
    split_ifs <;> simp
  | bool value => exact ⟨.bool value, rfl⟩
  | nil => exact ⟨.nil, rfl⟩
  | copy hvalue ih =>
    rw [ih.1.copy_eq]
    exact ih

/-- **Values are canonical**: two trees that can be built are equal exactly if they denote the same
value, whatever their histories are; equal trees have the same text; the comparison is symmetric and
transitive; and a copy is equal to its original and has the same text. -/
theorem canonical_values {a b c : Value} {ja jb jc : Denotation} (ha : Built a ja)
    (hb : Built b jb) (hc : Built c jc) :
    (a.equals b = true ↔ ja = jb) ∧
      (a.equals b = true → ∀ outOfRange, a.serialize outOfRange = b.serialize outOfRange) ∧
      (a.equals b = true → b.equals a = true) ∧
      (a.equals b = true → b.equals c = true → a.equals c = true) ∧
      a.copy.equals a = true ∧ a.equals a.copy = true ∧
      ∀ outOfRange, a.copy.serialize outOfRange = a.serialize outOfRange := by
  obtain ⟨hca, rfl⟩ := ha.canonical
  obtain ⟨hcb, rfl⟩ := hb.canonical
  obtain ⟨hcc, rfl⟩ := hc.canonical
  simp only [hca.copy_eq, hca.equals_iff, hcb.equals_iff]
  refine ⟨⟨congrArg _, hca.ext hcb⟩, ?_, Eq.symm, Eq.trans, trivial, trivial, fun _ => trivial⟩
  rintro rfl _
  rfl

/-- Two members in either order, with a third one that is removed again. -/
theorem canonical_values_order :
    (Value.object (Object.set (Object.set [] [98] .nil) [97] (.bool true))).equals
      (.object (Object.set (Object.remove (Object.set (Object.set [] [97] (.bool true)) [99]
        (.array [])) [99]) [98] .nil)) = true :=
  (canonical_values
    (.set (.set .object (by decide) .nil) (by decide) (.bool true))
    (.set (.remove (.set (.set .object (by decide) (.bool true)) (by decide) .array) (by decide))
      (by decide) .nil) .nil).1.2 (by
    congr 1
    funext name
    simp only [Function.update_apply, storedName, keyLimit]
    split_ifs <;> simp_all)

end Histories

end RbProtocol.Json
