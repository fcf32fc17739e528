import RbProtocol.Library.SortedMap
import RbProtocol.Foundations.Bytes

/-!
# The members of a JSON object

`rbjson::Object` keeps its members in one vector, sorted by name, and finds them by binary search.
The comparator of the search is `strncmp` limited to the length of the probed key, while the
final test compares a stored length and the bytes; keys count up to their first 254 bytes.

On keys without NUL the two agree (`keyLess_iff`, `keyEqualStr_iff`): both order the stored names
against the first 254 bytes of the key. Hence each operation edits the members at a split of the
sorted vector (`set_split`, `remove_split`, `get_split`), and any sequence of `set` and `remove`
calls acts as point updates of a finite map (`members_refine_fieldMap`).
-/

namespace RbProtocol.Json

open Library

/-- A member of an object. `name` is the stored name without its terminator, so that `name_len` is
its length. -/
structure Member (V : Type*) where
  name : Bytes
  value : V

/-- The number of bytes of a key that count. -/
def keyLimit : ℕ := 254

/-- The part of a key under which a member is stored. -/
def storedName (key : Bytes) : Bytes := key.take keyLimit

namespace Object

variable {V : Type*}

/-- `Object::keyLess`. -/
def keyLess (member : Member V) (key : Bytes) : Bool :=
  strncmp (min keyLimit key.length) member.name key < 0

/-- `Object::keyEqualStr`. -/
def keyEqualStr (a : Member V) (key : Bytes) : Bool :=
  let keyLen := min keyLimit key.length
  if a.name.length ≠ keyLen then false
  else a.name = key.take a.name.length

/-- `Object::lower_bound`. -/
def lowerBound (members : List (Member V)) (key : Bytes) : ℕ :=
  Library.lowerBound (fun member => keyLess member key) members

/-- The test every operation makes at the lower bound: it is not the end, and its name is the
key. -/
def foundAt (members : List (Member V)) (lower : ℕ) (key : Bytes) : Bool :=
  members[lower]?.any fun member => keyEqualStr member key

/-- `Object::contains`. -/
def contains (members : List (Member V)) (key : Bytes) : Bool :=
  foundAt members (lowerBound members key) key

/-- `Object::get`; `none` is the null pointer. -/
def get (members : List (Member V)) (key : Bytes) : Option V :=
  let lower := lowerBound members key
  if foundAt members lower key then members[lower]?.map Member.value else none

/-- `Object::set`. -/
def set (members : List (Member V)) (key : Bytes) (value : V) : List (Member V) :=
  let lower := lowerBound members key
  if foundAt members lower key then
    members.modify lower fun member => { member with value := value }
  else
    members.insertIdx lower { name := key.take (min keyLimit key.length), value := value }

/-- `Object::remove`. -/
def remove (members : List (Member V)) (key : Bytes) : List (Member V) :=
  let lower := lowerBound members key
  if foundAt members lower key then members.eraseIdx lower else members

/-! ## The two comparisons -/

theorem take_min_keyLimit (key : Bytes) : key.take (min keyLimit key.length) = storedName key := by
  rw [storedName, List.take_eq_take_iff]
  omega

@[simp] theorem keyEqualStr_iff (a : Member V) (key : Bytes) :
    keyEqualStr a key = true ↔ a.name = storedName key := by
  rw [keyEqualStr]
  constructor
  · intro h
    split_ifs at h with hlen
    rw [← take_min_keyLimit, ← not_not.1 hlen]
    exact of_decide_eq_true h
  · intro h
    have hlen : a.name.length = min keyLimit key.length := by rw [h, storedName, List.length_take]
    rw [if_neg (not_not.2 hlen), hlen, take_min_keyLimit]
    exact decide_eq_true h

theorem keyLess_iff {a : Member V} {key : Bytes} (ha : 0 ∉ a.name) (hkey : 0 ∉ key) :
    keyLess a key = true ↔ a.name < storedName key := by
  rw [keyLess, decide_eq_true_iff, strncmp_neg_iff ha hkey (min_le_right _ _), take_min_keyLimit]

/-! ## The members as a sorted map -/

/-- What every reachable member vector satisfies: the names increase strictly, have at most 254
bytes and contain no NUL. -/
structure WellFormed (members : List (Member V)) : Prop where
  sorted : KeySorted Member.name members
  nulFree : ∀ member ∈ members, 0 ∉ member.name
  length_le : ∀ member ∈ members, member.name.length ≤ keyLimit

theorem wellFormed_nil : WellFormed ([] : List (Member V)) := ⟨.nil, by simp, by simp⟩

theorem storedName_nulFree {key : Bytes} (h : 0 ∉ key) : 0 ∉ storedName key :=
  fun hmem => h (List.mem_of_mem_take hmem)

theorem length_storedName_le (key : Bytes) : (storedName key).length ≤ keyLimit := by
  rw [storedName, List.length_take]
  exact min_le_left _ _

/-- A well-formed vector splits at every key. -/
theorem WellFormed.exists_splitAt {members : List (Member V)} (h : WellFormed members)
    (key : Bytes) : ∃ l₁ mid l₂, members = l₁ ++ (Option.toList mid ++ l₂) ∧
      SplitAt Member.name (storedName key) l₁ mid l₂ :=
  h.sorted.exists_splitAt (storedName key)

section Split

variable {key : Bytes} {l₁ l₂ : List (Member V)} {mid : Option (Member V)}

/-- The search finds the middle of the split. -/
theorem lowerBound_split (hs : SplitAt Member.name (storedName key) l₁ mid l₂)
    (hnul : ∀ member ∈ l₁ ++ (mid.toList ++ l₂), 0 ∉ member.name) (hkey : 0 ∉ key) :
    lowerBound (l₁ ++ (mid.toList ++ l₂)) key = l₁.length := by
  have hless : ∀ member ∈ l₁ ++ (mid.toList ++ l₂),
      (keyLess member key = true ↔ member.name < storedName key) := fun member hm =>
    keyLess_iff (hnul member hm) hkey
  refine lowerBound_append (fun member hm => ?_) (fun member hm => ?_)
  · exact (hless member (List.mem_append_left _ hm)).2 (hs.below member hm)
  · rw [Bool.eq_false_iff, ne_eq, hless member (List.mem_append_right _ hm)]
    rcases List.mem_append.1 hm with hm | hm
    · rw [hs.at_mid member (by simpa using hm)]
      exact irrefl_of (· < ·) _
    · exact not_key_lt (hs.above member hm)

/-- The test at the middle of the split tells whether the key has a member. -/
theorem foundAt_split (hs : SplitAt Member.name (storedName key) l₁ mid l₂) :
    foundAt (l₁ ++ (mid.toList ++ l₂)) l₁.length key = mid.isSome := by
  rw [foundAt, List.getElem?_append_right le_rfl, Nat.sub_self]
  cases mid with
  | some b => simpa using hs.at_mid b rfl
  | none =>
    cases l₂ with
    | nil => rfl
    | cons b l₂ =>
      have hb := ne_of_key_lt (hs.above b (List.mem_cons_self ..))
      simp [Bool.eq_false_iff, hb.symm]

variable (hs : SplitAt Member.name (storedName key) l₁ mid l₂)
  (hnul : ∀ member ∈ l₁ ++ (mid.toList ++ l₂), 0 ∉ member.name) (hkey : 0 ∉ key)
include hs hnul hkey

theorem contains_split : contains (l₁ ++ (mid.toList ++ l₂)) key = mid.isSome := by
  rw [contains, lowerBound_split hs hnul hkey, foundAt_split hs]

theorem get_split : get (l₁ ++ (mid.toList ++ l₂)) key = mid.map Member.value := by
  rw [get, lowerBound_split hs hnul hkey, foundAt_split hs]
  cases mid with
  | none => rfl
  | some b => simp

theorem set_split (value : V) : set (l₁ ++ (mid.toList ++ l₂)) key value =
    l₁ ++ ((some (Member.mk (storedName key) value)).toList ++ l₂) := by
  rw [set, lowerBound_split hs hnul hkey, foundAt_split hs, take_min_keyLimit]
  cases mid with
  | none => simp [insertIdx_length_append]
  | some b => simp [modify_length_append, hs.at_mid b rfl]

theorem remove_split : remove (l₁ ++ (mid.toList ++ l₂)) key =
    l₁ ++ ((none : Option (Member V)).toList ++ l₂) := by
  rw [remove, lowerBound_split hs hnul hkey, foundAt_split hs]
  cases mid with
  | none => simp
  | some b => simp [List.eraseIdx_append_of_length_le]

end Split

/-! ## The finite map -/

/-- A call that changes the members. -/
inductive Op (V : Type*)
  | set (key : Bytes) (value : V)
  | remove (key : Bytes)

/-- The key of a call. -/
def Op.key : Op V → Bytes
  | .set key _ => key
  | .remove key => key

/-- The call, on the members. -/
def Op.apply (members : List (Member V)) : Op V → List (Member V)
  | .set key value => Object.set members key value
  | .remove key => Object.remove members key

/-- The call, on a finite map keyed by the first 254 bytes: the last `set` wins and `remove`
deletes its own key only. -/
def Op.applyMap (fields : Bytes → Option V) : Op V → Bytes → Option V
  | .set key value => Function.update fields (storedName key) (some value)
  | .remove key => Function.update fields (storedName key) none

/-- The finite map that a member vector stands for. -/
def fieldMap (members : List (Member V)) (name : Bytes) : Option V :=
  (toMap Member.name members name).map Member.value

variable {members : List (Member V)} {key : Bytes}

theorem get_eq_fieldMap (h : WellFormed members) (hkey : 0 ∉ key) :
    get members key = fieldMap members (storedName key) := by
  obtain ⟨l₁, mid, l₂, rfl, hs⟩ := h.exists_splitAt key
  rw [get_split hs h.nulFree hkey, fieldMap, hs.toMap_self]

theorem contains_eq_fieldMap (h : WellFormed members) (hkey : 0 ∉ key) :
    contains members key = (fieldMap members (storedName key)).isSome := by
  obtain ⟨l₁, mid, l₂, rfl, hs⟩ := h.exists_splitAt key
  rw [contains_split hs h.nulFree hkey, fieldMap, hs.toMap_self, Option.isSome_map]

/-- A well-formed vector is determined by the map it stands for. -/
theorem WellFormed.ext {members' : List (Member V)} (h : WellFormed members)
    (h' : WellFormed members') (hmap : fieldMap members = fieldMap members') :
    members = members' := by
  have hrecord {l : List (Member V)} {name : Bytes} {member : Member V}
      (hfind : toMap Member.name l name = some member) :
      member = ⟨name, member.value⟩ ∧ fieldMap l name = some member.value := by
    have hname : member.name = name := by simpa using List.find?_some hfind
    rw [fieldMap, hfind]
    subst hname
    exact ⟨rfl, rfl⟩
  refine h.sorted.ext h'.sorted (funext fun name => ?_)
  have hvalue := congrFun hmap name
  cases hl : toMap Member.name members name with
  | none =>
    rw [fieldMap, hl] at hvalue
    exact (Option.map_eq_none_iff.1 hvalue.symm).symm
  | some member =>
    obtain ⟨hmember, hmap₁⟩ := hrecord hl
    rw [hmap₁] at hvalue
    obtain ⟨member', hl', hval⟩ := Option.map_eq_some_iff.1 hvalue.symm
    obtain ⟨hmember', -⟩ := hrecord hl'
    rw [hl', hmember, hmember', hval]

/-- Editing the middle of a split of a well-formed vector keeps it well formed. -/
theorem WellFormed.edit {l₁ l₂ : List (Member V)} {mid mid' : Option (Member V)}
    (h : WellFormed (l₁ ++ (mid.toList ++ l₂)))
    (hs : SplitAt Member.name (storedName key) l₁ mid l₂)
    (h' : ∀ member ∈ mid', member.name = storedName key) (hkey : 0 ∉ key) :
    WellFormed (l₁ ++ (mid'.toList ++ l₂)) := by
  have hmem : ∀ member ∈ l₁ ++ (mid'.toList ++ l₂),
      member ∈ l₁ ++ (mid.toList ++ l₂) ∨ member.name = storedName key := by
    intro member hm
    simp only [List.mem_append, Option.mem_toList] at hm ⊢
    rcases hm with hm | hm | hm
    · exact .inl (.inl hm)
    · exact .inr (h' member hm)
    · exact .inl (.inr (.inr hm))
  refine ⟨(hs.edit h').keySorted, fun member hm => ?_, fun member hm => ?_⟩
  · rcases hmem member hm with hm | hm
    · exact h.nulFree member hm
    · exact hm ▸ storedName_nulFree hkey
  · rcases hmem member hm with hm | hm
    · exact h.length_le member hm
    · exact hm ▸ length_storedName_le key

/-- Editing the middle of a split is a point update of the map the vector stands for. -/
theorem fieldMap_edit {l₁ l₂ : List (Member V)} {mid mid' : Option (Member V)}
    (hs : SplitAt Member.name (storedName key) l₁ mid l₂)
    (h' : ∀ member ∈ mid', member.name = storedName key) :
    fieldMap (l₁ ++ (mid'.toList ++ l₂)) = Function.update (fieldMap (l₁ ++ (mid.toList ++ l₂)))
      (storedName key) (mid'.map Member.value) := by
  change Option.map Member.value ∘ toMap Member.name _ = _
  rw [hs.toMap_edit h', Function.comp_update]
  rfl

/-- One call keeps the vector well formed and acts on the map it stands for. -/
theorem apply_spec (op : Op V) (h : WellFormed members) (hkey : 0 ∉ op.key) :
    WellFormed (op.apply members) ∧
      fieldMap (op.apply members) = op.applyMap (fieldMap members) := by
  cases op with
  | set key value =>
    obtain ⟨l₁, mid, l₂, rfl, hs⟩ := h.exists_splitAt key
    have h' : ∀ member ∈ some (Member.mk (storedName key) value), member.name = storedName key := by
      rintro _ ⟨⟩
      rfl
    rw [Op.apply, set_split hs h.nulFree hkey]
    exact ⟨h.edit hs h' hkey, fieldMap_edit hs h'⟩
  | remove key =>
    obtain ⟨l₁, mid, l₂, rfl, hs⟩ := h.exists_splitAt key
    have h' : ∀ member ∈ (none : Option (Member V)), member.name = storedName key := by simp
    rw [Op.apply, remove_split hs h.nulFree hkey]
    exact ⟨h.edit hs h' hkey, fieldMap_edit hs h'⟩

/-- A sequence of calls keeps the vector well formed and acts on the map call by call. -/
theorem foldl_apply_spec (ops : List (Op V)) (hops : ∀ op ∈ ops, 0 ∉ op.key)
    (h : WellFormed members) : WellFormed (ops.foldl Op.apply members) ∧
      fieldMap (ops.foldl Op.apply members) = ops.foldl Op.applyMap (fieldMap members) := by
  induction ops generalizing members with
  | nil => exact ⟨h, rfl⟩
  | cons op ops ih =>
    obtain ⟨hwf, hmap⟩ := apply_spec op h (hops op (List.mem_cons_self ..))
    have htail := ih (fun op' hop' => hops op' (List.mem_cons_of_mem _ hop')) hwf
    rwa [hmap] at htail

/-- **The members refine a finite map** keyed by the first 254 bytes: after any calls of `set` and
`remove` on an empty object the names are strictly sorted, distinct and at most 254 bytes long, and
`get` and `contains` read exactly what the map holds. -/
theorem members_refine_fieldMap (ops : List (Op V)) (hops : ∀ op ∈ ops, 0 ∉ op.key) :
    let members := ops.foldl Op.apply []
    let fields := ops.foldl Op.applyMap fun _ => none
    (KeySorted Member.name members ∧ (members.map Member.name).Nodup ∧
      ∀ member ∈ members, member.name.length ≤ 254) ∧
    ∀ key, 0 ∉ key → get members key = fields (key.take 254) ∧
      contains members key = (fields (key.take 254)).isSome := by
  intro members fields
  obtain ⟨hwf, hmap⟩ := foldl_apply_spec ops hops (wellFormed_nil (V := V))
  have hfields : fieldMap members = fields := hmap
  refine ⟨⟨hwf.sorted, ?_, hwf.length_le⟩, fun key hkey => ?_⟩
  · exact List.pairwise_map.2 (hwf.sorted.imp fun hlt => ne_of_key_lt hlt)
  · rw [get_eq_fieldMap hwf hkey, contains_eq_fieldMap hwf hkey, hfields]
    exact ⟨rfl, rfl⟩

/-- Keys that are prefixes of each other keep members of their own, the empty key included. -/
theorem members_refine_fieldMap_prefixes :
    let members := [Op.set [97, 98] 1, .set [97] 2, .set [] 3, .set [97, 200] 4,
      .remove [97, 98]].foldl
      Op.apply ([] : List (Member ℕ))
    get members [97] = some 2 ∧ get members [97, 98] = none ∧ get members [97, 200] = some 4 := by
  have h := (members_refine_fieldMap (V := ℕ)
    [.set [97, 98] 1, .set [97] 2, .set [] 3, .set [97, 200] 4, .remove [97, 98]] (by decide)).2
  refine ⟨(h [97] (by decide)).1.trans ?_, (h [97, 98] (by decide)).1.trans ?_,
    (h [97, 200] (by decide)).1.trans ?_⟩
  all_goals simp [Op.applyMap, storedName, keyLimit]

end Object

end RbProtocol.Json
