import RbProtocol.Json.Value

/-!
# Packets

A packet is an object as its operations build it: its members are well formed, so that `get` reads
back what `set` has written (`Packet.get_set`). `getString` and `getInt` are the typed reads, with
the conversion of a number to an integer of the target.
-/

namespace RbProtocol.Json

open Library

/-- The key of a member: a string without NUL. -/
structure Key where
  bytes : Bytes
  nulFree : 0 ∉ bytes

/-- An object built by its operations. -/
structure Packet where
  members : List (Member Value)
  wellFormed : Object.WellFormed members

namespace Packet

/-- An object without members. -/
def empty : Packet := ⟨[], Object.wellFormed_nil⟩

/-- `Object::set`. -/
def set (pkt : Packet) (key : Key) (value : Value) : Packet :=
  ⟨Object.set pkt.members key.bytes value,
    (Object.apply_spec (.set key.bytes value) pkt.wellFormed key.nulFree).1⟩

/-- `Object::contains`. -/
def contains (pkt : Packet) (key : Key) : Bool := Object.contains pkt.members key.bytes

/-- `Object::get`. -/
def get (pkt : Packet) (key : Key) : Option Value := Object.get pkt.members key.bytes

/-- `Object::getString`. -/
def getString (pkt : Packet) (key : Key) (dflt : Bytes := []) : Bytes :=
  match pkt.get key with
  | some (.string value) => value
  | _ => dflt

/-- `Object::getInt`. -/
def getInt (outOfRange : BinaryFloat → ℤ) (pkt : Packet) (key : Key) (dflt : ℤ := 0) : ℤ :=
  match pkt.get key with
  | some (.number value) => toLongLong outOfRange value
  | _ => dflt

/-- The text of the object. -/
def str (outOfRange : BinaryFloat → ℤ) (pkt : Packet) : Bytes :=
  (Value.object pkt.members).serialize outOfRange

/-- Reading a key back. -/
theorem get_set (pkt : Packet) (key key' : Key) (value : Value) :
    (pkt.set key value).get key' =
      if storedName key'.bytes = storedName key.bytes then some value else pkt.get key' := by
  obtain ⟨hwf, hmap⟩ := Object.apply_spec (.set key.bytes value) pkt.wellFormed key.nulFree
  rw [get, get, Object.get_eq_fieldMap pkt.wellFormed key'.nulFree]
  refine (Object.get_eq_fieldMap hwf key'.nulFree).trans ?_
  rw [hmap, Object.Op.applyMap, Function.update_apply]

@[simp] theorem get_empty (key : Key) : empty.get key = none := by
  rw [get, Object.get_eq_fieldMap empty.wellFormed key.nulFree]
  rfl

theorem contains_eq_isSome_get (pkt : Packet) (key : Key) :
    pkt.contains key = (pkt.get key).isSome := by
  rw [contains, get, Object.contains_eq_fieldMap pkt.wellFormed key.nulFree,
    Object.get_eq_fieldMap pkt.wellFormed key.nulFree]

end Packet

/-- A number made from an integer: `int` and `int64_t` arguments convert to `double` first. -/
def intNumber (n : ℤ) : Value := mkNumber (.round binary64 n)

/-- **Integers of at most 24 bits are stored as they are.** -/
theorem intNumber_eq {n : ℤ} (h : |n| ≤ 2 ^ 24) : intNumber n = .number (.finite n) := by
  have h64 : |n| ≤ 2 ^ binary64.prec := h.trans (by decide)
  rw [intNumber, mkNumber, BinaryFloat.round_intCast h64, BinaryFloat.convert_finite,
    BinaryFloat.round_intCast h]

/-- A stored integer of at most 24 bits reads back as it was. -/
theorem toLongLong_intCast (outOfRange : BinaryFloat → ℤ) {n : ℤ} (h : |n| ≤ 2 ^ 24) :
    toLongLong outOfRange (.finite n) = n := by
  obtain ⟨hlo, hhi⟩ := abs_le.1 h
  rw [toLongLong, BinaryFloat.toInt?_intCast (by omega) (by omega), Option.getD_some]

end RbProtocol.Json
