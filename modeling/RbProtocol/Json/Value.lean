import RbProtocol.Foundations.Strtod
import RbProtocol.Json.Members

/-!
# JSON values

`rbjson::Value` trees, their text (`Value.serialize`) and their comparison (`Value.equals`). A
number is a `float`; what the target's conversion of a value outside of the range of `long long`
gives is left open, as a parameter `outOfRange`.
-/

namespace RbProtocol.Json

open Ascii Library

/-- A JSON value. -/
inductive Value
  | object (members : List (Member Value))
  | array (items : List Value)
  | string (value : Bytes)
  | number (value : BinaryFloat)
  | bool (value : Bool)
  | nil

/-! ## Numbers -/

/-- `Number::Number`: the member is a `float`. -/
def mkNumber (value : BinaryFloat) : Value := .number (value.convert binary32)

/-- The constant `0.0001f`. -/
def fracLimit : ℚ := 13743895 / 2 ^ 37

/-- The conversion of a `float` to `long long`. -/
def toLongLong (outOfRange : BinaryFloat → ℤ) (value : BinaryFloat) : ℤ :=
  (value.toInt? (-2 ^ 63) (2 ^ 63 - 1)).getD (outOfRange value)

/-- `Number::serialize`. -/
def serializeNumber (outOfRange : BinaryFloat → ℤ) : BinaryFloat → Bytes
  | .finite q =>
    if |q - truncate q| < fracLimit then formatLongLong (toLongLong outOfRange (.finite q))
    else ftoa q
  | .infinite negative => formatLongLong (toLongLong outOfRange (.infinite negative))
  | .nan => [110, 97, 110]

/-! ## Strings -/

/-- The characters `write_string_escaped` escapes, with the character behind the backslash. -/
def escapes : List (UInt8 × UInt8) :=
  [(quote, quote), (backslash, backslash), (backspace, 98), (formFeed, 102), (newline, 110),
    (carriageReturn, 114), (tab, 116)]

/-- A character as `write_string_escaped` writes it. -/
def escapeChar (c : UInt8) : Bytes :=
  match escapes.lookup c with
  | some e => [backslash, e]
  | none => [c]

/-- `write_string_escaped`, on a C string. -/
def writeStringEscaped (str : Bytes) : Bytes := quote :: (cstr str).flatMap escapeChar ++ [quote]

/-! ## Serialization -/

section Serialize

variable (outOfRange : BinaryFloat → ℤ)

mutual

/-- `Value::serialize`. -/
def Value.serialize : Value → Bytes
  | .object members => openBrace :: serializeMembers members ++ [closeBrace]
  | .array items => openBracket :: serializeItems items ++ [closeBracket]
  | .string value => writeStringEscaped value
  | .number value => serializeNumber outOfRange value
  | .bool value => if value then [116, 114, 117, 101] else [102, 97, 108, 115, 101]
  | .nil => [110, 117, 108, 108]
termination_by structural v => v

/-- The loop of `Object::serialize`. -/
def serializeMembers : List (Member Value) → Bytes
  | [] => []
  | member :: members =>
    member.serialize ++ if members.isEmpty then [] else comma :: serializeMembers members
termination_by structural members => members

/-- One member in `Object::serialize`. -/
def Member.serialize : Member Value → Bytes
  | ⟨name, value⟩ => writeStringEscaped name ++ colon :: value.serialize
termination_by structural member => member

/-- The loop of `Array::serialize`. -/
def serializeItems : List Value → Bytes
  | [] => []
  | item :: items => item.serialize ++ if items.isEmpty then [] else comma :: serializeItems items
termination_by structural items => items

end

end Serialize

/-! ## Comparison -/

mutual

/-- `Value::equals`. -/
def Value.equals : Value → Value → Bool
  | .object a, .object b => equalMembers a b
  | .array a, .array b => equalItems a b
  | .string a, .string b => a = b
  | .number a, .number b => a.eq b
  | .bool a, .bool b => a = b
  | .nil, .nil => true
  | _, _ => false
termination_by structural v => v

/-- The loop of `Object::equals`, after the sizes were compared. -/
def equalMembers : List (Member Value) → List (Member Value) → Bool
  | [], [] => true
  | a :: as, b :: bs => a.equals b && equalMembers as bs
  | _, _ => false
termination_by structural members => members

/-- `Object::keyEqual` and the comparison of the values. -/
def Member.equals : Member Value → Member Value → Bool
  | ⟨name, value⟩, b => name = b.name && value.equals b.value
termination_by structural member => member

/-- The loop of `Array::equals`, after the sizes were compared. -/
def equalItems : List Value → List Value → Bool
  | [], [] => true
  | a :: as, b :: bs => a.equals b && equalItems as bs
  | _, _ => false
termination_by structural items => items

end

end RbProtocol.Json
