import RbProtocol.Foundations.Ascii
import RbProtocol.Library.Lists

/-!
# The tokenizer `jsmn`

`jsmn_parse` as it is compiled here: not strict and without parent links. The tokens written so far
are a list, so that `toknext` is its length; `toksuper` is the token whose size the next token
increments. Offsets are integers, because −1 stands for an end that is not known yet.
-/

namespace RbProtocol.Json.Jsmn

open Ascii Library

/-- `jsmntype_t`. -/
inductive TokType
  | object
  | array
  | string
  | primitive
  deriving DecidableEq

/-- `jsmntok_t`. -/
structure Token where
  type : TokType
  start : ℤ
  stop : ℤ
  size : ℕ
  deriving DecidableEq

/-- `jsmnerr`. -/
inductive Error
  | nomem
  | inval
  | part
  deriving DecidableEq

/-- `jsmn_parser`, with the tokens it has written. -/
structure Parser where
  pos : ℕ
  tokens : List Token
  toksuper : Option ℕ

/-- An object or array whose end is not known yet. -/
def Token.isOpen (token : Token) : Bool := token.start ≠ -1 && token.stop = -1

/-- A token of type object or array. -/
def Token.isContainer (token : Token) : Bool := token.type = .array || token.type = .object

/-- `tokens[toksuper].size++`, unless `toksuper` is −1. -/
def bumpSuper (toksuper : Option ℕ) (tokens : List Token) : List Token :=
  match toksuper with
  | none => tokens
  | some i => tokens.modify i fun token => { token with size := token.size + 1 }

/-- `jsmn_alloc_token` and `jsmn_fill_token`. -/
def allocToken (numTokens : ℕ) (tokens : List Token) (token : Token) : Except Error (List Token) :=
  if numTokens ≤ tokens.length then .error .nomem else .ok (tokens ++ [token])

/-- The characters that end a primitive. -/
def endsPrimitive (c : UInt8) : Bool :=
  c ∈ [colon, tab, carriageReturn, newline, space, comma, closeBracket, closeBrace]

/-- The loop of `jsmn_parse_primitive`: the length of the primitive. -/
def primitiveLength : Bytes → Except Error ℕ
  | [] => .ok 0
  | c :: rest =>
    if c = nul || endsPrimitive c then .ok 0
    else if c < 32 || 127 ≤ c then .error .inval
    else (primitiveLength rest).map (· + 1)

/-- Where `jsmn_parse_string` is in a string: between two characters, behind a backslash, or in
front of a digit of a `\u` escape that `more` digits follow. -/
inductive Scan
  | plain
  | escape
  | hex (more : ℕ)

/-- One character of a string; `none` is its end. -/
def Scan.next (c : UInt8) : Scan → Except Error (Option Scan)
  | .plain =>
    if c = nul then .error .part
    else if c = quote then .ok none
    else .ok (some (if c = backslash then .escape else .plain))
  | .escape =>
    if c ∈ [quote, slash, backslash, 98, 102, 114, 110, 116] then .ok (some .plain)
    else if c = 117 then .ok (some (.hex 3))
    else .error .inval
  | .hex more =>
    if c = nul then .error .part
    else if isHexDigit c then .ok (some (if more = 0 then .plain else .hex (more - 1)))
    else .error .inval

/-- The loop of `jsmn_parse_string` behind the opening quote: the length of the string. -/
def stringLength (scan : Scan) : Bytes → Except Error ℕ
  | [] => .error .part
  | c :: rest =>
    match scan.next c with
    | .error e => .error e
    | .ok none => .ok 0
    | .ok (some scan) => (stringLength scan rest).map (· + 1)

/-- `{` and `[`. -/
def openContainer (numTokens : ℕ) (type : TokType) (p : Parser) : Except Error (Parser × ℕ) :=
  (allocToken numTokens p.tokens { type := type, start := p.pos, stop := -1, size := 0 }).map
    fun tokens =>
      ({ p with tokens := bumpSuper p.toksuper tokens, toksuper := some p.tokens.length }, 0)

/-- `}` and `]`. -/
def closeContainer (type : TokType) (p : Parser) : Except Error (Parser × ℕ) :=
  match lastIdx? Token.isOpen p.tokens with
  | none => .error .inval
  | some i =>
    if (p.tokens[i]?.map Token.type) ≠ some type then .error .inval
    else
      let tokens := p.tokens.modify i fun token => { token with stop := p.pos + 1 }
      .ok ({ p with tokens := tokens, toksuper := lastIdx? Token.isOpen (tokens.take (i + 1)) }, 0)

/-- A string or a primitive that was scanned. -/
def addScalar (numTokens : ℕ) (token : Token) (p : Parser) : Except Error Parser :=
  (allocToken numTokens p.tokens token).map fun tokens =>
    { p with tokens := bumpSuper p.toksuper tokens }

/-- `:`. -/
def colonStep (p : Parser) : Parser :=
  { p with toksuper := if p.tokens.isEmpty then none else some (p.tokens.length - 1) }

/-- `,`. -/
def commaStep (p : Parser) : Parser :=
  match p.toksuper.bind (p.tokens[·]?) with
  | none => p
  | some token =>
    if token.isContainer then p
    else
      match lastIdx? (fun token => token.isContainer && token.isOpen) p.tokens with
      | none => p
      | some i => { p with toksuper := some i }

/-- One character of `jsmn_parse`, and how many more are consumed with it. -/
def step (numTokens : ℕ) (c : UInt8) (rest : Bytes) (p : Parser) : Except Error (Parser × ℕ) :=
  if c = openBrace then openContainer numTokens .object p
  else if c = openBracket then openContainer numTokens .array p
  else if c = closeBrace then closeContainer .object p
  else if c = closeBracket then closeContainer .array p
  else if c = quote then do
    let len ← stringLength .plain rest
    let p ← addScalar numTokens
      { type := .string, start := p.pos + 1, stop := p.pos + 1 + len, size := 0 } p
    return (p, len + 1)
  else if c = tab || c = carriageReturn || c = newline || c = space then .ok (p, 0)
  else if c = colon then .ok (colonStep p, 0)
  else if c = comma then .ok (commaStep p, 0)
  else do
    let len ← primitiveLength (c :: rest)
    let p ← addScalar numTokens
      { type := .primitive, start := p.pos, stop := p.pos + len, size := 0 } p
    return (p, len - 1)

/-- The loop of `jsmn_parse`. -/
def parseLoop (numTokens : ℕ) : Bytes → Parser → Except Error Parser
  | [], p => .ok p
  | c :: rest, p =>
    if c = nul then .ok p
    else
      match step numTokens c rest p with
      | .error e => .error e
      | .ok (q, n) => parseLoop numTokens (rest.drop n) { q with pos := p.pos + n + 1 }
termination_by js => js.length
decreasing_by
  rw [List.length_drop, List.length_cons]
  omega

/-- `jsmn_init` and `jsmn_parse`. Its return value is the number of tokens. -/
def parse (numTokens : ℕ) (js : Bytes) : Except Error (List Token) := do
  let p ← parseLoop numTokens js { pos := 0, tokens := [], toksuper := none }
  if (lastIdx? Token.isOpen p.tokens).isSome then .error .part else .ok p.tokens

end RbProtocol.Json.Jsmn
