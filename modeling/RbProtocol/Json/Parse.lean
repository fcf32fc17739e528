import RbProtocol.Json.Jsmn
import RbProtocol.Json.Value

/-!
# Parsing JSON

`rbjson::parse`: the tokens of `jsmn`, and the walk over them that builds the values. A token is
found by its index, and only those that `jsmn_parse` wrote can be read; a text is the part of the
buffer between the two ends of its token. Everything else ends the run with a `Fault`.
-/

namespace RbProtocol.Json

open Ascii Library Jsmn

/-- A read that the tokens do not allow. -/
inductive Fault
  /-- A token that was not written. -/
  | unwrittenToken
  /-- A text that is not inside the buffer. -/
  | badText
  deriving DecidableEq

/-- The token at an index. -/
def readToken (tokens : List Token) (i : ℕ) : Except Fault Token :=
  match tokens[i]? with
  | none => .error .unwrittenToken
  | some token => .ok token

/-- `buf + tok->start` up to `tok->end`. -/
def tokenText (buf : Bytes) (token : Token) : Except Fault Bytes :=
  if 0 ≤ token.start ∧ token.start ≤ token.stop ∧ token.stop ≤ buf.length then
    .ok ((buf.drop token.start.toNat).take (token.stop - token.start).toNat)
  else .error .badText

theorem readToken_lt {tokens : List Token} {i : ℕ} {token : Token}
    (h : readToken tokens i = .ok token) : i < tokens.length := by
  rw [readToken] at h
  rcases ht : tokens[i]? with _ | t
  · rw [ht] at h
    cases h
  · exact (List.getElem?_eq_some_iff.1 ht).1

section Walk

variable (tokens : List Token)

mutual

/-- `count_tok_size`. -/
def countTokSize (i : ℕ) : Except Fault ℕ :=
  match h : readToken tokens i with
  | .error fault => .error fault
  | .ok tok =>
    have := readToken_lt h
    (countTokSizeLoop (i + 1) tok.size).map (· - i)
termination_by (tokens.length - i, 0, 0)
decreasing_by exact Prod.Lex.left _ _ (by omega)

/-- The loop of `count_tok_size`: `itr` after the tokens still to count. -/
def countTokSizeLoop (itr : ℕ) : ℕ → Except Fault ℕ
  | 0 => .ok itr
  | k + 1 =>
    match countTokSize itr with
    | .error fault => .error fault
    | .ok n => countTokSizeLoop (itr + n) k
termination_by k => (tokens.length - itr, 1, k)
decreasing_by
  · exact Prod.Lex.right _ (Prod.Lex.left _ _ (by omega))
  · rcases Nat.lt_or_ge (tokens.length - (itr + n)) (tokens.length - itr) with hlt | hge
    · exact Prod.Lex.left _ _ hlt
    · rw [show tokens.length - (itr + n) = tokens.length - itr by omega]
      exact Prod.Lex.right _ (Prod.Lex.right _ (by omega))

end

variable (buf : Bytes)

/-- The `JSMN_PRIMITIVE` case of `parse_value`. -/
def parsePrimitive (str : Bytes) : Option Value :=
  match str with
  | [] => none
  | c :: _ =>
    if c = 116 then some (.bool true)
    else if c = 102 then some (.bool false)
    else if c = 110 then some .nil
    else (strtod (snprintfPrefix 32 str.length str)).map mkNumber

/-- `res->set (key, val)` in `parse_object`, unless the value is the null pointer. -/
def setMember (key : Token) (val : Option Value) (res : List (Member Value)) :
    Except Fault (List (Member Value)) :=
  match val with
  | none => .ok res
  | some val => (tokenText buf key).map fun text => Object.set res text val

mutual

/-- `parse_value`; `none` is the null pointer. -/
def parseValue (i : ℕ) : Except Fault (Option Value) :=
  match h : readToken tokens i with
  | .error fault => .error fault
  | .ok tok =>
    have := readToken_lt h
    match tok.type with
    | .object => (parseObjectLoop (i + 1) tok.size []).map fun members => some (.object members)
    | .array => (parseArrayLoop (i + 1) tok.size []).map fun items => some (.array items)
    | .string => (tokenText buf tok).map fun text => some (.string text)
    | .primitive => (tokenText buf tok).map parsePrimitive
termination_by (tokens.length - i, 0, 0)
decreasing_by all_goals exact Prod.Lex.left _ _ (by omega)

/-- The loop of `parse_object`, at the token `tok`, with the members set so far. -/
def parseObjectLoop (tok : ℕ) (k : ℕ) (res : List (Member Value)) :
    Except Fault (List (Member Value)) :=
  match k with
  | 0 => .ok res
  | k + 1 =>
    match h : readToken tokens tok with
    | .error fault => .error fault
    | .ok key =>
      have := readToken_lt h
      if key.type ≠ .string ∨ key.size ≠ 1 then parseObjectLoop tok k res
      else
        match parseValue (tok + 1) with
        | .error fault => .error fault
        | .ok val =>
          match setMember buf key val res, countTokSize tokens tok with
          | .ok res, .ok n => parseObjectLoop (tok + n) k res
          | .error fault, _ => .error fault
          | _, .error fault => .error fault
termination_by (tokens.length - tok, 1, k)
decreasing_by
  · exact Prod.Lex.right _ (Prod.Lex.right _ (by omega))
  · exact Prod.Lex.left _ _ (by omega)
  · rcases Nat.lt_or_ge (tokens.length - (tok + n)) (tokens.length - tok) with hlt | hge
    · exact Prod.Lex.left _ _ hlt
    · rw [show tokens.length - (tok + n) = tokens.length - tok by omega]
      exact Prod.Lex.right _ (Prod.Lex.right _ (by omega))

/-- The loop of `parse_array`, at the token `tok`, with the items pushed so far. -/
def parseArrayLoop (tok : ℕ) (k : ℕ) (res : List Value) : Except Fault (List Value) :=
  match k with
  | 0 => .ok res
  | k + 1 =>
    match parseValue tok with
    | .error fault => .error fault
    | .ok val =>
      match countTokSize tokens tok with
      | .error fault => .error fault
      | .ok n => parseArrayLoop (tok + n) k (res ++ val.toList)
termination_by (tokens.length - tok, 1, k)
decreasing_by
  · exact Prod.Lex.right _ (Prod.Lex.left _ _ (by omega))
  · rcases Nat.lt_or_ge (tokens.length - (tok + n)) (tokens.length - tok) with hlt | hge
    · exact Prod.Lex.left _ _ hlt
    · rw [show tokens.length - (tok + n) = tokens.length - tok by omega]
      exact Prod.Lex.right _ (Prod.Lex.right _ (by omega))

end

end Walk

/-- `parse_object` on a token; `none` is the null pointer. -/
def parseObject (tokens : List Token) (buf : Bytes) (i : ℕ) :
    Except Fault (Option (List (Member Value))) := do
  let obj ← readToken tokens i
  if obj.type ≠ .object then return none
  else return some (← parseObjectLoop tokens buf (i + 1) obj.size [])

/-- The loop of `parse`: the number of tokens is doubled as long as there are not enough, up to a
limit of 128. `none` is the null pointer. -/
def parseTokens (buf : Bytes) (tokensSize : ℕ) : Option (List Token) :=
  match Jsmn.parse tokensSize buf with
  | .ok tokens => some tokens
  | .error .nomem =>
    if h : 128 ≤ tokensSize * 2 ∨ tokensSize = 0 then none else parseTokens buf (tokensSize * 2)
  | .error _ => none
termination_by 128 - tokensSize
decreasing_by omega

/-- `rbjson::parse`; `none` is the null pointer. -/
def parse (buf : Bytes) : Except Fault (Option (List (Member Value))) :=
  match parseTokens buf 32 with
  | none => .ok none
  | some tokens => parseObject tokens buf 0

end RbProtocol.Json
