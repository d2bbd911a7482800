import Goqjs.EngineText
import Goqjs.Binary64

/-!
# JSON in the engine

`JS_ParseJSON` reads bytes, one token ahead. `json()` of a response gives it the bytes of the body;
`JSON.parse` gives it the UTF-8 of a string. An error is the format of its message; positions and
the other arguments of the format are left out. Past the end of the buffer stands a NUL.
-/

namespace Quickjs

open Binary64

/-- A value without an identity. Fields stand in the order of their first definition. -/
inductive Json where
  | null
  | bool (b : Bool)
  | number (d : Double)
  | string (s : Units)
  | array (elements : List Json)
  | object (fields : List (Units × Json))

/-- `s->token`; a character that starts no other token is a token of its own. -/
inductive Token where
  | string (s : Units)
  | number (d : Double)
  | ident (name : Bytes)
  | char (c : UInt8)

def endOfInput : String := "Unexpected end of JSON input"

/-- `from_hex`. -/
def fromHex (c : Nat) : Option Nat :=
  if 0x30 ≤ c ∧ c ≤ 0x39 then some (c - 0x30)
  else if 0x41 ≤ c ∧ c ≤ 0x46 then some (c - 0x41 + 10)
  else if 0x61 ≤ c ∧ c ≤ 0x66 then some (c - 0x61 + 10)
  else none

section Escape

variable {β : Type} (val : β → Nat)

/-- `n` more digits of a `\u` escape. -/
def jsonHexDigits : Nat → Nat → List β → Except String (Nat × List β)
  | 0, c, p => .ok (c, p)
  | _ + 1, _, [] => .error "Bad Unicode escape"
  | n + 1, c, h :: p =>
    match fromHex (val h) with
    | none => .error "Bad Unicode escape"
    | some d => jsonHexDigits n (c <<< 4 ||| d) p

/-- The characters that an escape of two stands for: `b`, `f`, `n`, `r`, `t` and three themselves. -/
def jsonShortEscape (c : Nat) : Option Nat :=
  if c = 0x62 then some 0x08
  else if c = 0x66 then some 0x0C
  else if c = 0x6E then some 0x0A
  else if c = 0x72 then some 0x0D
  else if c = 0x74 then some 0x09
  else if c = 0x22 ∨ c = 0x5C ∨ c = 0x2F then some c
  else none

/-- What stands behind a backslash. -/
def jsonEscape : List β → Except String (Nat × List β)
  | [] => .error endOfInput
  | c :: p =>
    if val c = 0x75 then jsonHexDigits val 4 0 p
    else
      match jsonShortEscape (val c) with
      | some x => .ok (x, p)
      | none => .error "Bad escaped character"

end Escape

/-- The loop of `json_parse_string`: each turn takes a byte at least. -/
def jsonParseStringFrom : Nat → Bytes → Except String (Units × Bytes)
  | 0, _ => .error endOfInput
  | _ + 1, [] => .error endOfInput
  | n + 1, c :: p =>
    if c.toNat = 0x22 then .ok ([], p)
    else if c.toNat < 0x20 then .error "Bad control character in string literal"
    else if c.toNat = 0x5C then do
      let (x, p) ← jsonEscape UInt8.toNat p
      let (s, p) ← jsonParseStringFrom n p
      return (wordsOf x ++ s, p)
    else if 0x80 ≤ c.toNat then
      let (x, next) := utf8Decode c p
      if next.length == p.length then .error "Bad UTF-8 sequence"
      else do
        let (s, p) ← jsonParseStringFrom n next
        return (wordsOf x ++ s, p)
    else do
      let (s, p) ← jsonParseStringFrom n p
      return (wordsOf c.toNat ++ s, p)

/-- `json_parse_string`, behind the opening quote. -/
def jsonParseString (p : Bytes) : Except String (Units × Bytes) := jsonParseStringFrom p.length p

def isDigit (c : UInt8) : Bool := 0x30 ≤ c.toNat && c.toNat ≤ 0x39

/-- `*p`. -/
def peek (p : Bytes) : UInt8 := p.headD 0

/-- An optional sign. -/
def jsonSign (p : Bytes) : Bytes × Bytes :=
  match p with
  | [] => ([], [])
  | c :: rest => if c.toNat = 0x2B ∨ c.toNat = 0x2D then ([c], rest) else ([], c :: rest)

/-- `while (is_digit(*p)) p++`. -/
def digits (p : Bytes) : Bytes × Bytes := (p.takeWhile isDigit, p.dropWhile isDigit)

def jsonFraction (p : Bytes) : Except String (Bytes × Bytes) :=
  match p with
  | [] => .ok ([], [])
  | c :: rest =>
    if c.toNat = 0x2E then
      if !isDigit (peek rest) then .error "Unterminated fractional number"
      else .ok (c :: (digits rest).1, (digits rest).2)
    else .ok ([], c :: rest)

def jsonExponent (p : Bytes) : Except String (Bytes × Bytes) :=
  match p with
  | [] => .ok ([], [])
  | c :: rest =>
    if c.toNat = 0x65 ∨ c.toNat = 0x45 then
      let (sign, rest) := jsonSign rest
      if !isDigit (peek rest) then .error "Exponent part is missing a number"
      else .ok (c :: sign ++ (digits rest).1, (digits rest).2)
    else .ok ([], c :: rest)

/-- The text that `json_parse_number` hands to `strtod`. What stands behind it can only make
`strtod` see a hexadecimal number, and then the next token is an error. -/
def jsonParseNumber (p : Bytes) : Except String (Bytes × Bytes) := do
  let (sign, p) := jsonSign p
  if !isDigit (peek p) then throw "Unexpected token '%c'"
  else if (peek p).toNat = 0x30 && isDigit (peek p.tail) then throw "Unexpected number"
  else
    let (int, p) := digits p
    let (fraction, p) ← jsonFraction p
    let (exponent, p) ← jsonExponent p
    return (sign ++ int ++ fraction ++ exponent, p)

def isIdentFirst (c : UInt8) : Bool :=
  (0x41 ≤ c.toNat && c.toNat ≤ 0x5A) || (0x61 ≤ c.toNat && c.toNat ≤ 0x7A) ||
    c.toNat = 0x5F || c.toNat = 0x24

/-- `lre_id_continue_table_ascii`. -/
def isIdentContinue (c : UInt8) : Bool := isIdentFirst c || isDigit c

section Tokens

variable (strtod : Bytes → Double)

/-- `json_next_token`; `none` is the end of the buffer. -/
def jsonNextToken : Bytes → Except String (Option (Token × Bytes))
  | [] => .ok none
  | c :: p =>
    if c.toNat = 0x22 then do
      let (s, p) ← jsonParseString p
      return some (.string s, p)
    else if c.toNat = 0x0D ∨ c.toNat = 0x0A ∨ c.toNat = 0x20 ∨ c.toNat = 0x09 then jsonNextToken p
    else if isIdentFirst c then
      .ok (some (.ident (c :: p.takeWhile isIdentContinue), p.dropWhile isIdentContinue))
    else if c.toNat = 0x2D && !isDigit (peek p) then .error "No number after minus sign"
    else if c.toNat = 0x30 && isDigit (peek p) then .error "Unexpected number"
    else if c.toNat = 0x2D || isDigit c then do
      let (text, p) ← jsonParseNumber (c :: p)
      return some (.number (strtod text), p)
    else if 0x80 ≤ c.toNat then
      if (utf8Decode c p).2.length == p.length then .error "Unexpected token '\\x%02x' in JSON"
      else .error "Unexpected token '\\u%04x' in JSON"
    else .ok (some (.char c, p))

/-- The tokens that `json_next_token` gives, one after another; the first is the current one. -/
inductive Tokens where
  | eof
  | error (e : String)
  | next (t : Token) (rest : Tokens)

def jsonTokensFrom : Nat → Bytes → Tokens
  | n, p =>
    match jsonNextToken strtod p with
    | .error e => .error e
    | .ok none => .eof
    | .ok (some (t, rest)) =>
      match n with
      | 0 => .eof
      | n + 1 => .next t (jsonTokensFrom n rest)

/-- A token takes a byte at least. -/
def jsonTokens (p : Bytes) : Tokens := jsonTokensFrom strtod p.length p

end Tokens

namespace Tokens

/-- The call of `json_next_token` behind the current token. -/
def advance : Tokens → Except String Tokens
  | .next _ (.error e) => .error e
  | .next _ rest => .ok rest
  | toks => .ok toks

/-- `s->token.val` is this character. -/
def isChar (c : Nat) : Tokens → Bool
  | .next (.char d) _ => d.toNat = c
  | _ => false

def length : Tokens → Nat
  | .next _ rest => rest.length + 1
  | _ => 0

end Tokens

/-- `JS_DefinePropertyValue`: a second definition changes the value in its place. -/
def defineProperty (fields : List (Units × Json)) (name : Units) (v : Json) :
    List (Units × Json) :=
  if fields.any (fun f => f.1 == name) then
    fields.map (fun f => if f.1 == name then (name, v) else f)
  else fields ++ [(name, v)]

/-- `false`, `true` and `null`. -/
def jsonLiteral (name : Bytes) : Option Json :=
  if name = [0x66, 0x61, 0x6C, 0x73, 0x65] then some (.bool false)
  else if name = [0x74, 0x72, 0x75, 0x65] then some (.bool true)
  else if name = [0x6E, 0x75, 0x6C, 0x6C] then some .null
  else none

mutual

/-- `json_parse_value`. Each token takes at most two nested calls, one of them of a loop; the
engine's check of its stack is left out. -/
def jsonParseValue : Nat → Tokens → Except String (Json × Tokens)
  | 0, _ => .error endOfInput
  | _ + 1, .eof => .error endOfInput
  | _ + 1, .error e => .error e
  | n + 1, .next t rest =>
    match t with
    | .char c => do
      if c.toNat = 0x7B then
        let toks ← (Tokens.next t rest).advance
        if toks.isChar 0x7D then return (.object [], ← toks.advance)
        else
          let (fields, toks) ← jsonParseMembers n toks []
          return (.object fields, ← toks.advance)
      else if c.toNat = 0x5B then
        let toks ← (Tokens.next t rest).advance
        if toks.isChar 0x5D then return (.array [], ← toks.advance)
        else
          let (elements, toks) ← jsonParseElements n toks []
          return (.array elements, ← toks.advance)
      else throw "unexpected token: '%.*s'"
    | .string s => return (.string s, ← (Tokens.next t rest).advance)
    | .number d => return (.number d, ← (Tokens.next t rest).advance)
    | .ident name =>
      match jsonLiteral name with
      | some v => return (v, ← (Tokens.next t rest).advance)
      | none => throw "unexpected token: '%.*s'"

/-- The loop over the properties of an object, up to the closing brace. -/
def jsonParseMembers : Nat → Tokens → List (Units × Json) →
    Except String (List (Units × Json) × Tokens)
  | 0, _, _ => .error endOfInput
  | n + 1, .next (.string name) rest, fields => do
    let toks ← (Tokens.next (.string name) rest).advance
    if !toks.isChar 0x3A then throw "Expected ':' after property name"
    else
      let toks ← toks.advance
      let (v, toks) ← jsonParseValue n toks
      let fields := defineProperty fields name v
      if toks.isChar 0x7D then return (fields, toks)
      else if !toks.isChar 0x2C then throw "Expected ',' or '\x7d' after property value"
      else
        let toks ← toks.advance
        jsonParseMembers n toks fields
  | _ + 1, _, _ => .error "Expected property name or '\x7d'"

/-- The loop over the elements of an array, up to the closing bracket. -/
def jsonParseElements : Nat → Tokens → List Json → Except String (List Json × Tokens)
  | 0, _, _ => .error endOfInput
  | n + 1, toks, elements => do
    let (v, toks) ← jsonParseValue n toks
    let elements := elements ++ [v]
    if toks.isChar 0x5D then return (elements, toks)
    else if !toks.isChar 0x2C then throw "Expected ',' or ']' after array element"
    else
      let toks ← toks.advance
      jsonParseElements n toks elements

end

/-- `JS_ParseJSON`. -/
def parseJSON (strtod : Bytes → Double) (buf : Bytes) : Except String Json :=
  let toks := jsonTokens strtod buf
  match toks with
  | .error e => .error e
  | _ => do
    let (v, toks) ← jsonParseValue (2 * toks.length) toks
    match toks with
    | .eof => return v
    | _ => throw "unexpected data at the end"

example (strtod : Bytes → Double) :
    parseJSON strtod [0x5B, 0x7B] = .error "Expected property name or '\x7d'" := rfl

/-- `JSON.parse`. -/
def jsonParse (strtod : Bytes → Double) (s : Str) : Except String Json :=
  parseJSON strtod (toCStringLen s)

end Quickjs
