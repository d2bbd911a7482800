import Goqjs.JsonParser

/-!
# JSON out of the engine

`JS_JSONStringify` on a heap of arrays and plain objects. What runs code of the program is left
out: no object of the heap has a function under the name `toJSON` (nor have the prototypes, which
are the engine's own), and there is no replacer, no accessor, no proxy and no box of a primitive.
-/

namespace Quickjs

open Binary64

/-- What an element or a property holds. An object is known by its place in the heap. -/
inductive HeapValue (n : Nat) where
  | undefined
  | null
  | bool (b : Bool)
  | number (d : Double)
  | string (s : Str)
  | symbol
  | bigInt
  | function
  | object (i : Fin n)

/-- The text of an integer or of a constant. -/
def asciiUnits (text : String) : Units := text.toList.map (fun c => .ofNat c.toNat)

/-- No name comes twice, and what is called `toJSON` cannot be called. -/
structure PlainFields {n : Nat} (fields : List (Units × HeapValue n)) : Prop where
  distinct : (fields.map Prod.fst).Nodup
  noToJSON : ∀ f ∈ fields, f.1 = asciiUnits "toJSON" → f.2 ≠ .function

/-- The properties of a plain object are those that `js_object_keys` lists, in that order. -/
inductive HeapObject (n : Nat) where
  | array (elements : List (HeapValue n))
  | plain (fields : List (Units × HeapValue n)) (wellFormed : PlainFields fields)

/-- `is_surrogate`. -/
def isSurrogate (c : Nat) : Bool := c >>> 11 == 0xD800 >>> 11

/-- A digit that `%x` prints. -/
def hexDigit (d : Nat) : UInt16 := if d < 10 then .ofNat (0x30 + d) else .ofNat (0x61 + d - 10)

/-- What `\u%04x` prints for a number of 16 bits. -/
def hexEscape (c : Nat) : Units :=
  0x5C :: 0x75 :: [c / 4096, c / 256 % 16, c / 16 % 16, c % 16].map hexDigit

/-- One turn of the loop of `JS_ToQuotedString`. -/
def quotedChar (c : Nat) : Units :=
  if c = 0x09 then [0x5C, 0x74]
  else if c = 0x0D then [0x5C, 0x72]
  else if c = 0x0A then [0x5C, 0x6E]
  else if c = 0x08 then [0x5C, 0x62]
  else if c = 0x0C then [0x5C, 0x66]
  else if c = 0x22 ∨ c = 0x5C then [0x5C, .ofNat c]
  else if c < 32 ∨ isSurrogate c = true then hexEscape c
  else wordsOf c

/-- `JS_ToQuotedString` of a string. -/
def toQuotedString (s : Units) : Units := 0x22 :: ((codePoints s).flatMap quotedChar ++ [0x22])

variable {n : Nat}

/-- `JS_IsUndefined`. -/
def HeapValue.isUndefined : HeapValue n → Bool
  | .undefined => true
  | _ => false

/-- `js_json_check`, where there is neither a `toJSON` nor a replacer to call. -/
def jsonCheck : HeapValue n → HeapValue n
  | .function => .undefined
  | .symbol => .undefined
  | v => v

/-- The loop over the elements of an array; `write` is the recursive call. -/
def jsonElements (write : HeapValue n → Except String Units) :
    List (HeapValue n) → Except String (List Units)
  | [] => return []
  | v :: rest => do
    let v := jsonCheck v
    let text ← write (if v.isUndefined then .null else v)
    let others ← jsonElements write rest
    return text :: others

/-- The loop over the properties of an object. What is undefined is left out. -/
def jsonMembers (write : HeapValue n → Except String Units) (sep1 : Units) :
    List (Units × HeapValue n) → Except String (List Units)
  | [] => return []
  | (name, v) :: rest =>
    let v := jsonCheck v
    if v.isUndefined then jsonMembers write sep1 rest
    else do
      let text ← write v
      let others ← jsonMembers write sep1 rest
      return (toQuotedString name ++ 0x3A :: sep1 ++ text) :: others

/-- The parts with commas between them, each behind `sep`. -/
def separated (sep : Units) : List Units → Units
  | [] => []
  | part :: parts => sep ++ part ++ parts.flatMap (fun part => 0x2C :: sep ++ part)

section Writer

variable (objs : Fin n → HeapObject n) (numberText : Double → Bytes) (gap : Units)

/-- A line end and the indentation, if there is a gap. -/
def lineOf (indent : Units) : Units := if gap = [] then [] else 0x0A :: indent

/-- The parts between their brackets. The closing one stands on a line of its own behind a part. -/
def bracketed (opening closing : UInt16) (indent : Units) (parts : List Units) : Units :=
  opening :: (separated (lineOf gap (indent ++ gap)) parts ++
    (if parts = [] then [] else lineOf gap indent) ++ [closing])

/-- The message of `JS_ThrowStackOverflow`. -/
def stackOverflow : String := "Maximum call stack size exceeded"

/-- `js_json_to_str`. The first number is how many nested calls of it the C stack has room for:
the next one finds `js_check_stack_overflow` true. -/
def jsonToStr : Nat → List (Fin n) → Units → HeapValue n → Except String Units
  | 0, _, _, _ => .error stackOverflow
  | room + 1, stack, indent, v =>
    match v with
    | .object i =>
      if i ∈ stack then throw "circular reference"
      else
        let write := jsonToStr room (i :: stack) (indent ++ gap)
        match objs i with
        | .array elements => do
          let parts ← jsonElements write elements
          return bracketed gap 0x5B 0x5D indent parts
        | .plain fields _ => do
          let parts ← jsonMembers write (if gap = [] then [] else [0x20]) fields
          return bracketed gap 0x7B 0x7D indent parts
    | .string s => return toQuotedString s.units
    | .number d => return if isfinite d then latin1 (numberText d) else asciiUnits "null"
    | .bool b => return asciiUnits (if b then "true" else "false")
    | .null => return asciiUnits "null"
    | .bigInt => throw "BigInt are forbidden in JSON.stringify"
    | _ => return []

/-- What `space` says: at most ten spaces, or at most ten units. -/
def jsonGap : HeapValue n → Units
  | .number d => .replicate (if isnan d then 0 else (min (max d.trunc 0) 10).toNat) 0x20
  | .string s => s.units.take 10
  | _ => []

/-- `JS_JSONStringify`; `none` is undefined. -/
def jsonStringify (room : Nat) (space v : HeapValue n) : Except String (Option Units) :=
  let v := jsonCheck v
  if v.isUndefined then return none
  else do return some (← jsonToStr objs numberText (jsonGap space) room [] [] v)

/-- `Context.JSONStringify`: `Value.String` of the result. It gives no text for an exception. -/
def contextJSONStringify (room : Nat) (v : HeapValue n) : Bytes :=
  match jsonStringify objs numberText room .undefined v with
  | .error _ => []
  | .ok none => toCStringWide (asciiUnits "undefined")
  | .ok (some text) => toCStringWide text

end Writer

end Quickjs
