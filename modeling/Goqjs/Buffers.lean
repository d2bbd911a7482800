import Goqjs.Base64
import Goqjs.Hex
import Goqjs.Bindings

/-!
# Buffer

`Buffer.from` and `Buffer.toString` each choose by the name of the encoding; every
name they do not know stands for UTF-8, also `latin1` and `binary`.
-/

namespace Polyfill

open Quickjs Qjs

variable {O ε : Type}

/-- The encoding argument, `utf8` where there is none. -/
def encodingArg (more : List (Value O)) : Call O ε GoString :=
  match more with
  | [] => return ascii "utf8"
  | e :: _ => Call.string e

/-- The bytes that `Buffer.from` makes of a string. -/
def decodeText (encoding str : GoString) : Bytes :=
  if encoding = ascii "base64" then
    let (decoded, ok) := Base64.decodeString Base64.stdEncoding str
    -- the second error is dropped, with the bytes before it kept
    if ok then decoded else (Base64.decodeString Base64.rawStdEncoding str).1
  else if encoding = ascii "hex" then
    match Hex.decodeString str with
    | none => []
    | some decoded => decoded
  else str

def bufferFrom (args : List (Value O)) : Call O ε (Value O) :=
  match args with
  | [] => return .newArrayBuffer []
  | a :: more => do
    let encoding ← encodingArg more
    match ← Call.toByteArray a with
    | some data => return .newArrayBuffer data
    | none =>
      let str ← Call.string a
      return .newArrayBuffer (decodeText encoding str)

def bufferIsBuffer (args : List (Value O)) : Call O ε (Value O) :=
  match args with
  | [] => return .bool false
  | a :: _ => do
    let data ← Call.toByteArray a
    return .bool data.isSome

/-- The text that `Buffer.toString` makes of bytes. -/
def encodeText (encoding : GoString) (data : Bytes) : GoString :=
  if encoding = ascii "base64" then Base64.encodeToString Base64.stdEncoding data
  else if encoding = ascii "hex" then Hex.encodeToString data
  else data

def bufferToString (args : List (Value O)) : Call O ε (Value O) :=
  match args with
  | [] => return .newString []
  | a :: more => do
    match ← Call.toByteArray a with
    | none => return .newString (← Call.string a)
    | some data =>
      let encoding ← encodingArg more
      return .newString (encodeText encoding data)

end Polyfill
