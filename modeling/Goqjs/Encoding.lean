import Goqjs.Base64
import Goqjs.Bindings

/-!
# atob, btoa, TextEncoder and TextDecoder
-/

namespace Polyfill

open Quickjs Qjs

variable {O ε : Type}

def atob (args : List (Value O)) : Call O ε (Value O) :=
  match args with
  | [] => .throwError (ascii "atob requires 1 argument")
  | a :: _ => do
    let encoded ← Call.string a
    let (decoded, ok) := Base64.decodeString Base64.stdEncoding encoded
    if ok then return .newString decoded
    else
      -- the comment in the source announces the URL-safe alphabet too
      let (decoded, ok) := Base64.decodeString Base64.rawStdEncoding encoded
      if ok then return .newString decoded
      else .throwError (ascii "atob: invalid base64 string")

def btoa (args : List (Value O)) : Call O ε (Value O) :=
  match args with
  | [] => .throwError (ascii "btoa requires 1 argument")
  | a :: _ => do
    let str ← Call.string a
    return .newString (Base64.encodeToString Base64.stdEncoding str)

def textEncoderEncode (args : List (Value O)) : Call O ε (Value O) :=
  match args with
  | [] => return .newArrayBuffer []
  | a :: _ => do
    let str ← Call.string a
    return .newArrayBuffer str

def textDecoderDecode (args : List (Value O)) : Call O ε (Value O) :=
  match args with
  | [] => return .newString []
  | a :: _ => do
    match ← Call.toByteArray a with
    | none => return .newString (← Call.string a)
    | some data => return .newString data

end Polyfill
