import Goqjs.Buffers
import Goqjs.Crypto
import Goqjs.Encoding
import Goqjs.FetchRequest
import Goqjs.UrlObject

/-!
# All functions of the polyfills

The functions that scripts can call, each as its body: the timers, `fetch` and the
methods of a response, `Buffer`, `crypto`, `zlib`, `URL` and the methods of its
parameters, `atob`, `btoa`, `TextEncoder` and `TextDecoder`.
-/

namespace Polyfill

open Quickjs Qjs NetUrl

variable {O : Type}

/-- What a call does besides returning. -/
inductive Effect (O : Type) where
  | setTimeout (fn : Value O) (delay : Int)
  | setInterval (fn : Value O) (delay : Int)
  | clearTimeout (id : Int)
  | clearInterval (id : Int)
  | fetch (q : FetchRequest)
  | setParams (params : Values)

/-- The delay argument, 0 where there is none. -/
def delayArg (more : List (Value O)) : Call O (Effect O) Int :=
  match more with
  | [] => return 0
  | delay :: _ => Call.int32 delay

/-- `id` is the next value of the counter. -/
def setTimeout (id : Int) (args : List (Value O)) : Call O (Effect O) (Value O) :=
  match args with
  | [] => return .number (.int32 0)
  | fn :: more => do
    let delay ← delayArg more
    Call.does (.setTimeout fn (if delay < 0 then 0 else delay))
    return .number (newInt64 id)

def setInterval (id : Int) (args : List (Value O)) : Call O (Effect O) (Value O) :=
  match args with
  | [] => return .number (.int32 0)
  | fn :: more => do
    let delay ← delayArg more
    Call.does (.setInterval fn (if delay ≤ 0 then 1 else delay))
    return .number (newInt64 id)

/-- `clearTimeout` and `clearInterval` differ in what they stop. -/
def clear (stop : Int → Effect O) (args : List (Value O)) : Call O (Effect O) (Value O) :=
  match args with
  | [] => return .undefined
  | idArg :: _ => do
    let id ← Call.int64 idArg
    Call.does (stop id)
    return .undefined

def clearTimeout (args : List (Value O)) : Call O (Effect O) (Value O) :=
  clear .clearTimeout args

def clearInterval (args : List (Value O)) : Call O (Effect O) (Value O) :=
  clear .clearInterval args

/-- `fetch` with the start of its worker; it returns a promise. -/
def fetch (toUpper : GoString → GoString) (args : List (Value O)) : Call O (Effect O) Unit := do
  let q ← fetchRequest toUpper args
  Call.does (.fetch q)

/-- `headers.get` and `headers.has` look a lower-case name up. -/
def headersGet (toLower : GoString → GoString) (headerMap : GoMap) (args : List (Value O)) :
    Call O (Effect O) (Value O) :=
  match args with
  | [] => return .null
  | name :: _ => do
    let key ← Call.string name
    match headerMap.find? (fun e => e.1 == toLower key) with
    | some e => return .newString e.2
    | none => return .null

def headersHas (toLower : GoString → GoString) (headerMap : GoMap) (args : List (Value O)) :
    Call O (Effect O) (Value O) :=
  match args with
  | [] => return .bool false
  | name :: _ => do
    let key ← Call.string name
    return .bool (headerMap.any (fun e => e.1 == toLower key))

def responseText (body : GoString) : Call O (Effect O) (Settled O) :=
  return .fulfilled (.newString body)

def responseArrayBuffer (body : GoString) : Call O (Effect O) (Settled O) :=
  return .fulfilled (.newArrayBuffer body)

/-- The text of an exception, as `Context.Exception` makes it. -/
def exceptionText (exc : Value O) : Call O (Effect O) GoString := do
  let msg ← Call.string exc
  let stack ← Call.get exc (ascii "stack")
  if stack.isUndefined then return msg
  else
    let text ← Call.string stack
    return msg ++ ascii "\n" ++ text

/-- `parsed` is what `JS_ParseJSON` gives for the body: a value, or what it throws. -/
def responseJson (parsed : Except (Value O) (Value O)) : Call O (Effect O) (Settled O) :=
  match parsed with
  | .ok v => return .fulfilled v
  | .error exc => .takeException do
    let text ← exceptionText exc
    return .rejected (.newString (ascii "json parse error: " ++ text))

def urlToString (href : GoString) : Call O (Effect O) (Value O) := return .newString href

def paramsGet (params : Values) (args : List (Value O)) : Call O (Effect O) (Value O) :=
  match args with
  | [] => return .null
  | keyArg :: _ => do
    let key ← Call.string keyArg
    let val := params.get key
    if val = [] ∧ params.has key = false then return .null
    else return .newString val

/-- `set` and `append` do nothing without two arguments. -/
def paramsWrite (write : GoString → GoString → Values) (args : List (Value O)) :
    Call O (Effect O) (Value O) :=
  match args with
  | keyArg :: valueArg :: _ => do
    let key ← Call.string keyArg
    let value ← Call.string valueArg
    Call.does (.setParams (write key value))
    return .undefined
  | _ => return .undefined

def paramsSet (params : Values) (args : List (Value O)) : Call O (Effect O) (Value O) :=
  paramsWrite params.set args

def paramsAppend (params : Values) (args : List (Value O)) : Call O (Effect O) (Value O) :=
  paramsWrite params.add args

def paramsHas (params : Values) (args : List (Value O)) : Call O (Effect O) (Value O) :=
  match args with
  | [] => return .bool false
  | keyArg :: _ => do
    let key ← Call.string keyArg
    return .bool (params.has key)

def paramsDelete (params : Values) (args : List (Value O)) : Call O (Effect O) (Value O) :=
  match args with
  | [] => return .undefined
  | keyArg :: _ => do
    let key ← Call.string keyArg
    Call.does (.setParams (params.del key))
    return .undefined

def paramsToString (params : Values) : Call O (Effect O) (Value O) := return .newString params.encode

inductive Function where
  | setTimeout
  | setInterval
  | clearTimeout
  | clearInterval
  | fetch
  | headersGet
  | headersHas
  | responseText
  | responseJson
  | responseArrayBuffer
  | bufferFrom
  | bufferIsBuffer
  | bufferToString
  | md5
  | randomBytes
  | aesEncrypt
  | rsaEncrypt
  | inflate
  | deflate
  | url
  | urlToString
  | urlSearchParams
  | paramsGet
  | paramsSet
  | paramsHas
  | paramsDelete
  | paramsToString
  | paramsAppend
  | atob
  | btoa
  | encode
  | decode
  deriving DecidableEq

/-- What the functions have besides their arguments: Go's libraries, and what their closures have
captured. -/
structure Captured (O : Type) where
  lib : Libraries
  net : NetLib
  random : Nat → Except GoString Bytes
  randomReader : Bytes
  counter : Int
  headerMap : GoMap
  body : GoString
  parseJSON : GoString → Except (Value O) (Value O)
  params : Values
  href : GoString

/-- The body of a function, without the value that it returns. -/
def Function.call (c : Captured O) (f : Function) (args : List (Value O)) :
    Call O (Effect O) Unit :=
  match f with
  | setTimeout => Polyfill.setTimeout c.counter args >>= fun _ => pure ()
  | setInterval => Polyfill.setInterval c.counter args >>= fun _ => pure ()
  | clearTimeout => Polyfill.clearTimeout args >>= fun _ => pure ()
  | clearInterval => Polyfill.clearInterval args >>= fun _ => pure ()
  | fetch => Polyfill.fetch c.lib.toUpper args
  | headersGet => Polyfill.headersGet c.lib.toLower c.headerMap args >>= fun _ => pure ()
  | headersHas => Polyfill.headersHas c.lib.toLower c.headerMap args >>= fun _ => pure ()
  | responseText => Polyfill.responseText c.body >>= fun _ => pure ()
  | responseJson => Polyfill.responseJson (c.parseJSON c.body) >>= fun _ => pure ()
  | responseArrayBuffer => Polyfill.responseArrayBuffer c.body >>= fun _ => pure ()
  | bufferFrom => Polyfill.bufferFrom args >>= fun _ => pure ()
  | bufferIsBuffer => Polyfill.bufferIsBuffer args >>= fun _ => pure ()
  | bufferToString => Polyfill.bufferToString args >>= fun _ => pure ()
  | md5 => Polyfill.md5 c.lib args >>= fun _ => pure ()
  | randomBytes => Polyfill.randomBytes c.random args >>= fun _ => pure ()
  | aesEncrypt => Polyfill.aesEncrypt c.lib args >>= fun _ => pure ()
  | rsaEncrypt => Polyfill.rsaEncrypt c.lib c.randomReader args >>= fun _ => pure ()
  | inflate => Polyfill.inflate c.lib args >>= fun _ => pure ()
  | deflate => Polyfill.deflate c.lib args >>= fun _ => pure ()
  | url => Polyfill.URL c.net args >>= fun _ => pure ()
  | urlToString => Polyfill.urlToString c.href >>= fun _ => pure ()
  | urlSearchParams => Polyfill.URLSearchParams args >>= fun _ => pure ()
  | paramsGet => Polyfill.paramsGet c.params args >>= fun _ => pure ()
  | paramsSet => Polyfill.paramsSet c.params args >>= fun _ => pure ()
  | paramsHas => Polyfill.paramsHas c.params args >>= fun _ => pure ()
  | paramsDelete => Polyfill.paramsDelete c.params args >>= fun _ => pure ()
  | paramsToString => Polyfill.paramsToString c.params >>= fun _ => pure ()
  | paramsAppend => Polyfill.paramsAppend c.params args >>= fun _ => pure ()
  | atob => Polyfill.atob args >>= fun _ => pure ()
  | btoa => Polyfill.btoa args >>= fun _ => pure ()
  | encode => textEncoderEncode args >>= fun _ => pure ()
  | decode => textDecoderDecode args >>= fun _ => pure ()

end Polyfill
