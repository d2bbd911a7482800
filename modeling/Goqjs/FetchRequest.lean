import Goqjs.Bindings
import Goqjs.Merges

/-!
# The request of fetch

`fetch` reads its options before it starts the worker; the worker makes the HTTP
request from what was read. The headers travel in a Go map, over which the worker
ranges in some order.
-/

namespace Polyfill

open Quickjs Qjs Merges

variable {O ε : Type}

/-- A Go map of strings, its entries in the order in which the keys came. -/
abbrev GoMap := List (GoString × GoString)

/-- `m[key] = value`. -/
def GoMap.set (m : GoMap) (key value : GoString) : GoMap :=
  if m.any (fun e => e.1 == key) then
    m.map (fun e => if e.1 == key then (key, value) else e)
  else m ++ [(key, value)]

theorem GoMap.set_of_fresh {m : GoMap} {key : GoString} (fresh : key ∉ m.map Prod.fst)
    (value : GoString) : m.set key value = m ++ [(key, value)] := by
  refine if_neg fun mem => fresh ?_
  obtain ⟨e, old, same⟩ := List.any_eq_true.mp mem
  exact List.mem_map.mpr ⟨e, old, beq_iff_eq.mp same⟩

/-- What `fetch` has read when it starts the worker. A nil map ranges like an empty one. -/
structure FetchRequest where
  method : GoString
  url : GoString
  body : GoString
  headers : GoMap
  deriving DecidableEq

/-- The loop over the keys of the headers object. -/
def readHeaders (headersVal : Value O) : List GoString → GoMap → Call O ε GoMap
  | [], headers => return headers
  | key :: keys, headers => do
    let v ← Call.get headersVal key
    let text ← Call.string v
    readHeaders headersVal keys (headers.set key text)

def fetchHeaders (headersVal : Value O) : Call O ε GoMap := do
  if headersVal.isObject then
    let keys ← Call.keys headersVal
    readHeaders headersVal keys []
  else return []

/-- A string option with its default. -/
def stringOption (options : Value O) (name default : GoString) (f : GoString → GoString) :
    Call O ε GoString := do
  let v ← Call.get options name
  if !v.isUndefined && !v.isNull then
    let text ← Call.string v
    return f text
  else return default

/-- The options that `fetch` reads before the headers. -/
def fetchMethodBody (toUpper : GoString → GoString) (options : Value O) :
    Call O ε (GoString × GoString) := do
  let method ← stringOption options (ascii "method") (ascii "GET") toUpper
  let body ← stringOption options (ascii "body") [] id
  return (method, body)

/-- `fetch` up to the promise. -/
def fetchRequest (toUpper : GoString → GoString) (args : List (Value O)) :
    Call O ε FetchRequest :=
  match args with
  | [] => .throwError (ascii "fetch requires at least 1 argument")
  | urlArg :: more => do
    let url ← Call.string urlArg
    match more with
    | [] => return ⟨ascii "GET", url, [], []⟩
    | options :: _ =>
      if options.isObject then
        let (method, body) ← fetchMethodBody toUpper options
        let headersVal ← Call.get options (ascii "headers")
        let headers ← fetchHeaders headersVal
        return ⟨method, url, body, headers⟩
      else return ⟨ascii "GET", url, [], []⟩

/-- The bytes of the body reader; without a body there is none. -/
def bodyReader (body : GoString) : Option Bytes := if body = [] then none else some body

/-- The bytes that the HTTP client is handed. -/
def FetchRequest.bodyBytes (q : FetchRequest) : Bytes := (bodyReader q.body).getD []

/-- `validHeaderFieldByte`. -/
def validHeaderFieldByte (c : UInt8) : Bool :=
  (0x30 ≤ c && c ≤ 0x39) || (0x41 ≤ c && c ≤ 0x5A) || (0x61 ≤ c && c ≤ 0x7A) ||
    (ascii "!#$%&'*+-.^_\x60|~").contains c

/-- The case of each letter: upper at the start and behind a hyphen, else lower. -/
def canonicalCase : Bool → GoString → GoString
  | _, [] => []
  | upper, c :: rest =>
    let c' :=
      if upper && 0x61 ≤ c && c ≤ 0x7A then c - 0x20
      else if !upper && 0x41 ≤ c && c ≤ 0x5A then c + 0x20
      else c
    c' :: canonicalCase (c' == 0x2D) rest

/-- `textproto.CanonicalMIMEHeaderKey`: a name with another byte in it is left as it is. -/
def canonicalMIMEHeaderKey (name : GoString) : GoString :=
  if name.all validHeaderFieldByte then canonicalCase true name else name

/-- `http.Header`: the values of each canonical name. -/
abbrev Header := GoString → List GoString

/-- The header of the request after the worker's loop, which takes the entries of the map in the
given order: `Header.Set` replaces what the canonical name had. -/
def sentHeader (order : GoMap) : Header :=
  merge (fun e => canonicalMIMEHeaderKey e.1) (fun e => [e.2]) (fun _ => []) order

end Polyfill
