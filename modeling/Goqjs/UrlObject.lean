import Goqjs.UrlValues

/-!
# URL and URLSearchParams

The constructors of the two, and the properties of the object that `URL` makes.
-/

namespace Polyfill

open Quickjs Qjs NetUrl

variable {O ε : Type}

/-- What is taken from Go's libraries as it is. -/
structure NetLib where
  isIPv6 : GoString → Bool
  resolveReference : NetUrl.URL → NetUrl.URL → NetUrl.URL

/-- A URL object; its method `toString` returns `href` too. -/
structure UrlObject where
  href : Str
  protocol : Str
  host : Str
  hostname : Str
  port : Str
  pathname : Str
  search : Str
  hash : Str
  origin : Str
  username : Str
  password : Str
  searchParams : Values

def urlObject (parsed : NetUrl.URL) : UrlObject where
  href := newStringLen parsed.string
  protocol := newStringLen (parsed.scheme ++ [colon])
  host := newStringLen parsed.host
  hostname := newStringLen parsed.hostname
  port := newStringLen parsed.port
  pathname := newStringLen parsed.path
  search := newStringLen (if parsed.rawQuery ≠ [] then question :: parsed.rawQuery else [])
  hash := newStringLen (if parsed.fragment ≠ [] then NetUrl.hash :: parsed.fragment else [])
  origin := newStringLen (parsed.scheme ++ ascii "://" ++ parsed.host)
  username := newStringLen parsed.username
  password := newStringLen parsed.password
  searchParams := parsed.query

/-- A reference is resolved if both texts are URLs. -/
def resolved (lib : NetLib) (baseStr urlStr : GoString) : GoString :=
  match Parse lib.isIPv6 baseStr, Parse lib.isIPv6 urlStr with
  | some baseURL, some ref => (lib.resolveReference baseURL ref).string
  | _, _ => urlStr

def URL (lib : NetLib) (args : List (Value O)) : Call O ε UrlObject :=
  match args with
  | [] => .throwError (ascii "URL requires at least 1 argument")
  | urlArg :: more => do
    let text ← Call.string urlArg
    let urlStr ←
      match more with
      | [] => pure text
      | baseArg :: _ => do
        let baseStr ← Call.string baseArg
        pure (resolved lib baseStr text)
    match Parse lib.isIPv6 urlStr with
    | none => .throwError (ascii "Invalid URL: " ++ urlStr)
    | some parsed => return urlObject parsed

/-- `strings.TrimPrefix(qs, "?")`. -/
def trimQuestion (qs : GoString) : GoString :=
  if qs.head? = some question then qs.drop 1 else qs

/-- On an error the parameters are empty. -/
def URLSearchParams (args : List (Value O)) : Call O ε Values :=
  match args with
  | [] => return []
  | arg :: _ => do
    let qs ← Call.string arg
    let (params, err) := ParseQuery (trimQuestion qs)
    return if err then [] else params

end Polyfill
